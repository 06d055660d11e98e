import DsdCordic.Peripheral.Top
import Mathlib.Data.List.GetD

/-! Requests for a new sum against samples in flight. One bit holds a request until the next sample
reaches the accumulator, sixteen cycles after it was written, so a request that overtakes an earlier
sample marks that one and is gone when its own first sample arrives. -/
namespace DsdCordic.Requests
open Binary32 Clocked Cores DsdCordic.Top
set_option autoImplicit false

variable {A : Type} [AddZeroClass A] {C : FpCores A}

/-- A request is made at a safe time: no sample is on its way to the accumulator (`clk_enables[14:0]`
is clear), and none consumes an older request in this very cycle. -/
def RequestSafe (pins : Pins) (s : State A) : Prop :=
  pins.write1 = true → (∀ k < 15, s.clkEnables.getLsbD k = false) ∧
    ¬(s.accClkEnables.getLsbD 0 = true ∧ s.state = .waitForSet)

section runs

variable {input : ℕ → Pins} {s0 : State A} (h0 : Cleared s0) (hreset : ∀ c, (input c).resetN = true)

/-! ## The request bit -/

include hreset

theorem n_succ (c : ℕ) :
    (run (step C) input s0 (c + 1)).n =
      if (run (step C) input s0 c).n then !(run (step C) input s0 c).accClkEnables.getLsbD 0
      else requests input c := by
  rw [run_succ, step_resetN (hreset c)]
  obtain ⟨_, _, _, _, accClkEnables, phase, _, _⟩ := run (step C) input s0 c
  simp only [State.n, State.nextState, requests]
  cases phase with
  | idle => cases (input c).write1 <;> rfl
  | waitForSet => cases accClkEnables.getLsbD 0 <;> rfl

omit [AddZeroClass A] hreset in
include h0 in
theorem n_start : s0.n = false := by
  rw [State.n, h0.state]
  rfl

include h0

/-- With requests made at safe times, one is pending while no sample since has been accumulated. -/
theorem pending_iff
    (hclear : ∀ r s, requests input r = true → s < r → r < s + 16 → samples input s = false)
    (hfree : ∀ r s, requests input r = true → s + 16 = r → samples input s = true →
      (run (step C) input s0 r).n = false) (c : ℕ) :
    (run (step C) input s0 c).n = true ↔
      ∃ r < c, requests input r = true ∧ ∀ s, r < s → s + 16 < c → samples input s = false := by
  induction c with
  | zero => simp [n_start h0]
  | succ c ih =>
    rw [n_succ hreset, arrival_run h0 hreset]
    by_cases hn : (run (step C) input s0 c).n = true
    · rw [if_pos hn]
      obtain ⟨r, hr, hreq, hnone⟩ := ih.mp hn
      cases htap : tap (samples input) 16 c with
      | false =>
        -- no sample arrives: the pending request stays pending
        have hidle := (tap_eq_false_iff _ _ _).mp htap
        refine ⟨fun _ => ⟨r, by omega, hreq, fun s hrs hsc => ?_⟩, fun _ => rfl⟩
        by_cases hlt : s + 16 < c
        · exact hnone s hrs hlt
        · exact hidle s (by omega)
      | true =>
        -- a sample arrives and takes the request with it
        obtain ⟨s, rfl, hs⟩ := (tap_iff _ _ _).mp htap
        refine ⟨fun h => by simp at h, fun ⟨r', hr', hreq', hnone'⟩ => ?_⟩
        by_cases hbefore : r' < s
        · simp [hnone' s hbefore (by omega)] at hs
        · by_cases hsame : r' = s
          · simp [← hsame, requests_not_samples hreq'] at hs
          · by_cases hin : r' < s + 16
            · simp [hclear r' s hreq' (by omega) hin] at hs
            · have hat : s + 16 = r' := by omega
              rw [hat, hfree r' s hreq' hat hs] at hn
              simp at hn
    · rw [if_neg hn]
      refine ⟨fun hreq => ⟨c, by omega, hreq, fun s hcs hsc => by omega⟩, ?_⟩
      rintro ⟨r, hr, hreq, hnone⟩
      by_cases hrc : r = c
      · rw [← hrc, hreq]
      · exact absurd (ih.mpr ⟨r, by omega, hreq, fun s hrs hsc => hnone s hrs (by omega)⟩) hn

/-- A sample is marked when a request stands between it and the sample before. -/
theorem marked_iff
    (hclear : ∀ r s, requests input r = true → s < r → r < s + 16 → samples input s = false)
    (hfree : ∀ r s, requests input r = true → s + 16 = r → samples input s = true →
      (run (step C) input s0 r).n = false) {s : ℕ} (hs : samples input s = true) :
    (run (step C) input s0 (s + 16)).n = true ↔
      ∃ r < s, requests input r = true ∧ ∀ k, r < k → k < s → samples input k = false := by
  rw [pending_iff h0 hreset hclear hfree]
  constructor
  · rintro ⟨r, hr, hreq, hnone⟩
    refine ⟨r, ?_, hreq, fun k hrk hks => hnone k hrk (by omega)⟩
    by_contra hge
    by_cases hsame : r = s
    · simp [← hsame, requests_not_samples hreq] at hs
    · simp [hclear r s hreq (by omega) hr] at hs
  · rintro ⟨r, hr, hreq, hnone⟩
    exact ⟨r, by omega, hreq, fun k hrk hks => hnone k hrk (by omega)⟩

/-! ## A request that overtakes a sample -/

omit h0 in
theorem n_stays_low {c d : ℕ} (hn : (run (step C) input s0 c).n = false)
    (hnone : ∀ k, c ≤ k → k < c + d → requests input k = false) :
    (run (step C) input s0 (c + d)).n = false := by
  induction d with
  | zero => exact hn
  | succ d ih =>
    have hd := ih (fun k hk hkd => hnone k hk (by omega))
    rw [← Nat.add_assoc, n_succ hreset, hd]
    simpa using hnone (c + d) (by omega) (by omega)

/-- A sample that arrives leaves no request behind. -/
theorem n_after_arrival {s d : ℕ} (hs : samples input s = true)
    (hnone : ∀ k, s + 16 ≤ k → k < s + 17 + d → requests input k = false) :
    (run (step C) input s0 (s + 17 + d)).n = false := by
  refine n_stays_low hreset ?_ (fun k hk hkd => hnone k (by omega) hkd)
  rw [n_succ hreset, arrival_run h0 hreset, tap_at, hs, hnone (s + 16) le_rfl (by omega)]
  simp

/-- A request made at an unsafe time is forgotten before a sample written later can arrive. -/
theorem risky_request_lost {r : ℕ} (hbad : ¬RequestSafe (input r) (run (step C) input s0 r))
    (hnone : ∀ k, r < k → requests input k = false) {c : ℕ} (hc : r + 17 ≤ c) :
    (run (step C) input s0 c).n = false := by
  rw [RequestSafe, Classical.not_imp, not_and_or, not_not] at hbad
  obtain ⟨hreq, hflight | ⟨hbit, hwait⟩⟩ := hbad
  · -- a sample in flight takes the request
    push Not at hflight
    obtain ⟨k, hk, hbit⟩ := hflight
    rw [Bool.ne_false_iff, clkEnables_run h0 hreset r (by omega)] at hbit
    obtain ⟨s, hsr, hs⟩ := (tap_iff _ _ _).mp hbit
    obtain ⟨d, rfl⟩ : ∃ d, c = s + 17 + d := ⟨c - (s + 17), by omega⟩
    exact n_after_arrival h0 hreset hs (fun k hk _ => hnone k (by omega))
  · -- the sample that arrives now takes both requests
    have hn : (run (step C) input s0 (r + 1)).n = false := by
      rw [n_succ hreset, State.n, hwait, hbit]
      rfl
    obtain ⟨d, rfl⟩ : ∃ d, c = r + 1 + d := ⟨c - (r + 1), by omega⟩
    exact n_stays_low hreset hn (fun k hk _ => hnone k (by omega))

/-- Sixteen cycles without a sample before a request are enough. -/
theorem requestSafe_of_clear {c : ℕ} (hclear : ∀ s < c, c ≤ s + 16 → samples input s = false) :
    RequestSafe (input c) (run (step C) input s0 c) := by
  refine fun _ => ⟨fun k hk => ?_, fun ⟨hbit, _⟩ => ?_⟩
  · rw [clkEnables_run h0 hreset c (by omega), tap_eq_false_iff]
    exact fun s hs => hclear s (by omega) (by omega)
  · rw [arrival_run h0 hreset, tap_iff] at hbit
    obtain ⟨s, hsc, hs⟩ := hbit
    simp [hclear s (by omega) (by omega)] at hs

theorem requestSafe_clear (hsafe : ∀ c, RequestSafe (input c) (run (step C) input s0 c)) (r s : ℕ)
    (hreq : requests input r = true) (hsr : s < r) (hrs : r < s + 16) : samples input s = false := by
  obtain ⟨d, rfl⟩ : ∃ d, r = s + (d + 1) := ⟨r - s - 1, by omega⟩
  have hbit := (hsafe _ hreq).1 d (by omega)
  rwa [clkEnables_run h0 hreset _ (by omega), tap_at] at hbit

theorem requestSafe_free (hsafe : ∀ c, RequestSafe (input c) (run (step C) input s0 c)) (r s : ℕ)
    (hreq : requests input r = true) (hsr : s + 16 = r) (hs : samples input s = true) :
    (run (step C) input s0 r).n = false := by
  subst hsr
  have hbit : (run (step C) input s0 (s + 16)).accClkEnables.getLsbD 0 = true := by
    rw [arrival_run h0 hreset, tap_at, hs]
  rw [State.n, beq_eq_false_iff_ne]
  exact fun hwait => (hsafe (s + 16) hreq).2 ⟨hbit, hwait⟩

end runs

/-! ## No request is lost or moved to another sample -/

/-- Every sample reaches the accumulator sixteen cycles after it was written, with `n` exactly when
it is the first one after a request. -/
def FirstSamplesMarked (C : FpCores A) (input : ℕ → Pins) : Prop :=
  ∀ s, samples input s = true →
    (run (step C) input (powerOn C) (s + 16)).accClkEnables.getLsbD 0 = true ∧
    ((run (step C) input (powerOn C) (s + 16)).n = true ↔
      ∃ r < s, requests input r = true ∧ ∀ k, r < k → k < s → samples input k = false)

/-- The stimulus of `tb`: a second batch begins while the first is still on its way. -/
def tbStimulus (c : ℕ) : Pins :=
  [.request 0#32, .sample 0x437f0000#32, .sample 0x43000000#32, .poll, .idle, .idle, .idle, .idle,
    .idle, .idle, .idle, .idle, .idle, .idle, .request 0#32, .sample 0x437f0000#32,
    .sample 0x43000000#32, .poll].getD c .idle

theorem tbStimulus_resetN (c : ℕ) : (tbStimulus c).resetN = true := by
  rcases Nat.lt_or_ge c 18 with hlt | hge
  · exact (by decide : ∀ c < 18, (tbStimulus c).resetN = true) c hlt
  · rw [tbStimulus, List.getD_eq_default _ _ hge]
    rfl

theorem tbStimulus_loses_request :
    (∀ c, (tbStimulus c).resetN = true) ∧ ¬FirstSamplesMarked truncating tbStimulus := by
  refine ⟨tbStimulus_resetN, fun h => ?_⟩
  have hlow := n_after_arrival (C := truncating) (s := 1) (d := 13) (powerOn_cleared truncating)
    tbStimulus_resetN rfl (by decide)
  have hmarked := (h 15 rfl).2.mpr ⟨14, by decide, rfl, fun k h1 h2 => by omega⟩
  rw [hlow] at hmarked
  exact Bool.false_ne_true hmarked

/-- In a run whose requests are all made at safe times every first sample is marked and no other; and
after any history, a request at an unsafe time is lost when the next sample comes late enough. -/
theorem safe_requests_mark_first_samples (C : FpCores A) (input : ℕ → Pins)
    (hreset : ∀ c, (input c).resetN = true) :
    ((∀ c, RequestSafe (input c) (run (step C) input (powerOn C) c)) →
      FirstSamplesMarked C input) ∧
    ∀ r, ¬RequestSafe (input r) (run (step C) input (powerOn C) r) →
      ∃ input' : ℕ → Pins, (∀ c, (input' c).resetN = true) ∧ (∀ c ≤ r, input' c = input c) ∧
        ¬FirstSamplesMarked C input' := by
  have h0 := powerOn_cleared C
  constructor
  · intro hsafe s hs
    refine ⟨?_, marked_iff h0 hreset (requestSafe_clear h0 hreset hsafe)
      (requestSafe_free h0 hreset hsafe) hs⟩
    rw [arrival_run h0 hreset, tap_at, hs]
  · intro r hbad
    let late : ℕ → Pins := fun c =>
      if c ≤ r then input c else if c = r + 20 then .sample 0#32 else .idle
    have hsame : ∀ c ≤ r, late c = input c := fun c hc => if_pos hc
    have hlate : ∀ c, r < c → late c = if c = r + 20 then .sample 0#32 else .idle :=
      fun c hc => if_neg (by omega)
    have hreset' : ∀ c, (late c).resetN = true := by
      intro c
      rcases Nat.lt_or_ge r c with hrc | hcr
      · rw [hlate c hrc]
        split <;> rfl
      · rw [hsame c hcr]
        exact hreset c
    have hnone : ∀ k, r < k → requests late k = false := by
      intro k hk
      rw [requests, hlate k hk]
      split <;> rfl
    have hquiet : ∀ k, r < k → k < r + 20 → samples late k = false := by
      intro k hk hk20
      rw [samples, hlate k hk, if_neg (by omega)]
      rfl
    have hsample : samples late (r + 20) = true := by
      rw [samples, hlate _ (by omega), if_pos rfl]
      rfl
    have hrun : run (step C) late (powerOn C) r = run (step C) input (powerOn C) r :=
      run_congr (step C) (powerOn C) (fun c hc => hsame c hc.le)
    rw [← hrun, ← hsame r le_rfl] at hbad
    refine ⟨late, hreset', hsame, fun hmarked => ?_⟩
    have hlow := risky_request_lost h0 hreset' hbad hnone (c := r + 20 + 16) (by omega)
    have hreq : requests late r = true := by
      rw [RequestSafe, Classical.not_imp] at hbad
      exact hbad.1
    rw [(hmarked (r + 20) hsample).2.mpr ⟨r, by omega, hreq, hquiet⟩] at hlow
    exact Bool.false_ne_true hlow.symm

/-- Two batches, the second one requested 17 cycles after the last sample of the first. -/
def twoBatches (c : ℕ) : Pins :=
  if c = 0 ∨ c = 19 then .request 0#32
  else if c = 1 ∨ c = 2 ∨ c = 20 then .sample 0x43000000#32
  else .idle

theorem safe_requests_mark_first_samples_two_batches : FirstSamplesMarked truncating twoBatches := by
  have hreset : ∀ c, (twoBatches c).resetN = true := by
    intro c
    unfold twoBatches
    split_ifs <;> rfl
  refine (safe_requests_mark_first_samples truncating twoBatches hreset).1 (fun c hreq => ?_)
  have hc : c = 0 ∨ c = 19 := by
    by_contra hne
    rw [twoBatches, if_neg hne] at hreq
    split_ifs at hreq <;> exact Bool.false_ne_true hreq
  refine requestSafe_of_clear (powerOn_cleared truncating) hreset (fun s hs hcs => ?_) hreq
  have hidle : ¬(s = 0 ∨ s = 19) ∧ ¬(s = 1 ∨ s = 2 ∨ s = 20) := by omega
  rw [samples, twoBatches, if_neg hidle.1, if_neg hidle.2]
  rfl

end DsdCordic.Requests
