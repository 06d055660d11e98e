import DsdCordic.Peripheral.Sums

/-! The peripheral as its driver sees it: a request starts a batch, every sample joins it, and a read
returns the sum of `f(x)` over the batch as it stood when the read was made. The fixed latency is
right for every traffic that lets a batch drain before the next request. -/
namespace DsdCordic.Driver
open Binary32 Clocked Cores DsdCordic.Top Requests Sums
set_option autoImplicit false

/-! ## Batches without latency -/

structure Batch where
  data : Word
  samples : List Word

namespace Batch

def step (pins : Pins) (b : Batch) : Batch :=
  if pins.write1 then ⟨pins.writedata, []⟩
  else if pins.write0 then ⟨b.data, b.samples ++ [pins.writedata]⟩
  else b

variable {A : Type} [AddZeroClass A] (C : FpCores A)

/-- The accumulator starts with the first result and adds the others: the sum of the `v (f(x))` where
`start` is `v`. -/
def total : List Word → A
  | [] => 0
  | x :: xs => xs.foldl (fun acc x => acc + C.v (Term.fx C x)) (C.start (Term.fx C x))

/-- A batch without samples answers with the data of its request. -/
def answer (b : Batch) : Word := if b.samples = [] then b.data else C.enc (total C b.samples)

theorem total_snoc (xs : List Word) (x : Word) :
    total C (xs ++ [x]) = C.accumulate (total C xs) (Term.fx C x, decide (xs = [])) := by
  cases xs with
  | nil => rfl
  | cons y ys =>
    rw [List.cons_append, total, List.foldl_append]
    rfl

end Batch

def batchAt (input : ℕ → Pins) (c : ℕ) : Batch := run Batch.step input ⟨0#32, []⟩ c

section batches

variable {input : ℕ → Pins} {c : ℕ}

theorem batchAt_request (h : requests input c = true) :
    batchAt input (c + 1) = ⟨(input c).writedata, []⟩ := if_pos h

theorem batchAt_sample (h : samples input c = true) :
    batchAt input (c + 1) =
      ⟨(batchAt input c).data, (batchAt input c).samples ++ [(input c).writedata]⟩ := by
  have hreq : ¬(input c).write1 = true := Bool.eq_false_iff.mp (samples_not_requests h)
  rw [batchAt, run_succ, Batch.step, if_neg hreq]
  exact if_pos h

theorem batchAt_idle (hreq : requests input c = false) (hs : samples input c = false) :
    batchAt input (c + 1) = batchAt input c := by
  have hreq' : (input c).write1 = false := hreq
  have hs' : (input c).write0 = false := hs
  rw [batchAt, run_succ, Batch.step, hreq', hs']
  rfl

/-- A batch is empty while no sample has followed its request. -/
theorem batchAt_empty_iff (input : ℕ → Pins) (c : ℕ) :
    (batchAt input c).samples = [] ↔ (∀ k < c, samples input k = false) ∨
      ∃ r < c, requests input r = true ∧ ∀ k, r < k → k < c → samples input k = false := by
  induction c with
  | zero => simp [batchAt]
  | succ c ih =>
    by_cases hreq : requests input c = true
    · rw [batchAt_request hreq]
      exact ⟨fun _ => Or.inr ⟨c, by omega, hreq, fun k h1 h2 => by omega⟩, fun _ => rfl⟩
    · by_cases hs : samples input c = true
      · rw [batchAt_sample hs]
        refine ⟨fun h => by simp at h, ?_⟩
        rintro (hall | ⟨r, hr, hreq', hnone⟩)
        · simp [hall c (by omega)] at hs
        · by_cases hrc : r = c
          · exact absurd (hrc ▸ hreq') hreq
          · simp [hnone c (by omega) (by omega)] at hs
      · have hs' := Bool.eq_false_iff.mpr hs
        -- cycle `c` has no sample, so nothing changes from `c` to `c + 1`
        have hlast : ∀ P : ℕ → Prop, (∀ k, P k → k < c → samples input k = false) ↔
            ∀ k, P k → k < c + 1 → samples input k = false := by
          intro P
          refine ⟨fun h k hk hkc => ?_, fun h k hk hkc => h k hk (by omega)⟩
          by_cases hkc' : k = c
          · rw [hkc', hs']
          · exact h k hk (by omega)
        rw [batchAt_idle (Bool.eq_false_iff.mpr hreq) hs', ih]
        refine or_congr ?_ (exists_congr fun r => ?_)
        · simpa using hlast (fun _ => True)
        · rw [← hlast (fun k => r < k)]
          refine ⟨fun ⟨hr, h⟩ => ⟨by omega, h⟩, fun ⟨hr, hreq', hnone⟩ => ⟨?_, hreq', hnone⟩⟩
          have hne : r ≠ c := fun h => hreq (h ▸ hreq')
          omega

end batches

/-! ## The traffic of the driver -/

/-- At most one access in a cycle; no sample before the first request; a request only once every read
made before it has returned and the accumulator has taken every sample made before it. -/
structure Disciplined (input : ℕ → Pins) : Prop where
  resetN : ∀ c, (input c).resetN = true
  oneAccess : ∀ c, reads input c = true → (input c).write = false
  begun : ∀ s, samples input s = true → ∃ r < s, requests input r = true
  readsReturned : ∀ r0 r, reads input r0 = true → requests input r = true → r0 < r → r0 + 23 ≤ r
  samplesTaken : ∀ s r, samples input s = true → requests input r = true → s < r → s + 17 ≤ r

/-- The sums of the samples that a request before cycle `c` left behind were captured before it. -/
def Drained (input : ℕ → Pins) (c : ℕ) : Prop :=
  ∀ s r, samples input s = true → requests input r = true → s < r → r < c → s + 23 ≤ r

variable {A : Type} [AddZeroClass A] {C : FpCores A} {input : ℕ → Pins}

namespace Disciplined

theorem clear (h : Disciplined input) {r s : ℕ} (hreq : requests input r = true) (hsr : s < r)
    (hrs : r < s + 17) : samples input s = false := by
  rw [Bool.eq_false_iff]
  intro hs
  have := h.samplesTaken s r hs hreq hsr
  omega

theorem free (h : Disciplined input) {r s : ℕ} (hreq : requests input r = true) (hsr : s + 16 = r)
    (hs : samples input s = true) : (run (step C) input (powerOn C) r).n = false := by
  have := h.samplesTaken s r hs hreq (by omega)
  omega

theorem marked_iff (h : Disciplined input) {s : ℕ} (hs : samples input s = true) :
    (run (step C) input (powerOn C) (s + 16)).n = decide ((batchAt input s).samples = []) := by
  rw [Bool.eq_iff_iff, decide_eq_true_iff, batchAt_empty_iff,
    Requests.marked_iff (powerOn_cleared C) h.resetN
      (fun r s hreq hsr hrs => h.clear hreq hsr (by omega)) (fun r s => h.free) hs]
  constructor
  · exact Or.inr
  · intro hempty
    cases hempty with
    | inl hall =>
      obtain ⟨r, hr, hreq⟩ := h.begun s hs
      exact ⟨r, hr, hreq, fun k _ hk => hall k hk⟩
    | inr hex => exact hex

/-- A batch with samples waits for no request but the next one. -/
theorem not_pending (h : Disciplined input) {t : ℕ} (hne : (batchAt input t).samples ≠ [])
    (hquiet : ∀ k, t ≤ k → k < t + 16 → requests input k = false) :
    (run (step C) input (powerOn C) (t + 16)).n = false := by
  rw [Bool.eq_false_iff, ne_eq, pending_iff (powerOn_cleared C) h.resetN
    (fun r s hreq hsr hrs => h.clear hreq hsr (by omega)) (fun r s => h.free)]
  intro ⟨r, hr, hreq, hnone⟩
  by_cases hrt : r < t
  · exact hne ((batchAt_empty_iff input t).mpr
      (Or.inr ⟨r, hrt, hreq, fun k hk hkt => hnone k hk (by omega)⟩))
  · simp [hquiet r (by omega) hr] at hreq

/-! ## The sum follows the batch by sixteen cycles -/

theorem aheadAt_batch (h : Disciplined input) (t : ℕ) (hne : (batchAt input t).samples ≠ [])
    (hquiet : ∀ k, t ≤ k → k < t + 16 → requests input k = false) :
    aheadAt C input (powerOn C) (t + 16) = Batch.total C (batchAt input t).samples := by
  have h0 := powerOn_cleared C
  induction t with
  | zero => exact absurd rfl hne
  | succ t ih =>
    have hcycle : t + 1 + 16 = t + 17 := by omega
    rw [hcycle]
    by_cases hreq : requests input t = true
    · rw [batchAt_request hreq] at hne
      exact absurd rfl hne
    · have hreq' := Bool.eq_false_iff.mpr hreq
      have hquiet' : ∀ k, t ≤ k → k < t + 16 → requests input k = false := by
        intro k hk hkt
        by_cases htk : k = t
        · rwa [htk]
        · exact hquiet k (by omega) (by omega)
      by_cases hs : samples input t = true
      · rw [aheadAt_sample h0 h.resetN hs, h.marked_iff hs, batchAt_sample hs, Batch.total_snoc]
        by_cases hempty : (batchAt input t).samples = []
        · rw [hempty]
          rfl
        · rw [ih hempty hquiet']
      · have hs' := Bool.eq_false_iff.mpr hs
        rw [batchAt_idle hreq' hs'] at hne ⊢
        rw [aheadAt_idle h0 h.resetN (fun s hst => ?_) (fun _ => h.not_pending hne hquiet'),
          ih hne hquiet']
        obtain rfl : s = t := by omega
        exact hs'

/-! ## The read register follows the batch by 23 cycles -/

theorem readreg_sum (h : Disciplined input) (t : ℕ) (hne : (batchAt input t).samples ≠ [])
    (hquiet : ∀ k, t ≤ k → k < t + 23 → requests input k = false) :
    (run (step C) input (powerOn C) (t + 23)).readreg =
      C.enc (Batch.total C (batchAt input t).samples) := by
  have h0 := powerOn_cleared C
  induction t with
  | zero => exact absurd rfl hne
  | succ t ih =>
    have hcycle : t + 1 + 23 = t + 24 := by omega
    have hnow := hquiet (t + 23) (by omega) (by omega)
    rw [hcycle]
    by_cases hs : samples input t = true
    · rw [readreg_capture h0 h.resetN hnow hs,
        ← h.aheadAt_batch (t + 1) hne (fun k hk hkt => hquiet k hk (by omega))]
    · have hs' := Bool.eq_false_iff.mpr hs
      by_cases hreq : requests input t = true
      · rw [batchAt_request hreq] at hne
        exact absurd rfl hne
      · have hreq' := Bool.eq_false_iff.mpr hreq
        have hlast : ∀ s, s + 23 = t + 23 → samples input s = false := by
          intro s hst
          rwa [show s = t by omega]
        rw [batchAt_idle hreq' hs'] at hne ⊢
        rw [readreg_hold h0 h.resetN hnow hlast, ih hne]
        intro k hk hkt
        by_cases htk : k = t
        · rwa [htk]
        · exact hquiet k (by omega) (by omega)

end Disciplined

/-- An empty batch finds no sum on its way, once its request has found none. -/
theorem Drained.captured {t s : ℕ} (hdrained : Drained input t)
    (hempty : (batchAt input t).samples = []) (hs : samples input s = true) (hst : s < t) :
    s + 23 < t := by
  cases (batchAt_empty_iff input t).mp hempty with
  | inl hall => simp [hall s hst] at hs
  | inr hex =>
    obtain ⟨r, hr, hreq, hnone⟩ := hex
    by_cases hsr : s < r
    · have := hdrained s r hs hreq hsr hr
      omega
    · by_cases hsame : s = r
      · simp [hsame, requests_not_samples hreq] at hs
      · simp [hnone s (by omega) hst] at hs

theorem readreg_data (hreset : ∀ c, (input c).resetN = true) {t : ℕ} (hdrained : Drained input t)
    (hempty : (batchAt input t).samples = []) :
    (run (step C) input (powerOn C) t).readreg = (batchAt input t).data := by
  induction t with
  | zero => rfl
  | succ t ih =>
    by_cases hreq : requests input t = true
    · rw [readreg_request hreset hreq, batchAt_request hreq]
    · have hreq' := Bool.eq_false_iff.mpr hreq
      have hs : samples input t = false := by
        rw [Bool.eq_false_iff]
        intro hs
        simp [batchAt_sample hs] at hempty
      have hdrained' : Drained input t :=
        fun s r hs' hreqr hsr hrt => hdrained s r hs' hreqr hsr (by omega)
      rw [batchAt_idle hreq' hs] at hempty ⊢
      rw [readreg_hold (powerOn_cleared C) hreset hreq' (fun s hst => ?_), ih hdrained' hempty]
      rw [Bool.eq_false_iff]
      intro hs'
      have := hdrained'.captured hempty hs' (by omega)
      omega

namespace Disciplined

/-- The requests keep out of the window of a read. -/
theorem window_quiet (h : Disciplined input) {r : ℕ} (hr : reads input r = true) {k : ℕ}
    (hk : r ≤ k) (hkr : k < r + 23) : requests input k = false := by
  rw [Bool.eq_false_iff]
  intro hreq
  by_cases hsame : k = r
  · have hidle := h.oneAccess r hr
    simp [requests, Pins.write1, hsame, hidle] at hreq
  · have := h.readsReturned r k hr hreq (by omega)
    omega

theorem readdata_batch (h : Disciplined input) {r : ℕ} (hr : reads input r = true)
    (hdrained : (batchAt input r).samples = [] → Drained input r) :
    readdata (input (r + 23)) (run (step C) input (powerOn C) (r + 23)) =
      (batchAt input r).answer C := by
  rw [readdata_run (powerOn_cleared C) h.resetN, tap_at, hr, if_pos rfl, Batch.answer]
  by_cases hempty : (batchAt input r).samples = []
  · rw [if_pos hempty, ← readreg_data (C := C) h.resetN (hdrained hempty) hempty]
    refine readreg_steady (powerOn_cleared C) h.resetN (fun k => h.window_quiet hr) (fun s hs hsr => ?_)
    rw [Bool.eq_false_iff]
    intro hs'
    have := (hdrained hempty).captured hempty hs' (by omega)
    omega
  · rw [if_neg hempty, h.readreg_sum r hempty (fun k => h.window_quiet hr)]

theorem readdata_zero (h : Disciplined input) {c : ℕ} (hc : ∀ r, r + 23 = c → reads input r = false) :
    readdata (input c) (run (step C) input (powerOn C) c) = 0#32 := by
  rw [readdata_run (powerOn_cleared C) h.resetN, (tap_eq_false_iff _ _ _).mpr hc]
  rfl

end Disciplined

/-- **What a read returns.** For every disciplined traffic of any number of batches, 23 cycles after a
read the bus carries the sum over its batch at the time of the read (for an empty batch the data of
its request, once the earlier sums are captured), and zero in any other cycle. -/
theorem reads_return_batch_sums (C : FpCores A) (input : ℕ → Pins) (h : Disciplined input) :
    (∀ r, reads input r = true → ((batchAt input r).samples = [] → Drained input r) →
      readdata (input (r + 23)) (run (step C) input (powerOn C) (r + 23)) =
        (batchAt input r).answer C) ∧
    ∀ c, (∀ r, r + 23 = c → reads input r = false) →
      readdata (input c) (run (step C) input (powerOn C) c) = 0#32 :=
  ⟨fun _ hr hdrained => h.readdata_batch hr hdrained, fun _ hc => h.readdata_zero hc⟩

/-! ## The driver -/

/-- The accesses of `trigSum`: a request, the samples and the read. -/
def trigSum (xs : List Word) (c : ℕ) : Pins :=
  (.request 0#32 :: (xs.map .sample ++ [.poll])).getD c .idle

section driver

variable (xs : List Word)

theorem trigSum_sample {c : ℕ} (hc : c < xs.length) : trigSum xs (c + 1) = .sample xs[c] := by
  simp [trigSum, List.getElem?_append_left, hc]

theorem trigSum_poll : trigSum xs (xs.length + 1) = .poll := by simp [trigSum]

theorem trigSum_idle {c : ℕ} (hc : xs.length < c) : trigSum xs (c + 1) = .idle := by
  have hnone : (xs.map Pins.sample ++ [Pins.poll])[c]? = none := by simp; omega
  simp [trigSum, hnone]

theorem trigSum_cases (c : ℕ) :
    c = 0 ∧ trigSum xs c = .request 0#32 ∨
    (∃ x, 0 < c ∧ c ≤ xs.length ∧ trigSum xs c = .sample x) ∨
    c = xs.length + 1 ∧ trigSum xs c = .poll ∨ trigSum xs c = .idle := by
  cases c with
  | zero => exact Or.inl ⟨rfl, rfl⟩
  | succ c =>
    obtain hlt | rfl | hgt := lt_trichotomy c xs.length
    · exact Or.inr (Or.inl ⟨xs[c], by omega, by omega, trigSum_sample xs hlt⟩)
    · exact Or.inr (Or.inr (Or.inl ⟨rfl, trigSum_poll xs⟩))
    · exact Or.inr (Or.inr (Or.inr (trigSum_idle xs hgt)))

theorem trigSum_requests {c : ℕ} (h : requests (trigSum xs) c = true) : c = 0 := by
  obtain ⟨hc, _⟩ | ⟨x, _, _, hx⟩ | ⟨_, hx⟩ | hx := trigSum_cases xs c
  · exact hc
  all_goals simp [requests, hx, Pins.write1, Pins.sample, Pins.poll, Pins.idle] at h

theorem trigSum_disciplined : Disciplined (trigSum xs) where
  resetN c := by
    obtain ⟨_, hx⟩ | ⟨x, _, _, hx⟩ | ⟨_, hx⟩ | hx := trigSum_cases xs c <;> rw [hx] <;> rfl
  oneAccess c h := by
    obtain ⟨_, hx⟩ | ⟨x, _, _, hx⟩ | ⟨_, hx⟩ | hx := trigSum_cases xs c
    · simp [reads, hx, Pins.request] at h
    · simp [reads, hx, Pins.sample] at h
    · rw [hx]
      rfl
    · rw [hx]
      rfl
  begun s h := by
    cases s with
    | zero => exact absurd h Bool.false_ne_true
    | succ s => exact ⟨0, by omega, rfl⟩
  readsReturned r0 r _ hreq hlt := by
    rw [trigSum_requests xs hreq] at hlt
    omega
  samplesTaken s r _ hreq hlt := by
    rw [trigSum_requests xs hreq] at hlt
    omega

theorem trigSum_batch (c : ℕ) (hc : c ≤ xs.length) :
    batchAt (trigSum xs) (c + 1) = ⟨0#32, xs.take c⟩ := by
  induction c with
  | zero => rfl
  | succ c ih =>
    have hx := trigSum_sample xs (show c < xs.length by omega)
    have hs : samples (trigSum xs) (c + 1) = true := by
      rw [samples, hx]
      rfl
    rw [batchAt_sample hs, ih (by omega), hx, List.take_succ_eq_append_getElem (by omega)]
    rfl

/-- `trigSum` returns the sum of `f(x)` over its array. -/
theorem trigSum_returns (C : FpCores A) :
    readdata (trigSum xs (xs.length + 24)) (run (step C) (trigSum xs) (powerOn C) (xs.length + 24)) =
      (Batch.mk 0#32 xs).answer C := by
  have hr : reads (trigSum xs) (xs.length + 1) = true := by
    rw [reads, trigSum_poll]
    rfl
  have hdrained : Drained (trigSum xs) (xs.length + 1) := by
    intro s r _ hreq hlt
    rw [trigSum_requests xs hreq] at hlt
    omega
  have h := (trigSum_disciplined xs).readdata_batch (C := C) hr (fun _ => hdrained)
  rw [trigSum_batch xs _ le_rfl, List.take_length] at h
  exact h

end driver

theorem reads_return_batch_sums_two_samples :
    readdata (trigSum [0x43000000#32, 0x437f0000#32] 26)
        (run (step truncating) (trigSum [0x43000000#32, 0x437f0000#32]) (powerOn truncating) 26) =
      (Batch.mk 0#32 [0x43000000#32, 0x437f0000#32]).answer truncating :=
  (reads_return_batch_sums truncating _ (trigSum_disciplined [0x43000000#32, 0x437f0000#32])).1 3 rfl
    (fun h => absurd h (by decide))

end DsdCordic.Driver
