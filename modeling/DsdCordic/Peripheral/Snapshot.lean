import DsdCordic.Peripheral.Sums
import Mathlib.Data.Nat.Find

/-! What a pending read can still see. Samples written after a read come too late for it, but a
request is written to the read register at once, and one that overtakes samples changes their sums.
A read is a snapshot of the cycle it was made in while no request of its window does either. -/
namespace DsdCordic.Snapshot
open Binary32 Clocked Cores DsdCordic.Top Requests Sums
set_option autoImplicit false

variable {A : Type} [AddZeroClass A] {C : FpCores A}

/-- Each request in the 22 cycles after cycle `r` is overwritten by the sum of a sample made before
`r`, and does not change the request bit while such a sample is on its way to the accumulator. -/
def Undisturbed (C : FpCores A) (input : ℕ → Pins) (r : ℕ) : Prop :=
  ∀ c, r < c → c ≤ r + 22 → requests input c = true →
    (∃ s < r, c ≤ s + 22 ∧ samples input s = true) ∧
    ((run (step C) input (powerOn C) c).state = .waitForSet ∨
      ∀ s < r, c ≤ s + 15 → samples input s = false)

/-! ## A run against one without requests after the read -/

section runs

variable {a b : ℕ → Pins} {r : ℕ} (ha : ∀ c, (a c).resetN = true) (hb : ∀ c, (b c).resetN = true)
  (hsame : ∀ c ≤ r, a c = b c) (hu : Undisturbed C a r)
  (hquiet : ∀ c, r < c → c ≤ r + 22 → requests b c = false)

include hsame

theorem runs_agree {c : ℕ} (hc : c ≤ r + 1) :
    run (step C) a (powerOn C) c = run (step C) b (powerOn C) c :=
  run_congr (step C) (powerOn C) (fun k hk => hsame k (by omega))

theorem samples_agree {s : ℕ} (hs : s ≤ r) : samples a s = samples b s := by
  rw [samples, samples, hsame s hs]

include ha hb

/-- One step of the sum depends on the request bit and on the samples alone. -/
theorem ahead_step_agree {c : ℕ} (hc : c ≤ r + 16)
    (hn : (run (step C) a (powerOn C) c).n = (run (step C) b (powerOn C) c).n)
    (hahead : aheadAt C a (powerOn C) c = aheadAt C b (powerOn C) c) :
    aheadAt C a (powerOn C) (c + 1) = aheadAt C b (powerOn C) (c + 1) := by
  have h0 := powerOn_cleared C
  have hen : (run (step C) a (powerOn C) c).accEn = (run (step C) b (powerOn C) c).accEn := by
    rw [Bool.eq_iff_iff, accEn_run_iff h0 ha, accEn_run_iff h0 hb]
    constructor
    · rintro ⟨s, j, hj, hsc, hs⟩
      exact ⟨s, j, hj, hsc, (samples_agree hsame (by omega)).symm.trans hs⟩
    · rintro ⟨s, j, hj, hsc, hs⟩
      exact ⟨s, j, hj, hsc, (samples_agree hsame (by omega)).trans hs⟩
  have hin : accIn C (a c) (run (step C) a (powerOn C) c) =
      accIn C (b c) (run (step C) b (powerOn C) c) := by
    cases tap_cases (samples a) 16 c with
    | inl h =>
      obtain ⟨s, rfl, hs⟩ := h
      have hs' := (samples_agree hsame (show s ≤ r by omega)).symm.trans hs
      rw [accIn_sample h0 ha hs, accIn_sample h0 hb hs', hsame s (by omega)]
    | inr h =>
      have h' : ∀ s, s + 16 = c → samples b s = false :=
        fun s hsc => (samples_agree hsame (by omega)).symm.trans (h s hsc)
      rw [accIn_idle h0 ha h, accIn_idle h0 hb h']
  rw [aheadAt_succ ha, aheadAt_succ hb, hen, hin, hn, hahead]

include hu hquiet

/-- The request bits agree until the last sample made before the read has arrived. -/
theorem n_agree (d : ℕ) (hd : d ≤ 22) :
    (run (step C) a (powerOn C) (r + 1 + d)).n = (run (step C) b (powerOn C) (r + 1 + d)).n ∨
      ∀ s < r, samples a s = true → s + 16 < r + 1 + d := by
  have h0 := powerOn_cleared C
  induction d with
  | zero => exact Or.inl (by rw [Nat.add_zero, runs_agree hsame le_rfl])
  | succ d ih =>
    by_cases hlate : r + 16 < r + 1 + d
    · exact Or.inr (fun s hs _ => by omega)
    · cases ih (by omega) with
      | inr hdone => exact Or.inr (fun s hs hsa => (hdone s hs hsa).trans_le (by omega))
      | inl hn =>
        have hbit : tap (samples a) 16 (r + 1 + d) = tap (samples b) 16 (r + 1 + d) :=
          tap_congr (fun s hs => samples_agree hsame (by omega))
        rw [← Nat.add_assoc, n_succ ha, n_succ hb, arrival_run h0 ha, arrival_run h0 hb, hbit, hn,
          hquiet (r + 1 + d) (by omega) (by omega)]
        by_cases hreq : requests a (r + 1 + d) = true
        · cases (hu (r + 1 + d) (by omega) (by omega) hreq).2 with
          | inl hwait =>
            -- a request while one is pending changes nothing
            have hn' : (run (step C) b (powerOn C) (r + 1 + d)).n = true := by
              rw [← hn, State.n, hwait]
              rfl
            exact Or.inl (by simp [hn'])
          | inr hnone =>
            refine Or.inr (fun s hs hsa => ?_)
            by_contra hlate'
            simp [hnone s hs (by omega)] at hsa
        · exact Or.inl (by simp [hreq])

/-- The sums agree until the last sample made before the read is counted. -/
theorem ahead_agree (d : ℕ) (hd : d ≤ 22) :
    aheadAt C a (powerOn C) (r + 1 + d) = aheadAt C b (powerOn C) (r + 1 + d) ∨
      ∀ s < r, samples a s = true → s + 17 < r + 1 + d := by
  induction d with
  | zero => exact Or.inl (by rw [Nat.add_zero, aheadAt, aheadAt, runs_agree hsame le_rfl])
  | succ d ih =>
    by_cases hlate : r + 16 < r + 1 + d
    · exact Or.inr (fun s hs _ => by omega)
    · have hc : r + 1 + d ≤ r + 16 := by omega
      cases ih (by omega) with
      | inr hdone => exact Or.inr (fun s hs hsa => (hdone s hs hsa).trans_le (by omega))
      | inl hahead =>
        cases n_agree ha hb hsame hu hquiet d (by omega) with
        | inl hn => exact Or.inl (ahead_step_agree ha hb hsame hc hn hahead)
        | inr hdone => exact Or.inr (fun s hs hsa => by have := hdone s hs hsa; omega)

/-- The sums of the samples made before the read agree. -/
theorem sums_agree {s : ℕ} (hs : s < r) (hsa : samples a s = true) :
    aheadAt C a (powerOn C) (s + 17) = aheadAt C b (powerOn C) (s + 17) := by
  by_cases hle : s + 17 ≤ r
  · rw [aheadAt, aheadAt, runs_agree hsame (by omega)]
  · obtain ⟨d, hd⟩ : ∃ d, s + 17 = r + 1 + d := ⟨s + 17 - (r + 1), by omega⟩
    cases ahead_agree ha hb hsame hu hquiet d (by omega) with
    | inl h => rw [hd, h]
    | inr hdone =>
      have := hdone s hs hsa
      omega

/-- The read registers agree, or a sum that will make them agree is still to be captured. -/
theorem readreg_agree (d : ℕ) (hd : d ≤ 22) :
    (run (step C) a (powerOn C) (r + 1 + d)).readreg =
        (run (step C) b (powerOn C) (r + 1 + d)).readreg ∨
      ∃ s < r, samples a s = true ∧ r + 1 + d ≤ s + 23 := by
  have h0 := powerOn_cleared C
  induction d with
  | zero => exact Or.inl (by rw [Nat.add_zero, runs_agree hsame le_rfl])
  | succ d ih =>
    by_cases hreq : requests a (r + 1 + d) = true
    · obtain ⟨s, hs, hcs, hsa⟩ := (hu (r + 1 + d) (by omega) (by omega) hreq).1
      exact Or.inr ⟨s, hs, hsa, by omega⟩
    · have hreqa := Bool.eq_false_iff.mpr hreq
      have hreqb := hquiet (r + 1 + d) (by omega) (by omega)
      rw [← Nat.add_assoc]
      cases tap_cases (samples a) 23 (r + 1 + d) with
      | inl h =>
        obtain ⟨s, hsc, hsa⟩ := h
        have hsb := (samples_agree hsame (show s ≤ r by omega)).symm.trans hsa
        rw [← hsc] at hreqa hreqb ⊢
        have hra := readreg_capture (C := C) h0 ha hreqa hsa
        have hrb := readreg_capture (C := C) h0 hb hreqb hsb
        rw [sums_agree ha hb hsame hu hquiet (by omega) hsa, ← hrb] at hra
        exact Or.inl hra
      | inr hnone =>
        have hnone' : ∀ s, s + 23 = r + 1 + d → samples b s = false :=
          fun s hsc => (samples_agree hsame (by omega)).symm.trans (hnone s hsc)
        cases ih (by omega) with
        | inl hreg =>
          rw [readreg_hold h0 ha hreqa hnone, readreg_hold h0 hb hreqb hnone']
          exact Or.inl hreg
        | inr hcoming =>
          obtain ⟨s, hs, hsa, hsc⟩ := hcoming
          have hne : s + 23 ≠ r + 1 + d := fun h => by simp [hnone s h] at hsa
          exact Or.inr ⟨s, hs, hsa, by omega⟩

/-- A read that no request disturbs returns what it would return if nothing followed it. -/
theorem readdata_agree :
    readdata (a (r + 23)) (run (step C) a (powerOn C) (r + 23)) =
      readdata (b (r + 23)) (run (step C) b (powerOn C) (r + 23)) := by
  have h0 := powerOn_cleared C
  have hread : reads a r = reads b r := by rw [reads, reads, hsame r le_rfl]
  rw [readdata_run h0 ha, readdata_run h0 hb, tap_at, tap_at, hread]
  cases readreg_agree ha hb hsame hu hquiet 22 le_rfl with
  | inl hreg => rw [show r + 23 = r + 1 + 22 by omega, hreg]
  | inr hcoming =>
    obtain ⟨s, hs, _, hsc⟩ := hcoming
    omega

end runs

/-! ## Cutting a run off after the read -/

section cut

variable {a b : ℕ → Pins} {r : ℕ}

/-- The accesses up to cycle `r` and none after. -/
def cutAfter (input : ℕ → Pins) (r c : ℕ) : Pins := if c ≤ r then input c else .idle

theorem cutAfter_resetN (ha : ∀ c, (a c).resetN = true) (c : ℕ) : (cutAfter a r c).resetN = true := by
  unfold cutAfter
  split
  · exact ha c
  · rfl

theorem cutAfter_quiet {c : ℕ} (hc : r < c) : requests (cutAfter a r) c = false := by
  rw [requests, cutAfter, if_neg (by omega)]
  rfl

theorem cutAfter_congr (hsame : ∀ c ≤ r, a c = b c) : cutAfter a r = cutAfter b r := by
  funext c
  unfold cutAfter
  split
  · next hc => exact hsame c hc
  · rfl

theorem readdata_cut (ha : ∀ c, (a c).resetN = true) (hu : Undisturbed C a r) :
    readdata (a (r + 23)) (run (step C) a (powerOn C) (r + 23)) =
      readdata (cutAfter a r (r + 23)) (run (step C) (cutAfter a r) (powerOn C) (r + 23)) :=
  readdata_agree ha (cutAfter_resetN ha) (fun _ hk => (if_pos hk).symm) hu
    (fun _ hk _ => cutAfter_quiet hk)

/-- The data of the last request of the window is what the read returns, when no sample made before
the read is captured after it. -/
theorem readdata_last_request (ha : ∀ c, (a c).resetN = true) (hr : reads a r = true) {c : ℕ}
    (hrc : r < c) (hcr : c ≤ r + 22) (hreq : requests a c = true)
    (hlast : ∀ k, c < k → k ≤ r + 22 → requests a k = false)
    (hnone : ∀ s < r, c ≤ s + 22 → samples a s = false) :
    readdata (a (r + 23)) (run (step C) a (powerOn C) (r + 23)) = (a c).writedata := by
  obtain ⟨d, hd⟩ : ∃ d, r + 23 = c + 1 + d := ⟨r + 23 - (c + 1), by omega⟩
  rw [readdata_run (powerOn_cleared C) ha, tap_at, hr, if_pos rfl, hd,
    readreg_steady (powerOn_cleared C) ha (fun k hk hkd => hlast k (by omega) (by omega))
      (fun s hsc hsd => hnone s (by omega) (by omega)), readreg_request ha hreq]

end cut

/-! ## Reads as snapshots -/

/-- Two runs with the same accesses through cycle `r` return the same data 23 cycles later. -/
def SnapshotAt (C : FpCores A) (input input' : ℕ → Pins) (r : ℕ) : Prop :=
  readdata (input (r + 23)) (run (step C) input (powerOn C) (r + 23)) =
    readdata (input' (r + 23)) (run (step C) input' (powerOn C) (r + 23))

def readThenRequest (c : ℕ) : Pins := [.poll, .request 1#32].getD c .idle

theorem read_not_snapshot :
    (∀ c, (readThenRequest c).resetN = true) ∧ (∀ c, (cutAfter readThenRequest 0 c).resetN = true) ∧
      (∀ c ≤ 0, readThenRequest c = cutAfter readThenRequest 0 c) ∧
      reads readThenRequest 0 = true ∧
      ¬SnapshotAt truncating readThenRequest (cutAfter readThenRequest 0) 0 := by
  have hreset : ∀ c, (readThenRequest c).resetN = true := by
    intro c
    rcases c with _ | _ | c <;> rfl
  have hsamples : ∀ s, samples readThenRequest s = false := by
    intro s
    rcases s with _ | _ | s <;> rfl
  have hsame : ∀ c ≤ 0, readThenRequest c = cutAfter readThenRequest 0 c := by
    intro c hc
    rw [cutAfter, if_pos hc]
  have hquiet : ∀ k, 1 < k → k ≤ 0 + 22 → requests readThenRequest k = false := by
    intro k hk _
    rcases k with _ | _ | k
    · omega
    · omega
    · rfl
  refine ⟨hreset, cutAfter_resetN hreset, hsame, rfl, fun h => ?_⟩
  have hone := readdata_last_request (C := truncating) hreset (r := 0) rfl (c := 1) (by omega)
    (by omega) rfl hquiet (fun s _ _ => hsamples s)
  have hzero : (run (step truncating) (cutAfter readThenRequest 0) (powerOn truncating) (0 + 23)).readreg
      = 0#32 :=
    readreg_steady (powerOn_cleared truncating) (cutAfter_resetN hreset) (by decide)
      (fun s _ hs => by omega)
  rw [SnapshotAt, hone, readdata_run (powerOn_cleared truncating) (cutAfter_resetN hreset), hzero,
    ite_self] at h
  exact absurd h (by decide)

/-- Undisturbed reads are snapshots; and a read whose window holds a request that no captured sum
overwrites is not: other data in one request of the window makes it return other data. -/
theorem undisturbed_reads_are_snapshots (C : FpCores A) (input : ℕ → Pins)
    (hreset : ∀ c, (input c).resetN = true) (r : ℕ) :
    (∀ input' : ℕ → Pins, (∀ c, (input' c).resetN = true) → (∀ c ≤ r, input c = input' c) →
      Undisturbed C input r → Undisturbed C input' r → SnapshotAt C input input' r) ∧
    (reads input r = true → ∀ c, r < c → c ≤ r + 22 → requests input c = true →
      (∀ s < r, c ≤ s + 22 → samples input s = false) →
      ∃ input' : ℕ → Pins, (∀ k, (input' k).resetN = true) ∧ (∀ k ≤ r, input k = input' k) ∧
        ¬SnapshotAt C input input' r) := by
  constructor
  · intro input' hreset' hsame hu hu'
    rw [SnapshotAt, readdata_cut hreset hu, readdata_cut hreset' hu', cutAfter_congr hsame]
  · intro hread c hrc hcr hreq hnone
    -- the last request of the window decides what the read returns
    obtain ⟨l, hcl, hlr, hreql, hlast⟩ : ∃ l, c ≤ l ∧ l ≤ r + 22 ∧ requests input l = true ∧
        ∀ k, l < k → k ≤ r + 22 → requests input k = false := by
      refine ⟨Nat.findGreatest (fun k => requests input k = true) (r + 22),
        Nat.le_findGreatest hcr hreq, Nat.findGreatest_le _,
        Nat.findGreatest_spec (P := fun k => requests input k = true) hcr hreq, fun k hlk hkr => ?_⟩
      exact Bool.eq_false_iff.mpr (Nat.findGreatest_is_greatest hlk hkr)
    have hnonel : ∀ s < r, l ≤ s + 22 → samples input s = false :=
      fun s hs hls => hnone s hs (by omega)
    let other : ℕ → Pins := fun k =>
      if k = l then { input l with writedata := (input l).writedata + 1#32 } else input k
    have hother : ∀ k, k ≠ l → other k = input k := fun k hk => if_neg hk
    have hkind : ∀ k, (other k).resetN = (input k).resetN ∧ reads other k = reads input k ∧
        samples other k = samples input k ∧ requests other k = requests input k := by
      intro k
      by_cases hk : k = l
      · subst hk
        simp only [other, if_true, reads, samples, requests, Pins.write0, Pins.write1, and_self]
      · simp only [reads, samples, requests, hother k hk, and_self]
    have hresetl : ∀ k, (other k).resetN = true := fun k => (hkind k).1.trans (hreset k)
    have hdata := readdata_last_request (C := C) hreset hread (by omega) hlr hreql hlast hnonel
    have hdata' := readdata_last_request (C := C) hresetl ((hkind r).2.1.trans hread) (by omega) hlr
      ((hkind l).2.2.2.trans hreql) (fun k hlk hkr => (hkind k).2.2.2.trans (hlast k hlk hkr))
      (fun s hs hls => (hkind s).2.2.1.trans (hnonel s hs hls))
    refine ⟨other, hresetl, fun k hk => (hother k (by omega)).symm, ?_⟩
    rw [SnapshotAt, hdata, hdata']
    simp [other]

/-- A request between the read of a sample and the capture of its sum. -/
def lateRequest (c : ℕ) : Pins :=
  if c = 18 then .request 1#32 else [.request 0#32, .sample 0x43000000#32, .poll].getD c .idle

theorem undisturbed_reads_are_snapshots_late_request :
    SnapshotAt truncating lateRequest (cutAfter lateRequest 2) 2 := by
  have hreset : ∀ c, (lateRequest c).resetN = true := by
    intro c
    unfold lateRequest
    split_ifs
    · rfl
    · rcases c with _ | _ | _ | c <;> rfl
  have honly : ∀ c, 2 < c → requests lateRequest c = true → c = 18 := by
    intro c hc hreq
    by_contra hne
    rw [requests, lateRequest, if_neg hne, List.getD_eq_default _ _ hc] at hreq
    exact Bool.false_ne_true hreq
  refine (undisturbed_reads_are_snapshots truncating lateRequest hreset 2).1 _ (cutAfter_resetN hreset)
    (fun c hc => (if_pos hc).symm) (fun c hc _ hreq => ?_) (fun c hc _ hreq => ?_)
  · obtain rfl := honly c hc hreq
    exact ⟨⟨1, by omega, by omega, rfl⟩, Or.inr fun s hs hcs => by omega⟩
  · rw [cutAfter_quiet hc] at hreq
    exact absurd hreq Bool.false_ne_true

end DsdCordic.Snapshot
