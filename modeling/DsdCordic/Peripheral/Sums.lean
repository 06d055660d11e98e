import DsdCordic.Peripheral.Requests

/-! What the accumulator holds and what the bus sees of it. The sum that is ahead of a cycle counts
the samples in the input stages; a sample's sum is captured 23 cycles after the sample was written,
just in time for a read made one cycle after it. -/
namespace DsdCordic.Sums
open Binary32 Clocked Cores DsdCordic.Top Requests
set_option autoImplicit false

variable {A : Type} [AddZeroClass A] {C : FpCores A} {input : ℕ → Pins} {s0 : State A}
  (h0 : Cleared s0) (hreset : ∀ c, (input c).resetN = true)

/-- The sum once all the samples that reached the accumulator before cycle `c` are in. -/
def aheadAt (C : FpCores A) (input : ℕ → Pins) (s0 : State A) (c : ℕ) : A :=
  C.ahead (run (step C) input s0 c).fpAccer

include hreset

theorem fpAccer_succ (c : ℕ) :
    (run (step C) input s0 (c + 1)).fpAccer =
      C.fpAcc false (run (step C) input s0 c).accEn (accIn C (input c) (run (step C) input s0 c))
        (run (step C) input s0 c).n (run (step C) input s0 c).fpAccer := by
  rw [run_succ, step_resetN (hreset c)]

theorem aheadAt_succ (c : ℕ) :
    aheadAt C input s0 (c + 1) =
      if (run (step C) input s0 c).accEn then C.accumulate (aheadAt C input s0 c)
        (accIn C (input c) (run (step C) input s0 c), (run (step C) input s0 c).n)
      else aheadAt C input s0 c := by
  rw [aheadAt, fpAccer_succ hreset]
  cases (run (step C) input s0 c).accEn with
  | false => exact C.ahead_disabled _ _ _
  | true => exact C.ahead_enabled _ _ _

theorem readreg_request {c : ℕ} (hreq : requests input c = true) :
    (run (step C) input s0 (c + 1)).readreg = (input c).writedata := by
  rw [run_succ, step_resetN (hreset c)]
  exact if_pos hreq

include h0

/-! ## The sum -/

/-- A sample counts from the seventeenth cycle on. -/
theorem aheadAt_sample {s : ℕ} (hs : samples input s = true) :
    aheadAt C input s0 (s + 17) = C.accumulate (aheadAt C input s0 (s + 16))
      (Term.fx C (input s).writedata, (run (step C) input s0 (s + 16)).n) := by
  have hen : (run (step C) input s0 (s + 16)).accEn = true :=
    (accEn_run_iff h0 hreset _).mpr ⟨s, 0, by omega, rfl, hs⟩
  rw [aheadAt_succ hreset, hen, if_pos rfl, accIn_sample h0 hreset hs]

/-- Between samples the sum stays, unless a request is pending while the accumulator still runs. -/
theorem aheadAt_idle {c : ℕ} (hc : ∀ s, s + 16 = c → samples input s = false)
    (hn : (run (step C) input s0 c).accEn = true → (run (step C) input s0 c).n = false) :
    aheadAt C input s0 (c + 1) = aheadAt C input s0 c := by
  rw [aheadAt_succ hreset]
  split
  · next hen => rw [accIn_idle h0 hreset hc, hn hen, C.accumulate_zero]
  · rfl

/-- The sum that a sample completes is at the output of the accumulator when it is captured. -/
theorem sum_captured {s : ℕ} (hs : samples input s = true) :
    C.fpAccR false (run (step C) input s0 (s + 23)).fpAccer =
      C.enc (aheadAt C input s0 (s + 17)) := by
  have hen : ∀ j < 6, (run (step C) input s0 (s + 17 + j)).accEn = true := by
    intro j hj
    exact (accEn_run_iff h0 hreset _).mpr ⟨s, j + 1, by omega, by omega, hs⟩
  exact C.fpAcc_run (fun c => (run (step C) input s0 c).accEn)
    (fun c => (run (step C) input s0 c).n)
    (fun c => accIn C (input c) (run (step C) input s0 c))
    (fun c => (run (step C) input s0 c).fpAccer) (s + 17) (fpAccer_succ hreset) hen

/-! ## The read register -/

theorem readreg_capture {s : ℕ} (hreq : requests input (s + 23) = false)
    (hs : samples input s = true) :
    (run (step C) input s0 (s + 24)).readreg = C.enc (aheadAt C input s0 (s + 17)) := by
  have hbit := accClkEnables_run (C := C) h0 hreset (s + 23) le_rfl
  rw [tap_at, hs] at hbit
  rw [run_succ, step_resetN (hreset _), ← sum_captured h0 hreset hs]
  simp only [show (input (s + 23)).write1 = false from hreq, hbit, Bool.false_eq_true, if_false,
    if_true]

theorem readreg_hold {c : ℕ} (hreq : requests input c = false)
    (hc : ∀ s, s + 23 = c → samples input s = false) :
    (run (step C) input s0 (c + 1)).readreg = (run (step C) input s0 c).readreg := by
  have hbit := accClkEnables_run (C := C) h0 hreset c le_rfl
  rw [(tap_eq_false_iff _ _ _).mpr hc] at hbit
  rw [run_succ, step_resetN (hreset c)]
  simp only [show (input c).write1 = false from hreq, hbit, Bool.false_eq_true, if_false]

/-- Without requests and captures the read register keeps its word. -/
theorem readreg_steady {c d : ℕ} (hreq : ∀ k, c ≤ k → k < c + d → requests input k = false)
    (hs : ∀ s, c ≤ s + 23 → s + 23 < c + d → samples input s = false) :
    (run (step C) input s0 (c + d)).readreg = (run (step C) input s0 c).readreg := by
  induction d with
  | zero => rfl
  | succ d ih =>
    have hd := ih (fun k hk hkd => hreq k hk (by omega)) (fun s hsc hsd => hs s hsc (by omega))
    rw [← hd, ← Nat.add_assoc]
    exact readreg_hold h0 hreset (hreq _ (by omega) (by omega))
      (fun s hsc => hs s (by omega) (by omega))

theorem readdata_run (c : ℕ) :
    readdata (input c) (run (step C) input s0 c) =
      if tap (reads input) 23 c then (run (step C) input s0 c).readreg else 0#32 := by
  rw [readdata, hreset, delayRead_run h0 hreset c le_rfl]
  rfl

end DsdCordic.Sums
