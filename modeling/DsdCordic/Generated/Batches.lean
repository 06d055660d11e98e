import DsdCordic.Generated.Elaborated
import Mathlib.Algebra.BigOperators.Group.List.Basic

/-! What a read of the peripheral depends on. The sum is exact but for the unit that it loses when it
starts with a negative result, so the order of a batch counts only for the sign of its first one; and
what the unit makes of an infinity or a NaN is again one of them, which the accumulator takes for
nothing. -/
namespace DsdCordic.Batches
open Binary32 Flushing Clocked Cores DsdCordic.Top Driver Elaborated
set_option autoImplicit false

/-! ## Infinities and NaNs -/

theorem mul_special {a b : Word} (h : exponent a = 255 ∨ exponent b = 255) :
    exponent (FpMult0002.mul a b) = 255 := by
  by_cases hnan : FpMult0002.NoProduct a b
  · rw [FpMult0002.mul_nan a b hnan]
    decide
  · have hinf : IsInf a ∨ IsInf b := by
      by_contra hno
      rw [not_or] at hno
      apply hnan
      rcases h with h | h
      · exact Or.inl ⟨h, fun hf => hno.1 ⟨h, hf⟩⟩
      · exact Or.inr (Or.inl ⟨h, fun hf => hno.2 ⟨h, hf⟩⟩)
    rw [FpMult0002.mul_inf a b hinf hnan]
    exact (pack_fields _ _ _).2.1

theorem add_special {a b : Word} (h : exponent b = 255) : exponent (FpAdd0002.add a b) = 255 := by
  by_cases hnan : FpAdd0002.NoSum a b
  · rw [FpAdd0002.add_nan a b hnan]
    decide
  · have hinf : IsInf b := by
      refine ⟨h, ?_⟩
      by_contra hf
      exact hnan (Or.inr (Or.inl ⟨h, hf⟩))
    rw [(FpAdd0002.add_inf a b hnan).2 hinf]
    exact (pack_fields _ _ _).2.1

/-- Half of it is one of them, whatever the cosine makes of it. -/
theorem fx_special {x : Word} (h : exponent x = 255) : exponent (Term.fx generated x) = 255 :=
  add_special (mul_special (Or.inl h))

theorem v_special {w : Word} (h : 177 < exponent w) : generated.v w = 0 := by
  have hunits : FpAcc0002.units w = 0 := if_neg (by omega)
  have hsigned : FpAcc0002.signedUnits w = 0 := by
    rw [FpAcc0002.signedUnits, hunits, Nat.cast_zero, neg_zero, ite_self]
  apply BitVec.eq_of_toInt_eq
  exact (FpAcc0002.contribution_toInt w false).trans hsigned

/-! ## Sums -/

/-- The first result of a batch is negative. -/
def startsNegative : List Word → Bool
  | [] => false
  | x :: _ => sign (Term.fx generated x)

/-- What the sum loses by it. -/
def lost (xs : List Word) : BitVec 179 := (BitVec.ofBool (startsNegative xs)).setWidth 179

theorem total_sum (xs : List Word) :
    Batch.total generated xs + lost xs = (xs.map fun x => generated.v (Term.fx generated x)).sum := by
  induction xs using List.reverseRecOn with
  | nil => rfl
  | append_singleton xs x ih =>
    rw [Batch.total_snoc, List.map_append, List.sum_append, ← ih, List.map_singleton,
      List.sum_singleton]
    cases xs with
    | nil =>
      have hfirst := FpAcc0002.v_eq_first (Term.fx generated x)
      exact hfirst.symm.trans (zero_add _).symm
    | cons y ys => exact add_right_comm _ _ _

def finite (x : Word) : Bool := exponent x != 255

theorem sum_finite (xs : List Word) :
    (xs.map fun x => generated.v (Term.fx generated x)).sum =
      ((xs.filter finite).map fun x => generated.v (Term.fx generated x)).sum := by
  induction xs with
  | nil => rfl
  | cons x xs ih =>
    by_cases h : exponent x = 255
    · have hzero : generated.v (Term.fx generated x) = 0 :=
        v_special (by rw [fx_special h]; norm_num)
      rw [List.filter_cons_of_neg (by simp [finite, h]), List.map_cons, List.sum_cons, hzero, zero_add,
        ih]
    · rw [List.filter_cons_of_pos (by simp [finite, h]), List.map_cons, List.map_cons, List.sum_cons,
        List.sum_cons, ih]

theorem total_perm {xs ys : List Word} (h : (xs.filter finite).Perm (ys.filter finite))
    (hsign : startsNegative xs = startsNegative ys) :
    Batch.total generated xs = Batch.total generated ys := by
  have hx := total_sum xs
  have hy := total_sum ys
  rw [sum_finite, (h.map _).sum_eq, ← sum_finite, ← hy, lost, hsign, ← lost] at hx
  exact add_right_cancel hx

/-! ## Reads -/

/-- **Order does not count, nor do infinities and NaNs.** Two reads of batches that are not empty, of
one traffic or of two, return the same word if the batches have the same finite samples in any order
and their first results the same sign. -/
theorem reads_order_free (input input' : ℕ → Pins) (h : Disciplined input) (h' : Disciplined input')
    (r r' : ℕ) (hr : reads input r = true) (hr' : reads input' r' = true)
    (hne : (batchAt input r).samples ≠ []) (hne' : (batchAt input' r').samples ≠ [])
    (hperm : ((batchAt input r).samples.filter finite).Perm ((batchAt input' r').samples.filter finite))
    (hsign : startsNegative (batchAt input r).samples = startsNegative (batchAt input' r').samples) :
    Elaborated.readdata (input (r + 23)) (run Elaborated.step input Elaborated.powerOn (r + 23)) =
      Elaborated.readdata (input' (r' + 23))
        (run Elaborated.step input' Elaborated.powerOn (r' + 23)) := by
  rw [readdata_batch h hr fun hempty => absurd hempty hne,
    readdata_batch h' hr' fun hempty => absurd hempty hne', Batch.answer, Batch.answer, if_neg hne,
    if_neg hne', total_perm hperm hsign]

theorem reads_order_free_two_samples :
    let one := trigSum [0x43000000#32, 0x437f0000#32]
    let other := trigSum [0x7fc00000#32, 0x437f0000#32, 0x43000000#32]
    Elaborated.readdata (one (3 + 23)) (run Elaborated.step one Elaborated.powerOn (3 + 23)) =
      Elaborated.readdata (other (4 + 23)) (run Elaborated.step other Elaborated.powerOn (4 + 23)) := by
  have h128 : sign (Term.fx generated 0x43000000#32) = false := by decide +kernel
  have hnan : sign (Term.fx generated 0x7fc00000#32) = false := by decide +kernel
  exact reads_order_free _ _ (trigSum_disciplined _) (trigSum_disciplined _) 3 4 rfl rfl (by decide)
    (by decide) (by decide) (h128.trans hnan.symm)

end DsdCordic.Batches
