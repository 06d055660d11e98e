import Mathlib.Algebra.BigOperators.Intervals
import Mathlib.Algebra.Order.Group.Abs
import Mathlib.Tactic.Abel
import Mathlib.Tactic.GCongr

/-! The angle recursion of a rotation by given amounts, over any ordered group: each amount is added
to what is left of the angle if that is negative, and is taken from it if not. Bounds that shrink by no
more than the next amount are carried to the end. -/
namespace DsdCordic.AngleRecursion
set_option autoImplicit false

variable {α : Type} [AddCommGroup α] [LinearOrder α]

def turn (a w : α) : α := if w < 0 then w + a else w - a

def residualAngle (a : ℕ → α) (w : α) : ℕ → α
  | 0 => w
  | i + 1 => turn (a i) (residualAngle a w i)

variable [IsOrderedAddMonoid α]

theorem abs_turn_le {a w b : α} (ha : a ≤ b) (hw : |w| ≤ a + b) : |turn a w| ≤ b := by
  obtain ⟨hlo, hhi⟩ := abs_le.mp hw
  unfold turn
  split
  · next hneg =>
    refine abs_le.mpr ⟨?_, ?_⟩
    · calc -b = -(a + b) + a := by abel
        _ ≤ w + a := by gcongr
    · calc w + a ≤ 0 + a := by gcongr
        _ ≤ b := by rwa [zero_add]
  · next hpos =>
    refine abs_le.mpr ⟨?_, ?_⟩
    · calc -b ≤ 0 - a := by rw [zero_sub]; exact neg_le_neg ha
        _ ≤ w - a := sub_le_sub_right (not_lt.mp hpos) a
    · calc w - a ≤ a + b - a := sub_le_sub_right hhi a
        _ = b := add_sub_cancel_left a b

theorem abs_residual_le (a b : ℕ → α) (w : α) (n : ℕ) (h0 : |w| ≤ b 0)
    (hb : ∀ i < n, b i ≤ a i + b (i + 1)) (ha : ∀ i < n, a i ≤ b (i + 1)) :
    |residualAngle a w n| ≤ b n := by
  induction n with
  | zero => exact h0
  | succ n ih =>
    have hn := ih (fun i hi => hb i (by omega)) (fun i hi => ha i (by omega))
    exact abs_turn_le (ha n n.lt_succ_self) (hn.trans (hb n n.lt_succ_self))

/-- What the residual can be before amount `i`: all that the amounts from `i` on can take off, the
last amount once more, and the slack. -/
def reach (a : ℕ → α) (n : ℕ) (s : α) (i : ℕ) : α := ∑ j ∈ Finset.Ico i n, a j + (a (n - 1) + s)

omit [LinearOrder α] [IsOrderedAddMonoid α] in
theorem reach_succ (a : ℕ → α) (n : ℕ) (s : α) {i : ℕ} (hi : i < n) :
    reach a n s i = a i + reach a n s (i + 1) := by
  rw [reach, reach, Finset.sum_eq_sum_Ico_succ_bot hi, add_assoc]

omit [LinearOrder α] [IsOrderedAddMonoid α] in
theorem reach_end (a : ℕ → α) (n : ℕ) (s : α) : reach a n s n = a (n - 1) + s := by
  rw [reach, Finset.Ico_self, Finset.sum_empty, zero_add]

omit [LinearOrder α] [IsOrderedAddMonoid α] in
theorem reach_le_zero [PartialOrder α] [IsOrderedAddMonoid α] (a : ℕ → α) (n : ℕ) (s : α)
    (ha : ∀ i < n, 0 ≤ a i) {k : ℕ} (hk : k ≤ n) : reach a n s k ≤ reach a n s 0 := by
  induction k with
  | zero => exact le_rfl
  | succ k ih =>
    refine le_trans ?_ (ih (by omega))
    rw [reach_succ a n s (by omega : k < n)]
    exact le_add_of_nonneg_left (ha k (by omega))

/-- Convergence: when no amount exceeds what the later ones, the last one and the slack make up,
each residual stays within reach. -/
theorem residual_in_reach (a : ℕ → α) (n : ℕ) (s w : α) (h : ∀ i < n, a i ≤ reach a n s (i + 1))
    (hw : |w| ≤ reach a n s 0) {k : ℕ} (hk : k ≤ n) : |residualAngle a w k| ≤ reach a n s k :=
  abs_residual_le a (reach a n s) w k hw
    (fun _ hi => (reach_succ a n s (hi.trans_le hk)).le) (fun i hi => h i (hi.trans_le hk))

end DsdCordic.AngleRecursion
