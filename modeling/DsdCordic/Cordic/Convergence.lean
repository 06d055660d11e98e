import DsdCordic.Cordic.Cosine
import DsdCordic.Foundations.AngleRecursion

/-! Convergence of the angle recursion. The `w` results are the residuals of a rotation by the table
entries, for any table; a table with truncated entries converges with some slack. The shipped table
has slack 5. -/
namespace DsdCordic.Convergence
open AngleRecursion Binary32 Cosine Engine Sdiv TwosComplement
set_option autoImplicit false

/-! ## Any table -/

theorem engineZ_w (i : ℕ) (a : ℤ) (v : XywZ) : (engineZ i a v).w = turn a v.w := by
  unfold engineZ turn
  split <;> rfl

theorem iterateZ_w (a : ℕ → ℤ) (n : ℕ) (v : XywZ) : (iterateZ a n v).w = residualAngle a v.w n := by
  induction n with
  | zero => rfl
  | succ n ih => rw [iterateZ, engineZ_w, ih, residualAngle]

theorem engine_w {width : ℕ} (i : BitVec 5) (a : BitVec (width + 2)) (v : Xyw width)
    (h : Fits (width + 2) (turn a.toInt v.w.toInt)) :
    (engine i a v).w.toInt = turn a.toInt v.w.toInt := by
  have hmsb := msb_iff_neg v.w
  unfold turn at h ⊢
  by_cases hw : v.w.toInt < 0
  · rw [if_pos hw] at h ⊢
    simp only [engine, hmsb.mpr hw, if_true]
    exact toInt_add_of_fits h
  · have hs : v.w.msb = false := Bool.eq_false_iff.mpr (fun hs => hw (hmsb.mp hs))
    rw [if_neg hw] at h ⊢
    simp only [engine, hs, Bool.false_eq_true, if_false]
    exact toInt_sub_of_fits h

/-- The angle words are exact while the residuals fit, whatever the `x` and `y` words do. -/
theorem iterate_w {width : ℕ} (angles : BitVec ((width + 2) * 32)) (v : Xyw width) (n : ℕ)
    (h : ∀ k ≤ n, Fits (width + 2) (residualAngle (fun i => (angleEntry angles i).toInt) v.w.toInt k)) :
    (iterate angles n v).w.toInt = residualAngle (fun i => (angleEntry angles i).toInt) v.w.toInt n := by
  induction n with
  | zero => rfl
  | succ n ih =>
    have hv := ih (fun k hk => h k (by omega))
    have hfit := h (n + 1) le_rfl
    rw [residualAngle, ← hv] at hfit ⊢
    rw [iterate, engine_w _ _ _ hfit]

theorem iterateZ_w_le (a : ℕ → ℤ) (n : ℕ) (s : ℤ) (v : XywZ)
    (h : ∀ i < n, a i ≤ reach a n s (i + 1)) (hw : |v.w| ≤ reach a n s 0) {k : ℕ} (hk : k ≤ n) :
    |(iterateZ a k v).w| ≤ reach a n s k := by
  rw [iterateZ_w]
  exact residual_in_reach a n s v.w h hw hk

theorem reach_ioo (a : ℕ → ℤ) (n : ℕ) (s : ℤ) (i : ℕ) :
    reach a n s (i + 1) = ∑ j ∈ Finset.Ioo i n, a j + a (n - 1) + s := by
  rw [reach, ← add_assoc]
  rfl

theorem reach_range (a : ℕ → ℤ) (n : ℕ) (s : ℤ) :
    reach a n s 0 = ∑ j ∈ Finset.range n, a j + a (n - 1) + s := by
  rw [reach, Finset.range_eq_Ico, ← add_assoc]

/-! ## The shipped table -/

def shippedAngle (i : ℕ) : ℤ := (angleEntry shipped.angles i).toInt

theorem shippedAngle_nonneg : ∀ i < 16, 0 ≤ shippedAngle i := by decide

theorem shippedAngle_slack : ∀ i < 16, shippedAngle i ≤ reach shippedAngle 16 5 (i + 1) := by
  decide

theorem shipped_reach_zero : reach shippedAngle 16 5 0 = 7311870 := by decide

theorem shipped_reach_end : reach shippedAngle 16 5 16 = 133 := by decide

/-- Every angle that `sdiv` makes of `0 ≤ x < 256` is in `[-2^22, 2^22)`. -/
theorem shipped_angle_range {x : Word} {q : ℚ} (hx : value x = some q) (h0 : 0 ≤ q)
    (h256 : q < 256) : |(fixedFractionalAngle 22 x).toInt| ≤ 2 ^ 22 := by
  rw [fixedFractionalAngle_floor 22 (by omega) hx h0 h256, abs_le]
  have hpow : (2 : ℚ) ^ (((22 : ℕ) : ℤ) - 7) = 2 ^ 15 := by norm_num
  rw [hpow]
  constructor
  · rw [Int.le_floor]
    push_cast
    linarith
  · rw [← Int.lt_add_one_iff, Int.floor_lt]
    push_cast
    linarith

/-- The start of the shipped iteration for the input word `x`. -/
def shippedStart (x : Word) : Xyw shipped.width := start shipped (fixedFractionalAngle 22 x)

theorem shipped_residual {x : Word} {q : ℚ} (hx : value x = some q) (h0 : 0 ≤ q) (h256 : q < 256)
    {k : ℕ} (hk : k ≤ 16) :
    |residualAngle shippedAngle (shippedStart x).w.toInt k| ≤ reach shippedAngle 16 5 k := by
  refine residual_in_reach _ 16 5 _ shippedAngle_slack ?_ hk
  have hrange := shipped_angle_range hx h0 h256
  rw [shipped_reach_zero]
  change |(fixedFractionalAngle 22 x).toInt| ≤ 7311870
  omega

/-- The angle words of the shipped engines are the exact residuals. -/
theorem shipped_w {x : Word} {q : ℚ} (hx : value x = some q) (h0 : 0 ≤ q) (h256 : q < 256)
    {k : ℕ} (hk : k ≤ 16) :
    Fits 24 (residualAngle shippedAngle (shippedStart x).w.toInt k) ∧
      (iterate shipped.angles k (shippedStart x)).w.toInt =
        residualAngle shippedAngle (shippedStart x).w.toInt k := by
  have hfit : ∀ j ≤ 16, Fits 24 (residualAngle shippedAngle (shippedStart x).w.toInt j) := by
    intro j hj
    have hres := shipped_residual hx h0 h256 hj
    have hreach := reach_le_zero shippedAngle 16 5 shippedAngle_nonneg hj
    rw [shipped_reach_zero] at hreach
    have := abs_le.mp (hres.trans hreach)
    unfold Fits
    omega
  exact ⟨hfit k hk, iterate_w shipped.angles _ k (fun j hj => hfit j (hj.trans hk))⟩

/-- **Convergence**, for any table that its own tail, its last entry and the slack cover, and for the
shipped one with slack 5. -/
theorem angle_recursion_converges :
    (∀ (n : ℕ) (a : ℕ → ℤ) (s : ℤ) (v : XywZ), 1 ≤ n → (∀ i < n, 0 ≤ a i) → 0 ≤ s →
      (∀ i < n, a i ≤ ∑ j ∈ Finset.Ioo i n, a j + a (n - 1) + s) →
      |v.w| ≤ ∑ j ∈ Finset.range n, a j + a (n - 1) + s →
      |(iterateZ a n v).w| ≤ a (n - 1) + s) ∧
    (∀ i < 16, 0 ≤ shippedAngle i ∧
      shippedAngle i ≤ ∑ j ∈ Finset.Ioo i 16, shippedAngle j + shippedAngle (16 - 1) + 5) ∧
    ∀ (x : Word) (q : ℚ), value x = some q → 0 ≤ q → q < 256 →
      |(fixedFractionalAngle 22 x).toInt| ≤
        ∑ j ∈ Finset.range 16, shippedAngle j + shippedAngle (16 - 1) + 5 ∧
      (∀ k ≤ 16, -2 ^ 23 ≤ (iterateZ shippedAngle k (shippedStart x).toZ).w ∧
        (iterateZ shippedAngle k (shippedStart x).toZ).w < 2 ^ 23 ∧
        (iterate shipped.angles k (shippedStart x)).w.toInt =
          (iterateZ shippedAngle k (shippedStart x).toZ).w) ∧
      |(iterate shipped.angles 16 (shippedStart x)).w.toInt| ≤ 133 := by
  refine ⟨?_, ?_, ?_⟩
  · intro n a s v _ _ _ hslack hw
    have hcover : ∀ i < n, a i ≤ reach a n s (i + 1) := by
      intro i hi
      rw [reach_ioo]
      exact hslack i hi
    rw [← reach_range] at hw
    have hend := iterateZ_w_le a n s v hcover hw le_rfl
    rwa [reach_end] at hend
  · intro i hi
    refine ⟨shippedAngle_nonneg i hi, ?_⟩
    rw [← reach_ioo]
    exact shippedAngle_slack i hi
  · intro x q hx h0 h256
    refine ⟨?_, ?_, ?_⟩
    · rw [← reach_range, shipped_reach_zero]
      have := shipped_angle_range hx h0 h256
      omega
    · intro k hk
      obtain ⟨⟨hlo, hhi⟩, hw⟩ := shipped_w hx h0 h256 hk
      have hz : (iterateZ shippedAngle k (shippedStart x).toZ).w =
          residualAngle shippedAngle (shippedStart x).w.toInt k := iterateZ_w _ _ _
      rw [hz]
      exact ⟨by omega, by omega, hw⟩
    · rw [(shipped_w hx h0 h256 le_rfl).2, ← shipped_reach_end]
      exact shipped_residual hx h0 h256 le_rfl

theorem value_200 : value 0x43480000#32 = some 200 :=
  value_normal rfl (by decide : exponent 0x43480000#32 = 134)
    (by decide : fraction 0x43480000#32 = 4718592) (by norm_num) (by norm_num) (by norm_num)

theorem angle_recursion_converges_at_200 :
    |(iterate shipped.angles 16 (shippedStart 0x43480000#32)).w.toInt| ≤ 133 :=
  (angle_recursion_converges.2.2 0x43480000#32 200 value_200 (by norm_num) (by norm_num)).2.2

end DsdCordic.Convergence
