import DsdCordic.Cordic.Convergence
import DsdCordic.Foundations.Rotation

/-! The `x` and `y` results of the iteration as a point of the plane. Engine `i` turns and stretches
it by a factor `1 ± 2^-i I` and rounds both parts down, so the point stays near an exact product, and
the angle of that product is what the `w` results have consumed. -/
namespace DsdCordic.VectorRotation
open Complex Engine Rotation
set_option autoImplicit false

noncomputable def point (v : XywZ) : ℂ := ⟨v.x, v.y⟩

noncomputable def direction (v : XywZ) : ℝ := if v.w < 0 then -1 else 1

/-! ## One engine -/

theorem direction_sq (v : XywZ) : direction v ^ 2 = 1 := by
  unfold direction
  split <;> norm_num

theorem abs_direction (v : XywZ) : |direction v| = 1 := by
  unfold direction
  split <;> norm_num

theorem engineZ_consumes (i : ℕ) (a : ℤ) (v : XywZ) :
    ((engineZ i a v).w : ℝ) = v.w - direction v * a := by
  unfold direction
  by_cases h : v.w < 0
  · rw [engineZ_neg h, if_pos h]
    push_cast
    ring
  · rw [engineZ_nonneg h, if_neg h]
    push_cast
    ring

theorem abs_ediv_sub_le (z : ℤ) (i : ℕ) : |((z / 2 ^ i : ℤ) : ℝ) - z * (1 / 2) ^ i| ≤ 1 := by
  have hpos : (0 : ℤ) < 2 ^ i := by positivity
  have hlo : ((z / 2 ^ i * 2 ^ i : ℤ) : ℝ) ≤ z := by exact_mod_cast Int.ediv_mul_le z hpos.ne'
  have hhi : (z : ℝ) ≤ ((z / 2 ^ i * 2 ^ i + 2 ^ i : ℤ) : ℝ) := by
    exact_mod_cast (by linarith [Int.lt_ediv_add_one_mul_self z hpos] : z ≤ z / 2 ^ i * 2 ^ i + 2 ^ i)
  have hone : (2 : ℝ) ^ i * (1 / 2) ^ i = 1 := by rw [← mul_pow]; norm_num
  have hhalf : (0 : ℝ) ≤ (1 / 2) ^ i := by positivity
  push_cast at hlo hhi
  have hlo' := mul_le_mul_of_nonneg_right hlo hhalf
  have hhi' := mul_le_mul_of_nonneg_right hhi hhalf
  rw [mul_assoc, hone, mul_one] at hlo'
  rw [add_mul, mul_assoc, hone, mul_one] at hhi'
  rw [abs_le]
  constructor <;> linarith

/-- What one engine leaves of the exact factor: each part is off by less than one unit. -/
theorem engineZ_point (i : ℕ) (a : ℤ) (v : XywZ) :
    ‖point (engineZ i a v) - point v * (1 + (direction v * (1 / 2) ^ i : ℝ) * I)‖ ≤ 3 / 2 := by
  have hx := abs_ediv_sub_le v.x i
  have hy := abs_ediv_sub_le v.y i
  have hparts : |(point (engineZ i a v) - point v * (1 + (direction v * (1 / 2) ^ i : ℝ) * I)).re| =
        |((v.y / 2 ^ i : ℤ) : ℝ) - v.y * (1 / 2) ^ i| ∧
      |(point (engineZ i a v) - point v * (1 + (direction v * (1 / 2) ^ i : ℝ) * I)).im| =
        |((v.x / 2 ^ i : ℤ) : ℝ) - v.x * (1 / 2) ^ i| := by
    simp only [sub_re, sub_im, mul_re, mul_im, add_re, add_im, one_re, one_im, ofReal_re, ofReal_im,
      I_re, I_im, point, direction]
    by_cases h : v.w < 0
    · rw [engineZ_neg h, if_pos h]
      push_cast
      exact ⟨congrArg _ (by ring), (abs_sub_comm _ _).trans (congrArg _ (by ring))⟩
    · rw [engineZ_nonneg h, if_neg h]
      push_cast
      exact ⟨(abs_sub_comm _ _).trans (congrArg _ (by ring)), congrArg _ (by ring)⟩
  have hsqrt : √2 ≤ 3 / 2 := by
    rw [Real.sqrt_le_left (by norm_num)]
    norm_num
  refine (norm_le_sqrt_two_mul_max _).trans ?_
  rw [hparts.1, hparts.2]
  calc √2 * max _ _ ≤ √2 * 1 := by
        exact mul_le_mul_of_nonneg_left (max_le hy hx) (Real.sqrt_nonneg 2)
    _ ≤ 3 / 2 := by rwa [mul_one]

/-! ## Engines in sequence -/

variable (a : ℕ → ℤ) (v : XywZ)

/-- The tangent that engine `i` turns by. -/
noncomputable def slope (i : ℕ) : ℝ := direction (iterateZ a i v) * (1 / 2) ^ i

theorem slope_sq (i : ℕ) : slope a v i ^ 2 = (1 / 4) ^ i := by
  rw [slope, mul_pow, direction_sq, one_mul, ← pow_mul, mul_comm i 2, pow_mul]
  norm_num

theorem arctan_slope (i : ℕ) :
    Real.arctan (slope a v i) = direction (iterateZ a i v) * Real.arctan ((1 / 2) ^ i) := by
  unfold slope direction
  split
  · rw [neg_one_mul, neg_one_mul, Real.arctan_neg]
  · rw [one_mul, one_mul]

theorem iterateZ_consumes (n : ℕ) :
    (v.w : ℝ) - (iterateZ a n v).w = ∑ i ∈ Finset.range n, direction (iterateZ a i v) * a i := by
  induction n with
  | zero => simp [iterateZ]
  | succ n ih =>
    rw [Finset.sum_range_succ, ← ih, iterateZ, engineZ_consumes]
    ring

/-- The angle of the exact product is the consumed angle, up to the errors of the table entries at
the scale `c`. -/
theorem angle_consumed (c δ : ℝ) (n : ℕ)
    (htable : ∀ i < n, |c * Real.arctan ((1 / 2) ^ i) - a i| ≤ δ) :
    |c * angle (slope a v) n - (v.w - (iterateZ a n v).w)| ≤ n * δ := by
  have hsum : c * angle (slope a v) n - (v.w - (iterateZ a n v).w) =
      ∑ i ∈ Finset.range n,
        direction (iterateZ a i v) * (c * Real.arctan ((1 / 2) ^ i) - a i) := by
    rw [iterateZ_consumes, angle, Finset.mul_sum, ← Finset.sum_sub_distrib]
    refine Finset.sum_congr rfl (fun i _ => ?_)
    rw [arctan_slope]
    ring
  rw [hsum]
  calc |∑ i ∈ Finset.range n, direction (iterateZ a i v) * (c * Real.arctan ((1 / 2) ^ i) - a i)|
      ≤ ∑ i ∈ Finset.range n,
          |direction (iterateZ a i v) * (c * Real.arctan ((1 / 2) ^ i) - a i)| :=
        Finset.abs_sum_le_sum_abs _ _
    _ ≤ ∑ _i ∈ Finset.range n, δ := by
        refine Finset.sum_le_sum (fun i hi => ?_)
        rw [abs_mul, abs_direction, one_mul]
        exact htable i (Finset.mem_range.mp hi)
    _ = n * δ := by rw [Finset.sum_const, Finset.card_range, nsmul_eq_mul]

/-- The rounding error grows by at most two units an engine: the stretching is over before it can
amplify what has gathered. -/
theorem stretched_error (i : ℕ) :
    2 * (i : ℝ) * ‖(1 + (slope a v i : ℝ) * I : ℂ)‖ + 3 / 2 ≤ 2 * (i + 1 : ℕ) := by
  have hnorm : ‖(1 + (slope a v i : ℝ) * I : ℂ)‖ ≤ 1 + (1 / 4) ^ i / 2 := by
    rw [norm_one_add_mul_I, slope_sq, Real.sqrt_le_left (by positivity)]
    nlinarith [sq_nonneg ((1 / 4 : ℝ) ^ i)]
  have hbern : 1 + (i : ℝ) * 3 ≤ 4 ^ i := by
    have h := one_add_mul_le_pow (by norm_num : (-2 : ℝ) ≤ 3) i
    norm_num at h
    exact h
  have hone : (4 : ℝ) ^ i * (1 / 4) ^ i = 1 := by rw [← mul_pow]; norm_num
  have hsmall : (i : ℝ) * (1 / 4) ^ i ≤ 1 / 2 := by
    have h4 : (0 : ℝ) ≤ (1 / 4) ^ i := by positivity
    have hmul := mul_le_mul_of_nonneg_right hbern h4
    rw [hone] at hmul
    nlinarith
  have hi : (0 : ℝ) ≤ i := Nat.cast_nonneg i
  push_cast
  calc 2 * (i : ℝ) * ‖(1 + (slope a v i : ℝ) * I : ℂ)‖ + 3 / 2
      ≤ 2 * i * (1 + (1 / 4) ^ i / 2) + 3 / 2 := by gcongr
    _ = 2 * i + i * (1 / 4) ^ i + 3 / 2 := by ring
    _ ≤ 2 * (i + 1) := by linarith

theorem iterateZ_point (n : ℕ) :
    ‖point (iterateZ a n v) - point v * ∏ i ∈ Finset.range n, (1 + slope a v i * I)‖ ≤ 2 * n := by
  refine rounded_product (fun i => point (iterateZ a i v)) (fun i => 1 + slope a v i * I) (3 / 2)
    (fun i => 2 * i) n (by simp) (fun i _ => ?_) (fun i _ => stretched_error a v i)
  exact engineZ_point i (a i) (iterateZ a i v)

theorem gain_slope_sq (n : ℕ) : gain (slope a v) n ^ 2 = ∏ i ∈ Finset.range n, (1 + (1 / 4 : ℝ) ^ i) := by
  rw [gain_sq]
  exact Finset.prod_congr rfl (fun i _ => by rw [slope_sq])

variable {a v}

/-- From `(x, 0)` the first coordinate ends near `x` times the gain times the cosine. -/
theorem iterateZ_x (hy : v.y = 0) (n : ℕ) :
    |(iterateZ a n v).x - v.x * gain (slope a v) n * Real.cos (angle (slope a v) n)| ≤ 2 * n := by
  have hpoint : point v = (v.x : ℝ) := by
    apply Complex.ext <;> simp [point, hy]
  have h := (Complex.abs_re_le_norm _).trans (iterateZ_point a v n)
  rw [hpoint, sub_re, re_ofReal_mul, re_prod_factors, ← mul_assoc] at h
  exact h

/-- From `(x, 0)` neither coordinate ever exceeds `x` times the gain by more than the roundings. -/
theorem iterateZ_bound (hy : v.y = 0) (hx : 0 ≤ v.x) (n : ℕ) :
    |((iterateZ a n v).x : ℝ)| ≤ v.x * gain (slope a v) n + 2 * n ∧
      |((iterateZ a n v).y : ℝ)| ≤ v.x * gain (slope a v) n + 2 * n := by
  have hpoint : point v = (v.x : ℝ) := by
    apply Complex.ext <;> simp [point, hy]
  have hx' : (0 : ℝ) ≤ v.x := by exact_mod_cast hx
  have hnorm : ‖point (iterateZ a n v)‖ ≤ v.x * gain (slope a v) n + 2 * n := by
    have hsplit := norm_sub_norm_le (point (iterateZ a n v))
      (point v * ∏ i ∈ Finset.range n, (1 + slope a v i * I))
    have hround := iterateZ_point a v n
    rw [norm_mul, norm_prod_factors, hpoint, norm_real, Real.norm_of_nonneg hx'] at hsplit
    rw [hpoint] at hround
    linarith
  exact ⟨(Complex.abs_re_le_norm _).trans hnorm, (Complex.abs_im_le_norm _).trans hnorm⟩

end DsdCordic.VectorRotation
