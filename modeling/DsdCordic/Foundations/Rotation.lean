import Mathlib.Analysis.SpecialFunctions.Complex.Arctan
import Mathlib.Analysis.SpecialFunctions.Trigonometric.Bounds

/-! Rotations by multiplication with complex factors `1 + t I`: the product turns by the sum of the
arctangents and stretches by the product of the lengths. A product that is rounded after each factor
stays near the exact one. -/
namespace DsdCordic.Rotation
open Complex
set_option autoImplicit false

noncomputable def gain (t : ℕ → ℝ) (n : ℕ) : ℝ := ∏ i ∈ Finset.range n, √(1 + t i ^ 2)

noncomputable def angle (t : ℕ → ℝ) (n : ℕ) : ℝ := ∑ i ∈ Finset.range n, Real.arctan (t i)

theorem one_add_mul_I (t : ℝ) : (1 + t * I : ℂ) = √(1 + t ^ 2) * exp (Real.arctan t * I) := by
  have hpos : (0 : ℝ) < √(1 + t ^ 2) := Real.sqrt_pos.mpr (by positivity)
  rw [exp_mul_I, ← ofReal_cos, ← ofReal_sin, Real.cos_arctan, Real.sin_arctan]
  apply Complex.ext
  · simp [hpos.ne']
  · simp [hpos.ne', mul_div_cancel₀]

theorem norm_one_add_mul_I (t : ℝ) : ‖(1 + t * I : ℂ)‖ = √(1 + t ^ 2) := by
  rw [one_add_mul_I, norm_mul, norm_exp_ofReal_mul_I, mul_one, norm_real,
    Real.norm_of_nonneg (Real.sqrt_nonneg _)]

theorem prod_factors (t : ℕ → ℝ) (n : ℕ) :
    ∏ i ∈ Finset.range n, (1 + t i * I : ℂ) = gain t n * exp (angle t n * I) := by
  induction n with
  | zero => simp [gain, angle]
  | succ n ih =>
    rw [Finset.prod_range_succ, ih, one_add_mul_I, gain, gain, angle, angle, Finset.prod_range_succ,
      Finset.sum_range_succ]
    push_cast
    rw [add_mul, Complex.exp_add]
    ring

theorem gain_nonneg (t : ℕ → ℝ) (n : ℕ) : 0 ≤ gain t n :=
  Finset.prod_nonneg (fun _ _ => Real.sqrt_nonneg _)

theorem gain_mono (t : ℕ → ℝ) : Monotone (gain t) := by
  apply monotone_nat_of_le_succ
  intro n
  rw [gain, gain, Finset.prod_range_succ]
  apply le_mul_of_one_le_right (gain_nonneg t n)
  rw [Real.one_le_sqrt]
  nlinarith [sq_nonneg (t n)]

theorem gain_sq (t : ℕ → ℝ) (n : ℕ) : gain t n ^ 2 = ∏ i ∈ Finset.range n, (1 + t i ^ 2) := by
  rw [gain, ← Finset.prod_pow]
  exact Finset.prod_congr rfl (fun i _ => Real.sq_sqrt (by positivity))

theorem norm_prod_factors (t : ℕ → ℝ) (n : ℕ) :
    ‖∏ i ∈ Finset.range n, (1 + t i * I : ℂ)‖ = gain t n := by
  rw [prod_factors, norm_mul, norm_exp_ofReal_mul_I, mul_one, norm_real,
    Real.norm_of_nonneg (gain_nonneg t n)]

theorem re_prod_factors (t : ℕ → ℝ) (n : ℕ) :
    (∏ i ∈ Finset.range n, (1 + t i * I : ℂ)).re = gain t n * Real.cos (angle t n) := by
  rw [prod_factors, re_ofReal_mul, exp_ofReal_mul_I_re]

/-- A product rounded by at most `δ` after each factor: any bound that absorbs one factor and one
rounding at a time bounds the distance to the exact product. -/
theorem rounded_product (z ρ : ℕ → ℂ) (δ : ℝ) (b : ℕ → ℝ) (n : ℕ) (h0 : 0 ≤ b 0)
    (hz : ∀ i < n, ‖z (i + 1) - z i * ρ i‖ ≤ δ) (hb : ∀ i < n, b i * ‖ρ i‖ + δ ≤ b (i + 1)) :
    ‖z n - z 0 * ∏ i ∈ Finset.range n, ρ i‖ ≤ b n := by
  induction n with
  | zero => simpa using h0
  | succ n ih =>
    have hn := ih (fun i hi => hz i (by omega)) (fun i hi => hb i (by omega))
    have hsplit : z (n + 1) - z 0 * ∏ i ∈ Finset.range (n + 1), ρ i =
        (z n - z 0 * ∏ i ∈ Finset.range n, ρ i) * ρ n + (z (n + 1) - z n * ρ n) := by
      rw [Finset.prod_range_succ]
      ring
    calc ‖z (n + 1) - z 0 * ∏ i ∈ Finset.range (n + 1), ρ i‖
        ≤ ‖(z n - z 0 * ∏ i ∈ Finset.range n, ρ i) * ρ n‖ + ‖z (n + 1) - z n * ρ n‖ := by
          rw [hsplit]
          exact norm_add_le _ _
      _ ≤ b n * ‖ρ n‖ + δ := by
          rw [norm_mul]
          exact add_le_add (mul_le_mul_of_nonneg_right hn (norm_nonneg _)) (hz n n.lt_succ_self)
      _ ≤ b (n + 1) := hb n n.lt_succ_self

end DsdCordic.Rotation
