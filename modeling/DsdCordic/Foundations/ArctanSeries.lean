import Mathlib.Analysis.SpecialFunctions.Complex.Arctan
import Mathlib.Analysis.SpecificLimits.Normed

/-! The arctangent between consecutive partial sums of its series, for arguments below one. -/
namespace DsdCordic.ArctanSeries
set_option autoImplicit false

noncomputable def term (x : ℝ) (k : ℕ) : ℝ := x ^ (2 * k + 1) / (2 * k + 1 : ℕ)

noncomputable def partialSum (x : ℝ) (n : ℕ) : ℝ := ∑ k ∈ Finset.range n, (-1) ^ k * term x k

theorem term_antitone {x : ℝ} (h0 : 0 ≤ x) (h1 : x ≤ 1) : Antitone (term x) := by
  intro j k hjk
  have hden : ((2 * j + 1 : ℕ) : ℝ) ≤ (2 * k + 1 : ℕ) := by
    exact_mod_cast (by omega : 2 * j + 1 ≤ 2 * k + 1)
  exact div_le_div₀ (pow_nonneg h0 _) (pow_le_pow_of_le_one h0 h1 (by omega)) (by positivity) hden

theorem term_nonneg {x : ℝ} (h0 : 0 ≤ x) (k : ℕ) : 0 ≤ term x k :=
  div_nonneg (pow_nonneg h0 _) (Nat.cast_nonneg _)

/-- The error of a partial sum is at most the first term left out. -/
theorem abs_arctan_sub_le {x : ℝ} (h0 : 0 ≤ x) (h1 : x < 1) (n : ℕ) :
    |Real.arctan x - partialSum x n| ≤ term x n := by
  have hsum : HasSum (fun k : ℕ => (-1) ^ k * term x k) (Real.arctan x) := by
    have h := Real.hasSum_arctan (x := x) (by rwa [Real.norm_of_nonneg h0])
    simpa only [term, mul_div_assoc] using h
  have habs : Summable (term x) := by
    have h := hsum.summable.abs
    simpa only [abs_mul, abs_pow, abs_neg, abs_one, one_pow, one_mul, abs_of_nonneg (term_nonneg h0 _)]
      using h
  rw [← hsum.tsum_eq]
  exact alternating_series_error_bound (term x) (term_antitone h0 h1.le) habs n

end DsdCordic.ArctanSeries
