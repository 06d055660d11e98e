import DsdCordic.Cordic.Packer
import DsdCordic.Cordic.Unpacker
import Mathlib.Data.Nat.Prime.Basic

/-! The packer behind the unpacker, as its test bench wires them, at every width. Between one half and
one the pair truncates to the width, but only while the packer's mantissa fits the float: beyond 24
fractional bits the packed word is the input's own pattern shifted out of place. -/
namespace DsdCordic.RoundTrip
open Binary32 Packer Unpacker
set_option autoImplicit false

/-- The test bench's wire between the two is as wide as the packer's input. -/
def fixed (width : ℕ) (data : Word) : BitVec (width + 2) := (unpacker width 9 true data).setWidth (width + 2)

def result (width : ℕ) (data : Word) : Word := packer width (fixed width data)

/-- A value cut to `width` fractional bits. -/
def truncated (width : ℕ) (q : ℚ) : ℚ := ⌊q * 2 ^ width⌋ / 2 ^ width

/-- The word that comes back is positive and stands for the truncated value, which from 24 fractional
bits on is the value itself. -/
def RoundTrips (width : ℕ) (x : Word) (q : ℚ) : Prop :=
  sign (result width x) = false ∧ value (result width x) = some (truncated width q) ∧
    (24 ≤ width → value (result width x) = some q)

section unit

variable {width : ℕ} {x : Word} {q : ℚ} (hx : value x = some q) (hlo : 1 / 2 ≤ q) (hhi : q ≤ 1)
include hx hlo hhi

/-- Between one half and one there are two exponents, and one pattern with the upper one. -/
theorem unit_fields : exponent x = 126 ∨ exponent x = 127 ∧ fraction x = 0 := by
  have hmag := (value_nonneg hx (by linarith)).1
  have hle : exponent x ≤ 127 := by
    apply exponent_le_of_lt
    rw [hmag]
    norm_num
    linarith
  have hge : ¬exponent x ≤ 125 := by
    intro h
    have hlt := magnitude_lt h
    rw [hmag] at hlt
    norm_num at hlt
    linarith
  by_cases h : exponent x = 127
  · refine Or.inr ⟨h, ?_⟩
    rw [magnitude, h, if_neg (by norm_num)] at hmag
    have hf : ((fraction x : ℕ) : ℚ) ≤ 0 := by
      norm_num at hmag
      linarith
    exact_mod_cast Nat.le_zero.mp (by exact_mod_cast hf)
  · exact Or.inl (by omega)

theorem fixed_toNat (h2 : 2 ≤ width) (h126 : width ≤ 126) :
    ((fixed width x).toNat : ℤ) = ⌊q * 2 ^ width⌋ := by
  have hE : 126 ≤ exponent x ∧ exponent x ≤ 127 := by
    have := unit_fields hx hlo hhi
    omega
  have hu := unpacker_exact hx (by linarith) (by linarith) (by omega) h126 (by omega) (Or.inl hE.2)
  have hle : ⌊q * 2 ^ width⌋ ≤ 2 ^ width := by
    rw [← Int.floor_intCast (R := ℚ) (2 ^ width)]
    apply Int.floor_le_floor
    push_cast
    exact mul_le_of_le_one_left (by positivity) hhi
  have hfit : (unpacker width 9 true x).toNat < 2 ^ (width + 2) := by
    have hlt : (2 : ℕ) ^ width < 2 ^ (width + 2) := Nat.pow_lt_pow_right (by norm_num) (by omega)
    rw [← hu] at hle
    exact lt_of_le_of_lt (by exact_mod_cast hle) hlt
  rw [fixed, BitVec.toNat_setWidth, Nat.mod_eq_of_lt hfit, hu]

/-- With 24 fractional bits nothing is cut. -/
theorem scaled_nat (h24 : 24 ≤ width) :
    q * 2 ^ width = (((2 ^ 23 + fraction x) * 2 ^ (exponent x + width - 150) : ℕ) : ℚ) := by
  have hE := unit_fields hx hlo hhi
  have hexp : (exponent x : ℤ) + width - 150 = (exponent x + width - 150 : ℕ) := by omega
  rw [value_scaled hx (by linarith) (by omega), hexp, zpow_natCast]
  push_cast
  rfl

theorem fixed_wide (h24 : 24 ≤ width) (h126 : width ≤ 126) :
    (fixed width x).toNat = (2 ^ 23 + fraction x) * 2 ^ (exponent x + width - 150) := by
  have hn := fixed_toNat hx hlo hhi (by omega) h126
  rw [scaled_nat hx hlo hhi h24, Int.floor_natCast] at hn
  exact_mod_cast hn

theorem truncated_wide (h24 : 24 ≤ width) : truncated width q = q := by
  have hint := scaled_nat hx hlo hhi h24
  rw [truncated, hint, Int.floor_natCast, Int.cast_natCast, ← hint,
    mul_div_cancel_right₀ _ (by positivity)]

omit hx hhi in
theorem truncated_pos (h2 : 2 ≤ width) : 0 < truncated width q := by
  have hfloor : 1 ≤ ⌊q * 2 ^ width⌋ := by
    rw [Int.le_floor]
    have hpow : (2 : ℚ) ^ 1 ≤ 2 ^ width := pow_le_pow_right₀ (by norm_num) (by omega)
    push_cast
    nlinarith
  have hpos : (0 : ℚ) < ⌊q * 2 ^ width⌋ := by exact_mod_cast hfloor
  exact div_pos hpos (by positivity)

/-- Up to 24 fractional bits the packer takes every word it gets to its value. -/
theorem value_result (h2 : 2 ≤ width) (h24 : width ≤ 24) :
    value (result width x) = some (truncated width q) := by
  have hn := fixed_toNat hx hlo hhi h2 (by omega)
  have hcast : (⌊q * 2 ^ width⌋ : ℚ) = (fixed width x).toNat := by exact_mod_cast hn.symm
  rw [truncated, hcast, result]
  by_cases hone : q = 1
  · have hfull : (fixed width x).toNat = 2 ^ width := by
      have hpow : ⌊(2 : ℚ) ^ width⌋ = 2 ^ width := by exact_mod_cast Int.floor_natCast (2 ^ width)
      rw [hone, one_mul, hpow] at hn
      exact_mod_cast hn
    have hlt : 2 ^ width < 2 ^ (width + 1) := Nat.pow_lt_pow_right (by norm_num) (by omega)
    rw [packer_value_one width h2 h24 _ hfull.ge (by rwa [hfull]), hfull]
    congr 1
    push_cast
    exact (div_self (by positivity)).symm
  · have hhalf : ((2 ^ (width - 1) : ℕ) : ℤ) ≤ ⌊q * 2 ^ width⌋ := by
      have hdouble : (2 : ℚ) ^ width = 2 ^ (width - 1) * 2 := by
        rw [← pow_succ]
        congr 1
        omega
      rw [Int.le_floor, hdouble]
      push_cast
      nlinarith [(by positivity : (0 : ℚ) < 2 ^ (width - 1))]
    have htop : ⌊q * 2 ^ width⌋ < ((2 ^ width : ℕ) : ℤ) := by
      rw [Int.floor_lt]
      push_cast
      exact mul_lt_of_lt_one_left (by positivity) (lt_of_le_of_ne hhi hone)
    rw [← hn] at hhalf htop
    exact packer_value_below_one width h2 h24 _ (by exact_mod_cast hhalf) (by exact_mod_cast htop)

/-- Beyond 24 the pattern itself comes back, moved up by the bits that do not fit. -/
theorem result_wide (h24 : 24 < width) (h126 : width ≤ 126) :
    (result width x).toNat = x.toNat * 2 ^ (width - 24) % 2 ^ 32 := by
  have hs := sign_of_pos hx (by linarith)
  have hf := fraction_lt x
  have hn := fixed_wide hx hlo hhi h24.le h126
  obtain ⟨k, rfl⟩ : ∃ k, width = 24 + k := ⟨width - 24, by omega⟩
  have hp : 0 < 2 ^ k := by positivity
  have hW : 2 ^ (24 + k) = 2 ^ 24 * 2 ^ k := pow_add ..
  have hW1 : 2 ^ (24 + k + 1) = 2 ^ 25 * 2 ^ k := by rw [← pow_add]; congr 1; omega
  have hW' : 2 ^ (24 + k - 1) = 2 ^ 23 * 2 ^ k := by rw [← pow_add]; congr 1; omega
  rw [result, packer_wide _ h24, getLsbD_eq_decide, getLsbD_eq_decide, toNat_fields x, hs, hn, hW,
    hW1, hW', Nat.add_sub_cancel_left]
  have hclear : decide (0 % 2 = 1) = false := rfl
  obtain he | ⟨he, hf0⟩ := unit_fields hx hlo hhi
  · have hexp : 126 + (24 + k) - 150 = k := by omega
    have htop : (2 ^ 23 + fraction x) / 2 ^ 25 = 0 := by omega
    have hone : (2 ^ 23 + fraction x) / 2 ^ 24 = 0 := by omega
    have hlow : (2 ^ 23 + fraction x) % 2 ^ 23 = fraction x := by omega
    rw [he, hexp, Nat.mul_div_mul_right _ _ hp, Nat.mul_div_mul_right _ _ hp, Nat.mul_mod_mul_right,
      htop, hone, hlow, hclear]
    simp only [Bool.toNat_false, Bool.false_eq_true, if_false]
    exact congrArg (· % 2 ^ 32) (by ring)
  · have hexp : 127 + (24 + k) - 150 = k + 1 := by omega
    have hfull : (2 ^ 23 + 0) * 2 ^ (k + 1) = 2 ^ 24 * 2 ^ k := by ring
    have hset : decide (1 % 2 = 1) = true := rfl
    rw [he, hf0, hexp, hfull, Nat.mul_div_mul_right _ _ hp, Nat.div_self (by positivity),
      Nat.div_eq_of_lt (by norm_num), hclear, hset]
    simp only [Bool.toNat_false, if_true]
    exact congrArg (· % 2 ^ 32) (by ring)

theorem result_wide_ne (h24 : 24 < width) (h126 : width ≤ 126) : result width x ≠ x := by
  intro heq
  have hshift := result_wide hx hlo hhi h24 h126
  have hE := unit_fields hx hlo hhi
  have hlt := x.isLt
  have hpos : 0 < x.toNat := by
    rw [toNat_fields]
    omega
  obtain ⟨k, hk⟩ : ∃ k, width - 24 = k + 1 := ⟨width - 25, by omega⟩
  have hodd : Nat.Coprime (2 ^ 32) (2 ^ (k + 1) - 1) := by
    apply Nat.Coprime.pow_left
    rw [Nat.coprime_two_left, Nat.odd_iff, pow_succ]
    have : 0 < 2 ^ k := by positivity
    omega
  have hdvd : 2 ^ 32 ∣ x.toNat * (2 ^ (k + 1) - 1) := by
    rw [heq, hk] at hshift
    have hdiv := Nat.div_add_mod (x.toNat * 2 ^ (k + 1)) (2 ^ 32)
    rw [← hshift] at hdiv
    refine ⟨x.toNat * 2 ^ (k + 1) / 2 ^ 32, ?_⟩
    rw [Nat.mul_sub, Nat.mul_one]
    omega
  have hle := Nat.le_of_dvd hpos (hodd.dvd_of_dvd_mul_right hdvd)
  omega

end unit

/-! ## The widths that work -/

/-- At 25 fractional bits one half comes back as `2^125`. -/
theorem half_lost_at_25 : value 0x3f000000#32 = some (1 / 2) ∧ ¬RoundTrips 25 0x3f000000#32 (1 / 2) := by
  have hx : value 0x3f000000#32 = some (1 / 2) :=
    value_normal (e := 126) (f := 0) rfl (by decide) (by decide) (by norm_num) (by norm_num)
      (by norm_num)
  refine ⟨hx, fun h => ?_⟩
  have hresult : result 25 0x3f000000#32 = 0x7e000000#32 := by decide
  have heq := value_inj (h.2.2 (by norm_num)) hx (by norm_num)
  rw [hresult] at heq
  exact absurd heq (by decide)

/-- The pair truncates to its width up to 24 fractional bits and at no wider format. -/
theorem round_trip_iff (width : ℕ) (h2 : 2 ≤ width) (h126 : width ≤ 126) (x : Word) (q : ℚ)
    (hx : value x = some q) (hlo : 1 / 2 ≤ q) (hhi : q ≤ 1) : RoundTrips width x q ↔ width ≤ 24 := by
  constructor
  · intro h
    by_contra hwide
    exact result_wide_ne hx hlo hhi (by omega) h126
      (value_inj (h.2.2 (by omega)) hx (by linarith))
  · intro h24
    have hv := value_result hx hlo hhi h2 h24
    refine ⟨sign_of_pos hv (truncated_pos hlo h2), hv, fun hge => ?_⟩
    rw [hv, truncated_wide hx hlo hhi hge]

theorem round_trip_iff_at_one : RoundTrips 22 0x3f800000#32 1 :=
  (round_trip_iff 22 (by norm_num) (by norm_num) 0x3f800000#32 1 value_one (by norm_num) le_rfl).mpr
    (by norm_num)

end DsdCordic.RoundTrip
