import DsdCordic.Foundations.Binary32
import Mathlib.Tactic.LinearCombination

/-! The fixed-to-float packer. The exponent is 127 or 126 by the bit of weight one alone, so the
result is a float of the right value only between one half and one. -/
namespace DsdCordic.Packer
open Binary32
set_option autoImplicit false

def extension (width : ℕ) : ℕ := 24 - width

/-- The mantissa operand is as wide as the wider branch of its conditional; a concatenation of more
than 32 bits loses the upper ones when it is assigned. -/
def packer (width : ℕ) (result : BitVec (width + 2)) : Word :=
  let mantissaWidth := max 23 (width - 1 + extension width)
  let mantissa : BitVec mantissaWidth := if result.getLsbD width then 0#(mantissaWidth)
    else (result.extractLsb' 0 (width - 1) ++ 0#(extension width)).setWidth mantissaWidth
  (BitVec.ofBool (result.getLsbD (width + 1)) ++
    (if result.getLsbD width then 127#8 else 126#8) ++ mantissa).setWidth 32

/-- Up to 24 fractional bits the mantissa has 23 bits and the fields are where they belong. -/
theorem packer_eq_pack (width : ℕ) (h2 : 2 ≤ width) (h24 : width ≤ 24) (result : BitVec (width + 2)) :
    packer width result = pack (result.getLsbD (width + 1))
      (if result.getLsbD width then 127#8 else 126#8)
      (if result.getLsbD width then 0#23
        else (result.extractLsb' 0 (width - 1) ++ 0#(extension width)).setWidth 23) := by
  have hm : max 23 (width - 1 + extension width) = 23 := by unfold extension; omega
  apply BitVec.eq_of_toNat_eq
  unfold packer pack
  rw [BitVec.toNat_setWidth, toNat_append, toNat_append, toNat_append, toNat_append, hm]
  cases result.getLsbD width with
  | true =>
    simp only [if_true, BitVec.toNat_ofNat]
    have hb := (BitVec.ofBool (result.getLsbD (width + 1))).isLt
    omega
  | false =>
    simp only [Bool.false_eq_true, if_false, BitVec.toNat_ofNat, BitVec.toNat_setWidth]
    have hb := (BitVec.ofBool (result.getLsbD (width + 1))).isLt
    omega

theorem getLsbD_eq_decide {n : ℕ} (v : BitVec n) (k : ℕ) :
    v.getLsbD k = decide (v.toNat / 2 ^ k % 2 = 1) := Nat.testBit_eq_decide_div_mod_eq

/-- Between one half and one the packed float is the fixed-point value itself. -/
theorem packer_value_below_one (width : ℕ) (h2 : 2 ≤ width) (h24 : width ≤ 24)
    (result : BitVec (width + 2)) (hlo : 2 ^ (width - 1) ≤ result.toNat)
    (hhi : result.toNat < 2 ^ width) :
    value (packer width result) = some ((result.toNat : ℚ) / 2 ^ width) := by
  have hbit : result.getLsbD width = false := by
    rw [getLsbD_eq_decide, Nat.div_eq_of_lt hhi]
    rfl
  have hsign : result.getLsbD (width + 1) = false := by
    have : result.toNat < 2 ^ (width + 1) := lt_of_lt_of_le hhi (Nat.pow_le_pow_right (by norm_num) (by omega))
    rw [getLsbD_eq_decide, Nat.div_eq_of_lt this]
    rfl
  have hdouble : 2 ^ width = 2 ^ (width - 1) * 2 := by
    rw [← pow_succ]
    congr 1
    omega
  have hmod : result.toNat % 2 ^ (width - 1) = result.toNat - 2 ^ (width - 1) := by
    rw [Nat.mod_eq_sub_mod hlo, Nat.mod_eq_of_lt (by omega)]
  have hpow : 2 ^ (width - 1) * 2 ^ (24 - width) = 2 ^ 23 := by
    rw [← pow_add]
    congr 1
    omega
  have hlt : (result.toNat - 2 ^ (width - 1)) * 2 ^ (24 - width) < 2 ^ 23 := by
    rw [← hpow]
    exact Nat.mul_lt_mul_of_pos_right (by omega) (by positivity)
  rw [packer_eq_pack width h2 h24, hbit, hsign]
  simp only [Bool.false_eq_true, if_false]
  obtain ⟨hs, he, hf⟩ := pack_fields false 126#8
    ((result.extractLsb' 0 (width - 1) ++ 0#(extension width)).setWidth 23)
  have hfrac : ((result.extractLsb' 0 (width - 1) ++ 0#(extension width)).setWidth 23).toNat =
      (result.toNat - 2 ^ (width - 1)) * 2 ^ (24 - width) := by
    rw [BitVec.toNat_setWidth, toNat_append, BitVec.extractLsb'_toNat, Nat.shiftRight_zero, hmod]
    simp only [extension, BitVec.toNat_ofNat, Nat.zero_mod, Nat.add_zero]
    exact Nat.mod_eq_of_lt hlt
  rw [hfrac] at hf
  have hsum : (2 : ℚ) ^ 23 + ((result.toNat - 2 ^ (width - 1)) * 2 ^ (24 - width) : ℕ) =
      result.toNat * 2 ^ (24 - width) := by
    rw [Nat.cast_mul, Nat.cast_sub hlo]
    have hpow' : (2 : ℚ) ^ (width - 1) * 2 ^ (24 - width) = 2 ^ 23 := by exact_mod_cast hpow
    push_cast
    linear_combination -hpow'
  have hscale : (2 : ℚ) ^ (24 - width) * 2 ^ (-24 : ℤ) = (2 ^ width)⁻¹ := by
    have h24' : (2 : ℚ) ^ (24 - width) * 2 ^ width = 2 ^ 24 := by
      rw [← pow_add, Nat.sub_add_cancel h24]
    apply eq_inv_of_mul_eq_one_left
    rw [mul_right_comm, h24']
    norm_num
  have hE : (126#8).toNat = 126 := rfl
  have hexp : ((126 : ℕ) : ℤ) - 150 = -24 := by norm_num
  rw [value, magnitude, hs, he, hf, hE, if_neg (by norm_num), if_neg (by norm_num),
    if_neg (by norm_num), hsum, hexp, mul_assoc, hscale, div_eq_mul_inv]

/-- From one up the packed float is one, whatever the lower bits are. -/
theorem packer_value_one (width : ℕ) (h2 : 2 ≤ width) (h24 : width ≤ 24)
    (result : BitVec (width + 2)) (hlo : 2 ^ width ≤ result.toNat)
    (hhi : result.toNat < 2 ^ (width + 1)) : value (packer width result) = some 1 := by
  have hbit : result.getLsbD width = true := by
    have : result.toNat / 2 ^ width = 1 := Nat.div_eq_of_lt_le (by omega) (by rw [pow_succ] at hhi; omega)
    rw [getLsbD_eq_decide, this]
    rfl
  have hsign : result.getLsbD (width + 1) = false := by
    rw [getLsbD_eq_decide, Nat.div_eq_of_lt hhi]
    rfl
  rw [packer_eq_pack width h2 h24, hbit, hsign]
  obtain ⟨hs, he, hf⟩ := pack_fields false 127#8 0#23
  simp only [if_true, value, magnitude, hs, he, hf]
  norm_num

/-- From 25 fractional bits on nothing cuts the mantissa, and it pushes the other fields up. -/
theorem packer_wide (width : ℕ) (h24 : 24 < width) (result : BitVec (width + 2)) :
    (packer width result).toNat =
      (((result.getLsbD (width + 1)).toNat * 2 ^ 8 + if result.getLsbD width then 127 else 126) *
          2 ^ (width - 1) +
        if result.getLsbD width then 0 else result.toNat % 2 ^ (width - 1)) % 2 ^ 32 := by
  have he : extension width = 0 := by unfold extension; omega
  have hm : max 23 (width - 1 + extension width) = width - 1 := by omega
  have hmod : ∀ n, n % 2 ^ (width - 1) % 2 ^ (width - 1) = n % 2 ^ (width - 1) :=
    fun n => Nat.mod_mod _ _
  unfold packer
  rw [BitVec.toNat_setWidth, toNat_append, toNat_append, BitVec.toNat_ofBool, hm]
  cases result.getLsbD width with
  | true => simp
  | false =>
    simp only [Bool.false_eq_true, if_false, BitVec.toNat_setWidth, toNat_append, he,
      BitVec.extractLsb'_toNat, Nat.shiftRight_zero, BitVec.toNat_ofNat, pow_zero, Nat.mul_one,
      Nat.zero_mod, Nat.add_zero, hmod]

end DsdCordic.Packer
