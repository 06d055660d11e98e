import DsdCordic.Foundations.Binary32

/-! The generator of the angle table and of the gain limit. The scripts cut a float to a fixed-point
number by shifts of its mantissa, and stop shifting one place too early for numbers below the unit of
the precision: the last entries of a table are one instead of zero. -/
namespace DsdCordic.FloatToFixed
open Binary32
set_option autoImplicit false

/-- `num.view('int32')` is the pattern; `0 == num` compares floats, so it holds of both zeros. -/
def floatToFixed (num : Word) (fracBits : ℤ) (signed : Bool) : ℕ :=
  if value num = some 0 then 0
  else
    let E : ℕ := ((num &&& 0x7F800000#32) >>> 23).toNat
    let mant : ℕ := (num &&& 0x7FFFFF#32).toNat
    let sign : ℕ := ((num &&& 0x80000000#32) >>> 31).toNat
    let e : ℤ := -E + 127
    let shift : ℤ := if E > 127 - fracBits then e else fracBits
    let sign : ℕ := if signed then (if sign ≠ 0 then 0x1000000 else 0x0) else 0x0
    let RshiftAmount : ℤ := if fracBits - 23 ≥ 0 then fracBits - 23 else 0
    let LshiftAmount : ℤ := if -fracBits + 23 ≥ 0 then -fracBits + 23 else 0
    let fullMant : ℕ := sign + 0x800000 + mant
    let concated : ℕ := fullMant <<< RshiftAmount.toNat
    let concated : ℕ := concated >>> LshiftAmount.toNat
    if shift ≥ 0 then concated >>> shift.toNat else concated

/-! ## The three fields -/

theorem mask_toNat (num mask : Word) (k n : ℕ) (hmask : mask.toNat >>> k = 2 ^ n - 1) :
    ((num &&& mask) >>> k).toNat = num.toNat / 2 ^ k % 2 ^ n := by
  rw [BitVec.toNat_ushiftRight, BitVec.toNat_and, Nat.shiftRight_and_distrib, hmask,
    Nat.and_two_pow_sub_one_eq_mod, Nat.shiftRight_eq_div_pow]

theorem exponent_mask (num : Word) : ((num &&& 0x7F800000#32) >>> 23).toNat = exponent num := by
  have hf := fraction_lt num
  have he := exponent_lt num
  have hs : (sign num).toNat < 2 := Bool.toNat_lt _
  rw [mask_toNat num 0x7F800000#32 23 8 rfl, toNat_fields]
  omega

theorem fraction_mask (num : Word) : (num &&& 0x7FFFFF#32).toNat = fraction num := by
  have hf := fraction_lt num
  have hmask := mask_toNat num 0x7FFFFF#32 0 23 rfl
  rw [BitVec.ushiftRight_zero] at hmask
  rw [hmask, toNat_fields]
  omega

theorem sign_mask (num : Word) : ((num &&& 0x80000000#32) >>> 31).toNat = (sign num).toNat := by
  have hf := fraction_lt num
  have he := exponent_lt num
  have hs : (sign num).toNat < 2 := Bool.toNat_lt _
  rw [mask_toNat num 0x80000000#32 31 1 rfl, toNat_fields]
  omega

/-! ## Positive numbers below two -/

/-- One of the two shifts to the precision is by nothing. -/
theorem scale_shifts (a fracBits : ℕ) :
    (a <<< (if (fracBits : ℤ) - 23 ≥ 0 then (fracBits : ℤ) - 23 else 0).toNat) >>>
        (if -(fracBits : ℤ) + 23 ≥ 0 then -(fracBits : ℤ) + 23 else 0).toNat =
      a * 2 ^ fracBits / 2 ^ 23 := by
  have hright : (if (fracBits : ℤ) - 23 ≥ 0 then (fracBits : ℤ) - 23 else 0).toNat =
      fracBits - 23 := by
    split <;> omega
  have hleft : (if -(fracBits : ℤ) + 23 ≥ 0 then -(fracBits : ℤ) + 23 else 0).toNat =
      23 - fracBits := by
    split <;> omega
  rw [hright, hleft, Nat.shiftLeft_eq, Nat.shiftRight_eq_div_pow]
  by_cases h : fracBits ≤ 23
  · have hpow : 2 ^ (23 - fracBits) * 2 ^ fracBits = 2 ^ 23 := by
      rw [← pow_add, Nat.sub_add_cancel h]
    rw [Nat.sub_eq_zero_of_le h, pow_zero, Nat.mul_one, ← hpow,
      Nat.mul_div_mul_right _ _ (by positivity)]
  · have hpow : 2 ^ fracBits = 2 ^ (fracBits - 23) * 2 ^ 23 := by
      rw [← pow_add, Nat.sub_add_cancel (by omega)]
    rw [Nat.sub_eq_zero_of_le (by omega : 23 ≤ fracBits), pow_zero, Nat.div_one, hpow,
      ← Nat.mul_assoc, Nat.mul_div_cancel _ (by norm_num)]

section positive

variable {num : Word} {q : ℚ} (hx : value num = some q) (hq : 0 < q) (signed : Bool)
include hx hq

/-- Two shifts of the mantissa: to the precision, and then by the exponent or, for small numbers, by
the precision again. -/
theorem floatToFixed_eq (fracBits : ℕ) (he : exponent num ≤ 127) :
    floatToFixed num fracBits signed =
      (2 ^ 23 + fraction num) * 2 ^ fracBits / 2 ^ 23 /
        2 ^ (if 127 < exponent num + fracBits then 127 - exponent num else fracBits) := by
  have hzero : ¬value num = some 0 := by
    rw [hx, Option.some.injEq]
    exact hq.ne'
  have hs := sign_of_pos hx hq
  have hfull : (if signed then (if (sign num).toNat ≠ 0 then 0x1000000 else 0x0) else 0x0) +
      0x800000 + fraction num = 2 ^ 23 + fraction num := by
    rw [hs]
    simp
  have hshift : ((if (exponent num : ℤ) > 127 - fracBits then -(exponent num : ℤ) + 127
      else fracBits)).toNat =
        if 127 < exponent num + fracBits then 127 - exponent num else fracBits := by
    split <;> split <;> omega
  have hnonneg : (if (exponent num : ℤ) > 127 - fracBits then -(exponent num : ℤ) + 127
      else fracBits) ≥ 0 := by
    split <;> omega
  simp only [floatToFixed, if_neg hzero, exponent_mask, fraction_mask, sign_mask, hfull, scale_shifts,
    if_pos hnonneg, hshift]
  rw [Nat.shiftRight_eq_div_pow]

/-- The numbers below the unit of the precision come out as one. -/
theorem floatToFixed_small (fracBits : ℕ) (h : exponent num + fracBits < 127) :
    floatToFixed num fracBits signed = 1 := by
  have hf := fraction_lt num
  rw [floatToFixed_eq hx hq signed fracBits (by omega), if_neg (by omega), Nat.div_right_comm,
    Nat.mul_div_cancel _ (by positivity)]
  omega

/-- The others are cut. -/
theorem floatToFixed_floor (fracBits : ℕ) (he : exponent num ≠ 0) (he' : exponent num ≤ 127)
    (h : 127 ≤ exponent num + fracBits) :
    (floatToFixed num fracBits signed : ℤ) = ⌊q * 2 ^ fracBits⌋ := by
  have hshift : (if 127 < exponent num + fracBits then 127 - exponent num else fracBits) =
      127 - exponent num := by
    split <;> omega
  rw [floatToFixed_eq hx hq signed fracBits he', hshift, floor_scaled hx hq.le he he']

end positive

/-! ## Where the conversion truncates -/

/-- Half the unit of 22 fractional bits becomes the unit. -/
theorem floatToFixed_rounds_up :
    value 0x34000000#32 = some (2 ^ (-23 : ℤ)) ∧
      ∀ signed, (floatToFixed 0x34000000#32 22 signed : ℤ) ≠ ⌊(2 : ℚ) ^ (-23 : ℤ) * 2 ^ (22 : ℤ)⌋ := by
  have hx : value 0x34000000#32 = some (2 ^ (-23 : ℤ)) :=
    value_normal (e := 104) (f := 0) rfl (by decide) (by decide) (by norm_num) (by norm_num)
      (by norm_num)
  refine ⟨hx, fun signed => ?_⟩
  have hone := floatToFixed_small hx (by positivity) signed 22 (by decide)
  have hzero := floor_scaled_zero hx (by positivity) (k := 22) (by decide)
  have hpow : (2 : ℚ) ^ (22 : ℤ) = 2 ^ 22 := zpow_ofNat 2 22
  rw [Nat.cast_ofNat] at hone
  rw [hone, hpow, hzero]
  decide

/-- For zero and the normal numbers below two the script truncates exactly from the unit of the
precision on. -/
theorem floatToFixed_truncates_iff (num : Word) (q : ℚ) (fracBits : ℤ) (signed : Bool)
    (h1 : 1 ≤ fracBits) (h126 : fracBits ≤ 126) (hx : value num = some q) (h0 : 0 ≤ q) (h2 : q < 2)
    (hnormal : q = 0 ∨ exponent num ≠ 0) :
    (floatToFixed num fracBits signed : ℤ) = ⌊q * 2 ^ fracBits⌋ ↔ q = 0 ∨ 2 ^ (-fracBits) ≤ q := by
  obtain ⟨k, rfl⟩ : ∃ k : ℕ, fracBits = k := ⟨fracBits.toNat, by omega⟩
  rw [zpow_natCast]
  by_cases hzero : q = 0
  · rw [floatToFixed, hx, if_pos (by rw [hzero]), hzero, zero_mul, Int.floor_zero]
    simp
  · have hq : 0 < q := lt_of_le_of_ne h0 (Ne.symm hzero)
    have he := hnormal.resolve_left hzero
    have he' : exponent num ≤ 127 := by
      apply exponent_le_of_lt
      rw [(value_nonneg hx h0).1]
      norm_num
      exact h2
    rw [unit_le_iff hx h0 (by omega)]
    by_cases h : 127 ≤ exponent num + k
    · exact iff_of_true (floatToFixed_floor hx hq signed k he he' h) (Or.inr h)
    · rw [floatToFixed_small hx hq signed k (by omega), floor_scaled_zero hx h0 (by omega)]
      simp [hzero, h]

theorem floatToFixed_truncates_iff_at_one :
    (floatToFixed 0x3f800000#32 22 true : ℤ) = ⌊(1 : ℚ) * 2 ^ (22 : ℤ)⌋ :=
  (floatToFixed_truncates_iff 0x3f800000#32 1 22 true (by norm_num) (by norm_num) value_one
    (by norm_num) (by norm_num) (Or.inr (by decide))).mpr (Or.inr (by norm_num))

/-- The gain limit of sixteen iterations as `cosine` has it. -/
example : floatToFixed 0x3f1b74ed#32 22 true = 0x26dd3b := by decide +kernel

end DsdCordic.FloatToFixed
