import DsdCordic.Cordic.Unpacker
import DsdCordic.Foundations.TwosComplement

/-! Subtraction of 128 and division by 128. The unpacked word has 23 fractional bits, so adding
`-2^30` subtracts 128; the logical shift leaves the quotient in the low 25 bits, and the slice takes
of these as many as the angle has. -/
namespace DsdCordic.Sdiv
open Binary32 Unpacker TwosComplement
set_option autoImplicit false

def fullAngle (data : Word) : Word := (data + 0xC0000000#32) >>> 7

def sdiv (fractionalBits : ℕ) (data : Word) : BitVec (fractionalBits + 2) :=
  ((fullAngle data).extractLsb 24 (fbitsMantissa fractionalBits) ++
    0#(zeros fractionalBits)).setWidth (fractionalBits + 2)

theorem fullAngle_toNat (data : Word) :
    (fullAngle data).toNat % 2 ^ 25 = (data.toNat / 2 ^ 7 + 3 * 2 ^ 23) % 2 ^ 25 := by
  rw [fullAngle, BitVec.toNat_ushiftRight, Nat.shiftRight_eq_div_pow, BitVec.toNat_add]
  simp only [BitVec.toNat_ofNat]
  omega

theorem sdiv_toNat (fractionalBits : ℕ) (hF : fractionalBits ≤ 23) (data : Word) :
    (sdiv fractionalBits data).toNat =
      (data.toNat / 2 ^ 7 / 2 ^ (23 - fractionalBits) + 3 * 2 ^ fractionalBits) %
        2 ^ (fractionalBits + 2) := by
  have hz : zeros fractionalBits = 0 := by unfold zeros; omega
  have hw : 24 - (23 - fractionalBits) + 1 = fractionalBits + 2 := by omega
  have hp : 2 ^ (23 - fractionalBits) * 2 ^ (fractionalBits + 2) = 2 ^ 25 := by
    rw [← pow_add]
    congr 1
    omega
  have hq : 3 * 2 ^ 23 = 2 ^ (23 - fractionalBits) * (3 * 2 ^ fractionalBits) := by
    rw [Nat.mul_left_comm, ← pow_add]
    congr 2
    omega
  rw [sdiv, BitVec.toNat_setWidth, toNat_append, hz, BitVec.extractLsb, BitVec.extractLsb'_toNat,
    fbitsMantissa, hw, Nat.shiftRight_eq_div_pow, ← Nat.mod_mul_right_div_self, hp, fullAngle_toNat,
    ← hp, Nat.mod_mul_right_div_self, hq, Nat.add_mul_div_left _ _ (by positivity)]
  simp

/-- With no more fractional bits than the unpacked word has, the angle is the floor of a shift. -/
theorem sdiv_toInt (fractionalBits : ℕ) (hF : fractionalBits ≤ 23) (data : Word)
    (h : data.toNat < 2 ^ 31) :
    (sdiv fractionalBits data).toInt =
      ((data.toNat / 2 ^ 7 / 2 ^ (23 - fractionalBits) : ℕ) : ℤ) - 2 ^ fractionalBits := by
  have hp : 2 ^ (23 - fractionalBits) * 2 ^ fractionalBits = 2 ^ 23 := by
    rw [← pow_add]
    congr 1
    omega
  have hlt : data.toNat / 2 ^ 7 / 2 ^ (23 - fractionalBits) < 2 * 2 ^ fractionalBits := by
    rw [Nat.div_lt_iff_lt_mul (by positivity), Nat.mul_assoc, Nat.mul_comm (2 ^ fractionalBits), hp]
    omega
  have hm : (2 : ℤ) ^ fractionalBits = ((2 ^ fractionalBits : ℕ) : ℤ) := by push_cast; rfl
  have hmod : 2 ^ (fractionalBits + 2) = 4 * 2 ^ fractionalBits := by rw [pow_add]; ring
  have hn := sdiv_toNat fractionalBits hF data
  rw [hmod] at hn
  rw [hm]
  generalize data.toNat / 2 ^ 7 / 2 ^ (23 - fractionalBits) = t at hlt hn ⊢
  generalize 2 ^ fractionalBits = m at hlt hn hmod ⊢
  apply toInt_of_emod
  · unfold Fits
    rw [hmod]
    omega
  · have hshift : ((t + 3 * m : ℕ) : ℤ) = ((t : ℤ) - m) + ((4 * m : ℕ) : ℤ) := by push_cast; ring
    rw [hmod, hn, Int.natCast_mod, Int.emod_emod, hshift, Int.add_emod_right]

/-- With more fractional bits than the unpacked word has, zeros follow the 25 bits of the quotient. -/
theorem sdiv_toInt_wide (fractionalBits : ℕ) (hF : 23 ≤ fractionalBits) (data : Word)
    (h : data.toNat < 2 ^ 31) :
    (sdiv fractionalBits data).toInt =
      (((data.toNat / 2 ^ 7 : ℕ) : ℤ) - 2 ^ 23) * 2 ^ (fractionalBits - 23) := by
  have hb : fbitsMantissa fractionalBits = 0 := by unfold fbitsMantissa; omega
  have hwidth : fractionalBits + 2 = 24 - fbitsMantissa fractionalBits + 1 + zeros fractionalBits := by
    unfold fbitsMantissa zeros
    omega
  have hslice : ((fullAngle data).extractLsb 24 (fbitsMantissa fractionalBits)).toInt =
      ((data.toNat / 2 ^ 7 : ℕ) : ℤ) - 2 ^ 23 := by
    apply toInt_of_emod
    · rw [hb]
      unfold Fits
      omega
    · rw [BitVec.extractLsb, BitVec.extractLsb'_toNat, hb, Nat.shiftRight_zero, Nat.sub_zero,
        fullAngle_toNat]
      omega
  rw [sdiv, BitVec.toInt_setWidth, hwidth, ← BitVec.toInt_eq_toNat_bmod, BitVec.toInt_append_zero,
    hslice, zeros, mul_comm]

/-- The angle that `cosine` feeds its engines: `sdiv #(.FRACTIONAL_BITS(WIDTH))` after `unpacker`. -/
def fixedFractionalAngle (width : ℕ) (angle : Word) : BitVec (width + 2) :=
  sdiv width (unpackerDefault angle)

/-- For every pattern with `0 ≤ x < 256` the angle is `(x - 128) / 128` rounded down. -/
theorem fixedFractionalAngle_floor (width : ℕ) (hw : width ≤ 23) {x : Word} {q : ℚ}
    (hx : value x = some q) (h0 : 0 ≤ q) (h256 : q < 256) :
    (fixedFractionalAngle width x).toInt = ⌊(q - 128) * 2 ^ ((width : ℤ) - 7)⌋ := by
  obtain ⟨hlt, hfloor⟩ := unpacker_floor hx h0 h256
  have h2 : (2 : ℚ) ≠ 0 := by norm_num
  have hpow : (2 : ℚ) ^ ((width : ℤ) - 7) = 2 ^ 16 / (2 ^ (23 - width) : ℕ) := by
    rw [eq_div_iff (by positivity)]
    push_cast
    rw [← zpow_natCast, ← zpow_natCast, ← zpow_add₀ h2, Nat.cast_sub hw]
    congr 1
    push_cast
    ring
  have hone : (128 : ℚ) * 2 ^ ((width : ℤ) - 7) = ((2 ^ width : ℤ) : ℚ) := by
    have h7 : (128 : ℚ) = 2 ^ (7 : ℤ) := by norm_num
    rw [h7, ← zpow_add₀ h2, add_sub_cancel, zpow_natCast]
    push_cast
    rfl
  rw [fixedFractionalAngle, sdiv_toInt width hw _ hlt, sub_mul, hone, Int.floor_sub_intCast, hpow,
    ← mul_div_assoc, Int.floor_div_natCast, ← hfloor]
  push_cast
  rfl

/-- The front end at any width: the angle is `(x - 128) / 128` rounded down to as many of its bits as
the unpacked word has. -/
theorem front_end_floor (width : ℕ) (x : Word) (q : ℚ) (hx : value x = some q) (h0 : 0 ≤ q)
    (h256 : q < 256) :
    (sdiv width (unpackerDefault x)).toInt =
      if width ≤ 23 then ⌊(q - 128) * 2 ^ ((width : ℤ) - 7)⌋
      else ⌊(q - 128) * 2 ^ 16⌋ * 2 ^ (width - 23) := by
  split
  · next hw => exact fixedFractionalAngle_floor width hw hx h0 h256
  · next hw =>
    obtain ⟨hlt, hfloor⟩ := unpacker_floor hx h0 h256
    have hone : (128 : ℚ) * 2 ^ 16 = ((2 ^ 23 : ℤ) : ℚ) := by norm_num
    rw [sdiv_toInt_wide width (by omega) _ hlt, hfloor, sub_mul q, hone, Int.floor_sub_intCast]

theorem front_end_floor_at_one : (sdiv 30 (unpackerDefault 0x3f800000#32)).toInt =
    ⌊((1 : ℚ) - 128) * 2 ^ 16⌋ * 2 ^ (30 - 23) :=
  front_end_floor 30 0x3f800000#32 1 value_one (by norm_num) (by norm_num)

end DsdCordic.Sdiv
