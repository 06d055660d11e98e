import DsdCordic.Foundations.Binary32
import Mathlib.Algebra.Order.Floor.Ring
import Mathlib.Data.Rat.Floor

/-! The float-to-fixed unpacker. The exponent field picks the direction and the amount of one
shift of the mantissa; a small exponent flushes the mantissa out instead. Only the part of the
result that the angle keeps is an exact floor, so that is what is proved here. -/
namespace DsdCordic.Unpacker
open Binary32
set_option autoImplicit false

def zeros (fractionalBits : ℕ) : ℕ := fractionalBits - 23

def fbitsMantissa (fractionalBits : ℕ) : ℕ := 23 - fractionalBits

def concated (fractionalBits integerBits : ℕ) (signed : Bool) (data : Word) :
    BitVec (integerBits + fractionalBits) :=
  (0#(integerBits - 2 + fbitsMantissa fractionalBits) ++ BitVec.ofBool (signed && data.getLsbD 31) ++
    1#1 ++ data.extractLsb 22 (fbitsMantissa fractionalBits) ++
    0#(zeros fractionalBits)).setWidth (integerBits + fractionalBits)

/-- `E > (127 - FRACTIONAL_BITS)` mixes an unsigned field with an integer, so both sides are
compared as unsigned 32-bit words. -/
def shift (fractionalBits : ℕ) (data : Word) : BitVec 8 :=
  let exponentBits := data.extractLsb' 23 8
  let e := -exponentBits + 127#8
  if BitVec.ofInt 32 (127 - fractionalBits) < exponentBits.setWidth 32 then e
  else BitVec.ofNat 8 fractionalBits + 1#8

def unpacker (fractionalBits integerBits : ℕ) (signed : Bool) (data : Word) :
    BitVec (integerBits + fractionalBits) :=
  let shift := shift fractionalBits data
  let rightShift := -shift
  let shiftedValue :=
    if shift.slt 0#8 then concated fractionalBits integerBits signed data <<< rightShift.toNat
    else concated fractionalBits integerBits signed data >>> shift.toNat
  if data = 0#32 then 0#(integerBits + fractionalBits) else shiftedValue

/-- The instance in `cosine`, with every parameter at its default. -/
def unpackerDefault (data : Word) : Word := unpacker 23 9 true data

/-! ## Any precision -/

section precision

variable {fractionalBits : ℕ} (h1 : 1 ≤ fractionalBits) (data : Word)
include h1

theorem slice_toNat :
    (data.extractLsb 22 (fbitsMantissa fractionalBits)).toNat =
      fraction data / 2 ^ (23 - fractionalBits) := by
  have hf : fraction data = data.toNat % 2 ^ 23 := by
    have := fraction_lt data
    rw [toNat_fields]
    omega
  have hsplit : 2 ^ (23 - fractionalBits) * 2 ^ (22 - (23 - fractionalBits) + 1) = 2 ^ 23 := by
    rw [← pow_add]
    congr 1
    omega
  rw [BitVec.extractLsb, BitVec.extractLsb'_toNat, fbitsMantissa, Nat.shiftRight_eq_div_pow,
    ← Nat.mod_mul_right_div_self, hsplit, hf]

/-- The mantissa, with the sign bit above the implicit one, cut or padded to the precision. -/
theorem concated_toNat :
    (concated fractionalBits 9 true data).toNat =
      ((sign data).toNat * 2 ^ 24 + 2 ^ 23 + fraction data) * 2 ^ fractionalBits / 2 ^ 23 := by
  have hs : (BitVec.ofBool (true && data.getLsbD 31)).toNat = (sign data).toNat := by
    rw [Bool.true_and, BitVec.toNat_ofBool]
    rfl
  have hlt : (sign data).toNat < 2 := Bool.toNat_lt _
  have hf := fraction_lt data
  have hfit : ((sign data).toNat * 2 ^ 24 + 2 ^ 23 + fraction data) * 2 ^ fractionalBits / 2 ^ 23 <
      2 ^ (9 + fractionalBits) := by
    rw [Nat.div_lt_iff_lt_mul (by norm_num), pow_add, Nat.mul_right_comm]
    exact Nat.mul_lt_mul_of_pos_right (by omega) (by positivity)
  rw [concated, BitVec.toNat_setWidth]
  simp only [toNat_append, slice_toNat h1, hs, BitVec.toNat_ofNat]
  simp only [fbitsMantissa, zeros]
  rw [← Nat.mod_eq_of_lt hfit]
  congr 1
  by_cases h : fractionalBits ≤ 23
  · -- the slice drops the lower bits of the fraction
    have hwidth : 22 - (23 - fractionalBits) + 1 = fractionalBits := by omega
    have hpow : 2 ^ (23 - fractionalBits) * 2 ^ fractionalBits = 2 ^ 23 := by
      rw [← pow_add, Nat.sub_add_cancel h]
    have hsplit : (sign data).toNat * 2 ^ 24 + 2 ^ 23 + fraction data =
        2 ^ (23 - fractionalBits) * (((sign data).toNat * 2 + 1) * 2 ^ fractionalBits) +
          fraction data := by
      rw [Nat.mul_left_comm, hpow]
      ring
    rw [hwidth, Nat.sub_eq_zero_of_le h, hsplit, ← hpow, Nat.mul_div_mul_right _ _ (by positivity),
      Nat.mul_add_div (by positivity)]
    simp
  · -- the zeros extend the whole fraction
    obtain ⟨k, rfl⟩ : ∃ k, fractionalBits = 23 + k := ⟨fractionalBits - 23, by omega⟩
    have hzero : 23 - (23 + k) = 0 := by omega
    rw [hzero, Nat.add_sub_cancel_left, pow_add 2 23 k, ← Nat.mul_assoc, Nat.mul_right_comm,
      Nat.mul_div_cancel _ (by norm_num)]
    simp
    ring

end precision

theorem slt_zero_iff (v : BitVec 8) : v.slt 0#8 = true ↔ 128 ≤ v.toNat := by
  rw [BitVec.slt_zero_eq_msb, BitVec.msb_eq_decide, decide_eq_true_eq]

section shifts

variable {fractionalBits : ℕ} (h126 : fractionalBits ≤ 126) {data : Word}
include h126

theorem flushes_iff :
    BitVec.ofInt 32 (127 - fractionalBits) < (data.extractLsb' 23 8).setWidth 32 ↔
      127 < exponent data + fractionalBits := by
  have hE : (data.extractLsb' 23 8).toNat = exponent data := rfl
  have hlt := exponent_lt data
  rw [BitVec.lt_def, BitVec.toNat_setWidth, hE, BitVec.toNat_ofInt]
  omega

theorem shift_flush (h : exponent data + fractionalBits ≤ 127) :
    (shift fractionalBits data).toNat = fractionalBits + 1 := by
  rw [shift, if_neg (by rw [flushes_iff h126]; omega), BitVec.toNat_add, BitVec.toNat_ofNat,
    BitVec.toNat_ofNat]
  omega

theorem shift_toNat (h : 127 < exponent data + fractionalBits) :
    (shift fractionalBits data).toNat = (256 - exponent data + 127) % 256 := by
  have hE : (data.extractLsb' 23 8).toNat = exponent data := rfl
  rw [shift, if_pos ((flushes_iff h126).mpr h), BitVec.toNat_add, BitVec.toNat_neg, hE]
  simp

/-- Above the flush threshold the unpacker shifts by `127 - E`, to the left when that is negative. -/
theorem unpacker_shifted (h : 127 < exponent data + fractionalBits) (h' : exponent data ≤ 134) :
    (unpacker fractionalBits 9 true data).toNat =
      if exponent data ≤ 127 then
        (concated fractionalBits 9 true data).toNat / 2 ^ (127 - exponent data)
      else (concated fractionalBits 9 true data).toNat * 2 ^ (exponent data - 127) %
        2 ^ (9 + fractionalBits) := by
  have hd : data ≠ 0#32 := by
    intro h0
    have := ((eq_zero_iff data).mp h0).2.1
    omega
  have hs := shift_toNat h126 h
  have hslt := slt_zero_iff (shift fractionalBits data)
  simp only [unpacker, if_neg hd]
  by_cases hE : exponent data ≤ 127
  · have hamount : (shift fractionalBits data).toNat = 127 - exponent data := by omega
    rw [if_neg (by rw [hslt]; omega), if_pos hE, BitVec.toNat_ushiftRight,
      Nat.shiftRight_eq_div_pow, hamount]
  · have hamount : (-shift fractionalBits data).toNat = exponent data - 127 := by
      rw [BitVec.toNat_neg]
      omega
    rw [if_pos (by rw [hslt]; omega), if_neg hE, BitVec.toNat_shiftLeft, Nat.shiftLeft_eq, hamount]

/-- Below the threshold at most the sign bit survives the flush. -/
theorem unpacker_flushed (h1 : 1 ≤ fractionalBits) (h : exponent data + fractionalBits ≤ 127) :
    (unpacker fractionalBits 9 true data).toNat = if data = 0#32 then 0 else (sign data).toNat := by
  have hf := fraction_lt data
  have hs := shift_flush h126 h
  have hslt : ¬(shift fractionalBits data).slt 0#8 = true := by
    rw [slt_zero_iff]
    omega
  simp only [unpacker, if_neg hslt]
  split
  · simp
  · rw [BitVec.toNat_ushiftRight, Nat.shiftRight_eq_div_pow, hs, concated_toNat h1,
      Nat.div_right_comm, pow_succ 2 fractionalBits, ← Nat.div_div_eq_div_mul,
      Nat.mul_div_cancel _ (by positivity), Nat.div_div_eq_div_mul]
    omega

end shifts

/-! ## Rounding down -/

section values

variable {data : Word} {q : ℚ} (hx : value data = some q) (h0 : 0 ≤ q) (h256 : q < 256)
include hx h0 h256

theorem exponent_le : exponent data ≤ 134 := by
  apply exponent_le_of_lt
  rw [(value_nonneg hx h0).1]
  norm_num
  exact h256

/-- Above the threshold the shift rounds down, when it goes to the right or nothing was cut before. -/
theorem unpacker_exact {fractionalBits : ℕ} (h1 : 1 ≤ fractionalBits) (h126 : fractionalBits ≤ 126)
    (h : 127 < exponent data + fractionalBits) (hcut : exponent data ≤ 127 ∨ 23 ≤ fractionalBits) :
    ((unpacker fractionalBits 9 true data).toNat : ℤ) = ⌊q * 2 ^ fractionalBits⌋ := by
  have hE := exponent_le hx h0 h256
  have he : exponent data ≠ 0 := by omega
  have hf := fraction_lt data
  have hs : sign data = false := by
    by_contra hneg
    exact he ((value_nonneg hx h0).2 (by simpa using hneg)).1
  rw [unpacker_shifted h126 h hE, concated_toNat h1, hs, Bool.toNat_false, Nat.zero_mul, Nat.zero_add]
  by_cases hright : exponent data ≤ 127
  · rw [if_pos hright, floor_scaled hx h0 he hright]
  · obtain ⟨k, rfl⟩ : ∃ k, fractionalBits = 23 + k := ⟨fractionalBits - 23, by omega⟩
    obtain ⟨l, hl⟩ : ∃ l, exponent data = 127 + l := ⟨exponent data - 127, by omega⟩
    have hfit : (2 ^ 23 + fraction data) * 2 ^ k * 2 ^ l < 2 ^ (9 + (23 + k)) := by
      have hpow : 2 ^ l ≤ 2 ^ 7 := Nat.pow_le_pow_right (by norm_num) (by omega)
      calc (2 ^ 23 + fraction data) * 2 ^ k * 2 ^ l
          ≤ (2 ^ 23 + fraction data) * 2 ^ k * 2 ^ 7 := Nat.mul_le_mul_left _ hpow
        _ = (2 ^ 23 + fraction data) * 2 ^ 7 * 2 ^ k := by ring
        _ < 2 ^ 32 * 2 ^ k := Nat.mul_lt_mul_of_pos_right (by omega) (by positivity)
        _ = 2 ^ (9 + (23 + k)) := by rw [← pow_add]; congr 1; omega
    have hexp : ((127 + l : ℕ) : ℤ) + (23 + k : ℕ) - 150 = (k + l : ℕ) := by push_cast; ring
    rw [if_neg hright, pow_add 2 23 k, ← Nat.mul_assoc, Nat.mul_right_comm,
      Nat.mul_div_cancel _ (by norm_num), hl, Nat.add_sub_cancel_left, Nat.mod_eq_of_lt hfit,
      value_scaled hx h0 he, hl, hexp, zpow_natCast, pow_add, ← mul_assoc]
    exact_mod_cast (Int.floor_natCast _).symm

/-- The bits of the unpacked word that the angle keeps: for every pattern with `0 ≤ x < 256`, the
word is below `2^31` and its upper 25 bits are `floor (x * 2^16)`. -/
theorem unpacker_floor :
    (unpackerDefault data).toNat < 2 ^ 31 ∧
      (((unpackerDefault data).toNat / 2 ^ 7 : ℕ) : ℤ) = ⌊q * 2 ^ 16⌋ := by
  by_cases hflush : exponent data + 23 ≤ 127
  · have hb : (sign data).toNat < 2 := Bool.toNat_lt _
    have hu : (unpackerDefault data).toNat ≤ 1 := by
      rw [unpackerDefault, unpacker_flushed (by norm_num) (by norm_num) hflush]
      split <;> omega
    rw [floor_scaled_zero hx h0 (by omega)]
    norm_cast
    omega
  · have hu := unpacker_exact hx h0 h256 (by norm_num : 1 ≤ 23) (by norm_num) (by omega)
      (Or.inr le_rfl)
    have hlt : ⌊q * 2 ^ 23⌋ < 2 ^ 31 := by
      rw [Int.floor_lt]
      push_cast
      linarith
    have hdiv : q * 2 ^ 23 / (2 ^ 7 : ℕ) = q * 2 ^ 16 := by
      push_cast
      ring
    rw [← hu] at hlt
    constructor
    · exact_mod_cast hlt
    · rw [← hdiv, Int.floor_div_natCast, ← hu]
      push_cast
      rfl

end values

/-! ## Where the conversion truncates -/

theorem negative_zero {data : Word} {q : ℚ} (hx : value data = some q) (h0 : 0 ≤ q)
    (hs : sign data = true) : data = 0x80000000#32 := by
  obtain ⟨he, hf⟩ := (value_nonneg hx h0).2 hs
  apply BitVec.eq_of_toNat_eq
  rw [toNat_fields, hs, he, hf]
  rfl

/-- The unit of the precision itself is flushed: the threshold is one exponent too high. -/
theorem unpacker_flushes_unit :
    value 0x34000000#32 = some (2 ^ (-23 : ℤ)) ∧
      ((unpacker 23 9 true 0x34000000#32).toNat : ℤ) ≠ ⌊(2 : ℚ) ^ (-23 : ℤ) * 2 ^ 23⌋ := by
  have hx : value 0x34000000#32 = some (2 ^ (-23 : ℤ)) :=
    value_normal (e := 104) (f := 0) rfl (by decide) (by decide) (by norm_num) (by norm_num)
      (by norm_num)
  have hu : (unpacker 23 9 true 0x34000000#32).toNat = 0 := by decide
  refine ⟨hx, ?_⟩
  rw [hu, floor_scaled_one hx (by positivity) (by decide) (by decide)]
  decide

/-- The conversion truncates at every precision, but for the binade of the unit and for the negative
zero, whose sign bit the flush leaves. -/
theorem unpacker_truncates_iff (fractionalBits : ℕ) (h23 : 23 ≤ fractionalBits)
    (h126 : fractionalBits ≤ 126) (x : Word) (q : ℚ) (hx : value x = some q) (h0 : 0 ≤ q)
    (h256 : q < 256) :
    ((unpacker fractionalBits 9 true x).toNat : ℤ) = ⌊q * 2 ^ fractionalBits⌋ ↔
      exponent x + fractionalBits ≠ 127 ∧ x ≠ 0x80000000#32 := by
  have hneg : exponent (0x80000000#32) = 0 := by decide
  obtain hlt | heq | hgt := lt_trichotomy (exponent x + fractionalBits) 127
  · rw [unpacker_flushed h126 (by omega) hlt.le, floor_scaled_zero hx h0 hlt]
    constructor
    · intro hzero
      refine ⟨hlt.ne, ?_⟩
      rintro rfl
      exact absurd hzero (by decide)
    · intro ⟨_, hx'⟩
      have hs : sign x = false := Bool.eq_false_iff.mpr (fun hs => hx' (negative_zero hx h0 hs))
      rw [hs]
      simp
  · have he : exponent x ≠ 0 := by omega
    have hzero : x ≠ 0#32 := fun h => he ((eq_zero_iff x).mp h).2.1
    have hs : sign x = false := Bool.eq_false_iff.mpr (fun hs => he ((value_nonneg hx h0).2 hs).1)
    rw [unpacker_flushed h126 (by omega) heq.le, if_neg hzero, hs, floor_scaled_one hx h0 he heq]
    simp [heq]
  · rw [unpacker_exact hx h0 h256 (by omega) h126 hgt (Or.inr h23)]
    refine iff_of_true rfl ⟨hgt.ne', ?_⟩
    rintro rfl
    omega

theorem unpacker_truncates_iff_at_one :
    ((unpacker 23 9 true 0x3f800000#32).toNat : ℤ) = ⌊(1 : ℚ) * 2 ^ 23⌋ :=
  (unpacker_truncates_iff 23 le_rfl (by norm_num) 0x3f800000#32 1 value_one (by norm_num)
    (by norm_num)).mpr ⟨by decide, by decide⟩

end DsdCordic.Unpacker
