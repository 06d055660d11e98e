import Mathlib.Algebra.Order.Field.Rat
import Mathlib.Algebra.Order.Field.Power
import Mathlib.Algebra.Order.Floor.Ring
import Mathlib.Data.Rat.Floor
import Mathlib.Tactic.Linarith
import Mathlib.Tactic.Positivity
import Mathlib.Tactic.NormNum

/-! Single-precision bit patterns and the rational numbers they stand for. Infinities and NaNs
have no value; the two zeros have the value 0. -/
namespace DsdCordic.Binary32
set_option autoImplicit false

abbrev Word : Type := BitVec 32

def sign (x : Word) : Bool := x.getLsbD 31

def exponent (x : Word) : ℕ := (x.extractLsb' 23 8).toNat

def fraction (x : Word) : ℕ := (x.extractLsb' 0 23).toNat

/-- The magnitude of a finite pattern: subnormal when the exponent field is zero. -/
def magnitude (x : Word) : ℚ :=
  if exponent x = 0 then fraction x * 2 ^ (-149 : ℤ)
  else (2 ^ 23 + fraction x) * 2 ^ ((exponent x : ℤ) - 150)

def value (x : Word) : Option ℚ :=
  if exponent x = 255 then none
  else some (if sign x then -magnitude x else magnitude x)

theorem exponent_lt (x : Word) : exponent x < 256 := (x.extractLsb' 23 8).isLt

theorem fraction_lt (x : Word) : fraction x < 2 ^ 23 := (x.extractLsb' 0 23).isLt

theorem toNat_fields (x : Word) :
    x.toNat = (sign x).toNat * 2 ^ 31 + exponent x * 2 ^ 23 + fraction x := by
  have hs : (sign x).toNat = x.toNat / 2 ^ 31 := by
    have hx := x.isLt
    rw [sign, BitVec.getLsbD, Nat.testBit_eq_decide_div_mod_eq]
    by_cases h : x.toNat / 2 ^ 31 % 2 = 1
    · simp only [h, decide_true, Bool.toNat_true]; omega
    · simp only [h, decide_false, Bool.toNat_false]; omega
  have he : exponent x = x.toNat / 2 ^ 23 % 2 ^ 8 := by
    simp [exponent, BitVec.extractLsb'_toNat, Nat.shiftRight_eq_div_pow]
  have hf : fraction x = x.toNat % 2 ^ 23 := by
    simp [fraction, BitVec.extractLsb'_toNat]
  omega

theorem eq_zero_iff (x : Word) :
    x = 0#32 ↔ sign x = false ∧ exponent x = 0 ∧ fraction x = 0 := by
  constructor
  · rintro rfl
    decide
  · rintro ⟨hs, he, hf⟩
    apply BitVec.eq_of_toNat_eq
    rw [toNat_fields, hs, he, hf]
    rfl

theorem magnitude_nonneg (x : Word) : 0 ≤ magnitude x := by
  unfold magnitude
  split <;> positivity

theorem magnitude_eq_zero (x : Word) (h : magnitude x = 0) : exponent x = 0 ∧ fraction x = 0 := by
  unfold magnitude at h
  split at h
  · next he =>
    refine ⟨he, ?_⟩
    have h2 : (2 : ℚ) ^ (-149 : ℤ) ≠ 0 := by positivity
    exact_mod_cast (mul_eq_zero.mp h).resolve_right h2
  · next he =>
    have hp : (0 : ℚ) < (2 ^ 23 + fraction x) * 2 ^ ((exponent x : ℤ) - 150) := by positivity
    exact absurd h hp.ne'

theorem value_normal {x : Word} {e f : ℕ} {q : ℚ} (hs : sign x = false) (he : exponent x = e)
    (hf : fraction x = f) (h0 : e ≠ 0) (h255 : e ≠ 255)
    (hq : (2 ^ 23 + f) * 2 ^ ((e : ℤ) - 150) = q) : value x = some q := by
  rw [value, magnitude, hs, he, hf, if_neg h255, if_neg h0, hq]
  rfl

theorem value_one : value 0x3f800000#32 = some 1 :=
  value_normal rfl (by decide : exponent 0x3f800000#32 = 127) (by decide : fraction 0x3f800000#32 = 0)
    (by norm_num) (by norm_num) (by norm_num)

theorem value_zero : value 0#32 = some 0 := by
  have hm : magnitude 0#32 = 0 := by simp [magnitude, exponent, fraction]
  rw [value, if_neg (by decide), hm, neg_zero, ite_self]

/-- A pattern whose value is not negative is positive or one of the two zeros. -/
theorem value_nonneg {x : Word} {q : ℚ} (hx : value x = some q) (hq : 0 ≤ q) :
    magnitude x = q ∧ (sign x = true → exponent x = 0 ∧ fraction x = 0) := by
  unfold value at hx
  split at hx
  · cases hx
  · cases hs : sign x with
    | false =>
      simp only [hs, Bool.false_eq_true, if_false, Option.some.injEq] at hx
      exact ⟨hx, fun h => absurd h (by simp)⟩
    | true =>
      simp only [hs, if_true, Option.some.injEq] at hx
      have hm : magnitude x = 0 := le_antisymm (by linarith) (magnitude_nonneg x)
      exact ⟨by rw [← hx, hm, neg_zero], fun _ => magnitude_eq_zero x hm⟩

/-- A normal pattern below a power of two has an exponent field below that power's. -/
theorem exponent_le_of_lt {x : Word} {n : ℕ} (h : magnitude x < 2 ^ ((n : ℤ) - 126)) :
    exponent x ≤ n := by
  by_contra hc
  have he : exponent x ≠ 0 := by omega
  rw [magnitude, if_neg he] at h
  have hpow : (2 : ℚ) ^ ((n : ℤ) - 126) ≤ 2 ^ 23 * 2 ^ ((exponent x : ℤ) - 150) := by
    rw [← zpow_natCast (2 : ℚ) 23, ← zpow_add₀ (by norm_num : (2 : ℚ) ≠ 0)]
    exact zpow_le_zpow_right₀ (by norm_num) (by push_cast; omega)
  have hmul : (2 : ℚ) ^ 23 * 2 ^ ((exponent x : ℤ) - 150) ≤
      (2 ^ 23 + fraction x) * 2 ^ ((exponent x : ℤ) - 150) := by
    apply mul_le_mul_of_nonneg_right _ (by positivity)
    linarith [(Nat.cast_nonneg (fraction x) : (0 : ℚ) ≤ fraction x)]
  linarith

theorem magnitude_lt {x : Word} {n : ℕ} (h : exponent x ≤ n) : magnitude x < 2 ^ ((n : ℤ) - 126) := by
  have hf : (fraction x : ℚ) < 2 ^ 23 := by exact_mod_cast fraction_lt x
  unfold magnitude
  split
  · have hmul : (fraction x : ℚ) * 2 ^ (-149 : ℤ) < 2 ^ 23 * 2 ^ (-149 : ℤ) :=
      mul_lt_mul_of_pos_right hf (by positivity)
    have hpow : (2 : ℚ) ^ 23 * 2 ^ (-149 : ℤ) ≤ 2 ^ ((n : ℤ) - 126) := by
      rw [← zpow_natCast (2 : ℚ) 23, ← zpow_add₀ (by norm_num : (2 : ℚ) ≠ 0)]
      exact zpow_le_zpow_right₀ (by norm_num) (by push_cast; omega)
    linarith
  · have hmul : (2 ^ 23 + (fraction x : ℚ)) * 2 ^ ((exponent x : ℤ) - 150) <
        2 ^ 24 * 2 ^ ((exponent x : ℤ) - 150) :=
      mul_lt_mul_of_pos_right (by linarith) (by positivity)
    have hpow : (2 : ℚ) ^ 24 * 2 ^ ((exponent x : ℤ) - 150) ≤ 2 ^ ((n : ℤ) - 126) := by
      rw [← zpow_natCast (2 : ℚ) 24, ← zpow_add₀ (by norm_num : (2 : ℚ) ≠ 0)]
      exact zpow_le_zpow_right₀ (by norm_num) (by push_cast; omega)
    linarith

/-! ## Values as bit patterns -/

theorem sign_of_pos {x : Word} {q : ℚ} (hx : value x = some q) (hq : 0 < q) : sign x = false := by
  obtain ⟨hmag, hzero⟩ := value_nonneg hx hq.le
  rw [Bool.eq_false_iff]
  intro hs
  obtain ⟨he, hf⟩ := hzero hs
  rw [magnitude, he, hf] at hmag
  norm_num at hmag
  exact hq.ne hmag

/-- Two patterns of one magnitude have the same exponent and the same fraction. -/
theorem magnitude_inj {x y : Word} (h : magnitude x = magnitude y) :
    exponent x = exponent y ∧ fraction x = fraction y := by
  have he : exponent x = exponent y :=
    le_antisymm (exponent_le_of_lt (h ▸ magnitude_lt le_rfl))
      (exponent_le_of_lt (h.symm ▸ magnitude_lt le_rfl))
  refine ⟨he, ?_⟩
  rw [magnitude, magnitude, he] at h
  split at h
  · have hpos : (2 : ℚ) ^ (-149 : ℤ) ≠ 0 := by positivity
    exact_mod_cast mul_right_cancel₀ hpos h
  · have hpos : (2 : ℚ) ^ ((exponent y : ℤ) - 150) ≠ 0 := by positivity
    exact_mod_cast add_left_cancel (mul_right_cancel₀ hpos h)

theorem value_inj {x y : Word} {q : ℚ} (hx : value x = some q) (hy : value y = some q) (hq : 0 < q) :
    x = y := by
  have hmag := (value_nonneg hx hq.le).1.trans (value_nonneg hy hq.le).1.symm
  obtain ⟨he, hf⟩ := magnitude_inj hmag
  apply BitVec.eq_of_toNat_eq
  rw [toNat_fields, toNat_fields, sign_of_pos hx hq, sign_of_pos hy hq, he, hf]

/-! ## Scaled values rounded down -/

theorem nat_floor_div (a k : ℕ) : ⌊(a : ℚ) * 2 ^ (-(k : ℤ))⌋ = ((a / 2 ^ k : ℕ) : ℤ) := by
  have h := Rat.floor_natCast_div_natCast a (2 ^ k)
  rw [zpow_neg, zpow_natCast, ← div_eq_mul_inv]
  push_cast at h ⊢
  exact h

/-- A normal value as its mantissa, scaled. -/
theorem value_scaled {x : Word} {q : ℚ} (hx : value x = some q) (h0 : 0 ≤ q) (he : exponent x ≠ 0)
    (k : ℕ) :
    q * 2 ^ k = ((2 ^ 23 + fraction x : ℕ) : ℚ) * 2 ^ ((exponent x : ℤ) + k - 150) := by
  rw [← (value_nonneg hx h0).1, magnitude, if_neg he, mul_assoc, ← zpow_natCast (2 : ℚ) k,
    ← zpow_add₀ (by norm_num : (2 : ℚ) ≠ 0)]
  push_cast
  congr 2
  ring

/-- Below two, rounding down is two truncating shifts of the mantissa: to the scale and by the
exponent. -/
theorem floor_scaled {x : Word} {q : ℚ} (hx : value x = some q) (h0 : 0 ≤ q) (he : exponent x ≠ 0)
    (he' : exponent x ≤ 127) (k : ℕ) :
    ⌊q * 2 ^ k⌋ =
      (((2 ^ 23 + fraction x) * 2 ^ k / 2 ^ 23 / 2 ^ (127 - exponent x) : ℕ) : ℤ) := by
  have hexp : (exponent x : ℤ) + k - 150 = (k : ℤ) + -((23 + (127 - exponent x) : ℕ) : ℤ) := by
    rw [Nat.cast_add, Nat.cast_sub he']
    push_cast
    ring
  rw [value_scaled hx h0 he, hexp, zpow_add₀ (by norm_num), zpow_natCast, ← mul_assoc,
    Nat.div_div_eq_div_mul, ← pow_add, ← nat_floor_div]
  push_cast
  rfl

/-- The exponent field tells whether a value reaches the unit of the scale. -/
theorem unit_le_iff {x : Word} {q : ℚ} (hx : value x = some q) (h0 : 0 ≤ q) {k : ℕ} (hk : k ≤ 126) :
    2 ^ (-(k : ℤ)) ≤ q ↔ 127 ≤ exponent x + k := by
  have hexp : ((126 - k : ℕ) : ℤ) - 126 = -(k : ℤ) := by omega
  have hmag := (value_nonneg hx h0).1
  constructor
  · intro hle
    by_contra h
    have hlt := magnitude_lt (x := x) (n := 126 - k) (by omega)
    rw [hmag, hexp] at hlt
    exact hle.not_gt hlt
  · intro h
    by_contra hlt
    rw [not_le, ← hexp, ← hmag] at hlt
    have := exponent_le_of_lt hlt
    omega

/-- A value below the unit of the scale is rounded down to nothing. -/
theorem floor_scaled_zero {x : Word} {q : ℚ} (hx : value x = some q) (h0 : 0 ≤ q) {k : ℕ}
    (h : exponent x + k < 127) : ⌊q * 2 ^ k⌋ = 0 := by
  have hlt : q < 2 ^ (-(k : ℤ)) := by
    rw [← not_le, unit_le_iff hx h0 (by omega)]
    omega
  rw [Int.floor_eq_zero_iff]
  refine ⟨by positivity, ?_⟩
  calc q * 2 ^ k < 2 ^ (-(k : ℤ)) * 2 ^ k := mul_lt_mul_of_pos_right hlt (by positivity)
    _ = 1 := by rw [zpow_neg, zpow_natCast, inv_mul_cancel₀ (by positivity)]

/-- In the binade of the unit it is rounded down to one. -/
theorem floor_scaled_one {x : Word} {q : ℚ} (hx : value x = some q) (h0 : 0 ≤ q) (he : exponent x ≠ 0)
    {k : ℕ} (h : exponent x + k = 127) : ⌊q * 2 ^ k⌋ = 1 := by
  have hf := fraction_lt x
  have hk : 127 - exponent x = k := by omega
  rw [floor_scaled hx h0 he (by omega), hk, Nat.div_right_comm, Nat.mul_div_cancel _ (by positivity)]
  norm_cast
  omega

/-! ## Packing the three fields -/

theorem toNat_append {m n : ℕ} (a : BitVec m) (b : BitVec n) :
    (a ++ b).toNat = a.toNat * 2 ^ n + b.toNat := by
  rw [BitVec.toNat_append, ← Nat.shiftLeft_add_eq_or_of_lt b.isLt, Nat.shiftLeft_eq]

def pack (s : Bool) (e : BitVec 8) (f : BitVec 23) : Word := BitVec.ofBool s ++ e ++ f

theorem pack_fields (s : Bool) (e : BitVec 8) (f : BitVec 23) :
    sign (pack s e f) = s ∧ exponent (pack s e f) = e.toNat ∧ fraction (pack s e f) = f.toNat := by
  have h : (pack s e f).toNat = s.toNat * 2 ^ 31 + e.toNat * 2 ^ 23 + f.toNat := by
    rw [pack, toNat_append, toNat_append, BitVec.toNat_ofBool]
    omega
  have hf := fraction_lt (pack s e f)
  have he := exponent_lt (pack s e f)
  have hb := f.isLt
  have hc := e.isLt
  rw [toNat_fields] at h
  generalize hs : sign (pack s e f) = t at h ⊢
  cases s <;> cases t <;>
    simp only [Bool.toNat_false, Bool.toNat_true, Bool.false_eq_true, Bool.true_eq_false,
      true_and, false_and] at h ⊢ <;> omega

end DsdCordic.Binary32
