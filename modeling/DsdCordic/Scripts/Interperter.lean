import DsdCordic.Foundations.Binary32
import Mathlib.Data.Nat.Bitwise
import Mathlib.Tactic.FieldSimp

/-! The decoder that prints the results of the tests. It takes the fields of a pattern by masks and
adds up the bits of the mantissa one by one, from the highest down. Subnormal patterns come out as half
of what they are, and a NaN is told from an infinity only if all its bits are set. -/
namespace DsdCordic.Interperter
open Binary32
set_option autoImplicit false

/-- What the conversion returns or raises. With the default lengths no step of its arithmetic rounds. -/
inductive Conversion
  | valueError
  | nan
  | inf (signMult : ℤ)
  | number (q : ℚ)

def mantMult (mantissa mantLen : ℕ) (start : ℚ) : ℚ :=
  (List.range mantLen).reverse.foldl
    (fun mult b => if mantissa &&& 2 ^ b ≠ 0 then mult + 1 / 2 ^ (mantLen - b) else mult) start

def ieee754Conversion (n sgnLen expLen mantLen : ℕ) : Conversion :=
  if n ≥ 2 ^ (sgnLen + expLen + mantLen) then .valueError
  else
    let sign := (n &&& (2 ^ sgnLen - 1) * 2 ^ (expLen + mantLen)) >>> (expLen + mantLen)
    let exponentRaw := (n &&& (2 ^ expLen - 1) * 2 ^ mantLen) >>> mantLen
    let mantissa := n &&& (2 ^ mantLen - 1)
    let signMult : ℤ := if sign = 1 then -1 else 1
    if exponentRaw = 2 ^ expLen - 1 then
      if mantissa = 2 ^ mantLen - 1 then .nan else .inf signMult
    else
      let exponent : ℤ := exponentRaw - (2 ^ (expLen - 1) - 1)
      .number (signMult * 2 ^ exponent * mantMult mantissa mantLen (if exponentRaw = 0 then 0 else 1))

/-! ## The mantissa -/

/-- The bits below place `k`, highest first. -/
theorem mult_below (mantissa mantLen k : ℕ) (hk : k ≤ mantLen) (mult : ℚ) :
    (List.range k).reverse.foldl
        (fun mult b => if mantissa &&& 2 ^ b ≠ 0 then mult + 1 / 2 ^ (mantLen - b) else mult) mult =
      mult + (mantissa % 2 ^ k : ℕ) / 2 ^ mantLen := by
  induction k generalizing mult with
  | zero => simp [Nat.mod_one]
  | succ k ih =>
    have hmod : mantissa % 2 ^ (k + 1) = mantissa % 2 ^ k + 2 ^ k * (mantissa / 2 ^ k % 2) := by
      rw [pow_succ, Nat.mod_mul]
    have hbit : mantissa &&& 2 ^ k ≠ 0 ↔ mantissa / 2 ^ k % 2 = 1 := by
      rw [Nat.and_two_pow, Nat.testBit_eq_decide_div_mod_eq]
      by_cases h : mantissa / 2 ^ k % 2 = 1 <;> simp [h]
    have hpow : (2 : ℚ) ^ mantLen = 2 ^ (mantLen - k) * 2 ^ k := by
      rw [← pow_add, Nat.sub_add_cancel (by omega)]
    rw [List.range_succ, List.reverse_append, List.reverse_singleton, List.singleton_append,
      List.foldl_cons, ih (by omega), hmod]
    by_cases h : mantissa / 2 ^ k % 2 = 1
    · rw [if_pos (hbit.mpr h), h, hpow]
      push_cast
      field_simp
      ring
    · have h0 : mantissa / 2 ^ k % 2 = 0 := by omega
      rw [if_neg (fun hc => h (hbit.mp hc)), h0, mul_zero, add_zero]

theorem mantMult_eq (mantissa mantLen : ℕ) (start : ℚ) :
    mantMult mantissa mantLen start = start + (mantissa % 2 ^ mantLen : ℕ) / 2 ^ mantLen :=
  mult_below mantissa mantLen mantLen le_rfl start

/-! ## The fields -/

theorem field_toNat (n k l : ℕ) : (n &&& (2 ^ l - 1) * 2 ^ k) >>> k = n / 2 ^ k % 2 ^ l := by
  rw [Nat.shiftRight_and_distrib, Nat.shiftRight_eq_div_pow ((2 ^ l - 1) * 2 ^ k),
    Nat.mul_div_cancel _ (by positivity), Nat.and_two_pow_sub_one_eq_mod, Nat.shiftRight_eq_div_pow]

theorem conversion_fields (x : Word) : ieee754Conversion x.toNat 1 8 23 =
    if exponent x = 255 then
      if fraction x = 2 ^ 23 - 1 then .nan else .inf (if sign x then -1 else 1)
    else
      .number ((if sign x then -1 else 1) * 2 ^ ((exponent x : ℤ) - 127) *
        ((if exponent x = 0 then 0 else 1) + fraction x / 2 ^ 23)) := by
  have hx := toNat_fields x
  have hf := fraction_lt x
  have he := exponent_lt x
  have hs : (sign x).toNat < 2 := Bool.toNat_lt _
  have hlt : ¬x.toNat ≥ 2 ^ (1 + 8 + 23) := not_le.mpr x.isLt
  have hsign : (x.toNat &&& (2 ^ 1 - 1) * 2 ^ (8 + 23)) >>> (8 + 23) = (sign x).toNat := by
    rw [field_toNat]
    omega
  have hraw : (x.toNat &&& (2 ^ 8 - 1) * 2 ^ 23) >>> 23 = exponent x := by
    rw [field_toNat]
    omega
  have hmantissa : x.toNat &&& (2 ^ 23 - 1) = fraction x := by
    rw [Nat.and_two_pow_sub_one_eq_mod]
    omega
  have hmult : (if (sign x).toNat = 1 then (-1 : ℤ) else 1) = if sign x then -1 else 1 := by
    cases sign x <;> rfl
  have hmod : fraction x % 2 ^ 23 = fraction x := Nat.mod_eq_of_lt hf
  simp only [ieee754Conversion, if_neg hlt, hsign, hraw, hmantissa, hmult, mantMult_eq, hmod]
  norm_num

/-! ## What the patterns stand for -/

def meaning (x : Word) : Conversion :=
  match value x with
  | some q => .number q
  | none => if fraction x = 0 then .inf (if sign x then -1 else 1) else .nan

theorem meaning_finite {x : Word} (h : exponent x ≠ 255) :
    meaning x = .number (if sign x then -magnitude x else magnitude x) := by
  rw [meaning, value, if_neg h]

theorem meaning_special {x : Word} (h : exponent x = 255) :
    meaning x = if fraction x = 0 then .inf (if sign x then -1 else 1) else .nan := by
  rw [meaning, value, if_pos h]

theorem conversion_normal {x : Word} (h0 : exponent x ≠ 0) (h255 : exponent x ≠ 255) :
    ieee754Conversion x.toNat 1 8 23 = meaning x := by
  have hpow : (2 : ℚ) ^ ((exponent x : ℤ) - 127) = 2 ^ 23 * 2 ^ ((exponent x : ℤ) - 150) := by
    rw [← zpow_natCast (2 : ℚ) 23, ← zpow_add₀ (by norm_num)]
    congr 1
    push_cast
    ring
  rw [conversion_fields, meaning_finite h255, if_neg h255, if_neg h0, magnitude, if_neg h0, hpow]
  congr 1
  cases sign x <;> simp <;> ring

/-- The exponent of a subnormal is taken to be one less than it is. -/
theorem conversion_subnormal {x : Word} (h : exponent x = 0) :
    ieee754Conversion x.toNat 1 8 23 =
      .number ((if sign x then -magnitude x else magnitude x) / 2) := by
  rw [conversion_fields, if_neg (by omega), if_pos h, magnitude, if_pos h, h]
  congr 1
  cases sign x <;> norm_num <;> ring

/-- The decoder is right about a pattern exactly when it is no subnormal but zero, and if it is a NaN,
the one with all its bits set. -/
theorem conversion_right_iff (x : Word) :
    ieee754Conversion x.toNat 1 8 23 = meaning x ↔
      (exponent x = 0 → fraction x = 0) ∧
        (exponent x = 255 → fraction x = 0 ∨ fraction x = 2 ^ 23 - 1) := by
  by_cases h0 : exponent x = 0
  · rw [conversion_subnormal h0, meaning_finite (by omega), Conversion.number.injEq]
    have hhalf : ∀ v : ℚ, v / 2 = v ↔ v = 0 := fun v => by
      constructor <;> intro h <;> linarith
    have hvalue : (if sign x then -magnitude x else magnitude x) = 0 ↔ magnitude x = 0 := by
      cases sign x <;> simp
    rw [hhalf, hvalue]
    constructor
    · exact fun h => ⟨fun _ => (magnitude_eq_zero x h).2, fun h255 => by omega⟩
    · intro ⟨h, _⟩
      rw [magnitude, if_pos h0, h h0, Nat.cast_zero, zero_mul]
  · by_cases h255 : exponent x = 255
    · rw [conversion_fields, meaning_special h255, if_pos h255]
      constructor
      · refine fun h => ⟨fun hc => absurd hc h0, fun _ => ?_⟩
        by_contra hno
        rw [not_or] at hno
        rw [if_neg hno.2, if_neg hno.1] at h
        cases h
      · rintro ⟨_, h⟩
        rcases h h255 with hf | hf
        · rw [hf]
          rfl
        · rw [hf]
          rfl
    · exact ⟨fun _ => ⟨fun h => absurd h h0, fun h => absurd h h255⟩, fun _ => conversion_normal h0 h255⟩

end DsdCordic.Interperter
