import DsdCordic.Foundations.WhileLoop
import DsdCordic.Cordic.Sdiv
import Mathlib.Data.Nat.Size

/-! The decoder behind the simulator's output. It takes the bits of a number from the lowest up and
adds their weights until none is left; in a signed number bit `fracBits + 1` and those above it count
down. That bit is the upper one of the RTL's words, so the decoder undoes their encoding. The values
are exact rationals here. -/
namespace DsdCordic.FixedFracToFloat
open Binary32 WhileLoop
set_option autoImplicit false

/-- The variables of the loop. -/
structure State where
  x : ℕ
  value : ℚ
  cnt : ℕ
  sign : ℤ
  pos : ℤ

def body (fracBits : ℕ) (signed : Bool) (s : State) : State :=
  let sign := if signed && s.cnt == fracBits + 1 then -1 else s.sign
  { x := s.x >>> 1
    value := s.value + sign * ((s.x &&& 0x1 : ℕ) : ℚ) * 2 ^ s.pos
    cnt := s.cnt + 1
    sign := sign
    pos := s.pos + 1 }

def start (x fracBits : ℕ) : State := ⟨x, 0, 0, 1, 0 - fracBits⟩

/-- The function with at most `fuel` rounds of its loop. -/
def fixedLengthFracToFloat (fuel x fracBits : ℕ) (signed : Bool) : Option ℚ :=
  (whileLoop (fun s => decide (s.x > 0)) (body fracBits signed) fuel (start x fracBits)).map State.value

/-! ## The loop -/

/-- What the bits of a number stand for: from bit `fracBits + 1` on a signed one counts down. -/
def weighed (fracBits : ℕ) (signed : Bool) (x : ℕ) : ℤ :=
  if signed then 2 * (x % 2 ^ (fracBits + 1) : ℕ) - x else x

/-- The lowest `cnt` bits of `x0` are in `value`, the others in `x`. -/
structure Inv (x0 fracBits : ℕ) (signed : Bool) (s : State) : Prop where
  x : s.x = x0 / 2 ^ s.cnt
  value : s.value = weighed fracBits signed (x0 % 2 ^ s.cnt) / 2 ^ fracBits
  sign : s.sign = if signed && decide (fracBits + 1 < s.cnt) then -1 else 1
  pos : s.pos = s.cnt - fracBits

theorem start_inv (x fracBits : ℕ) (signed : Bool) : Inv x fracBits signed (start x fracBits) where
  x := (Nat.div_one x).symm
  value := by simp [start, weighed, Nat.mod_one]
  sign := by simp [start]
  pos := by simp [start]

/-- One more bit above the lowest `cnt` counts with its own sign. -/
theorem weighed_bit (fracBits : ℕ) (signed : Bool) {cnt y b : ℕ} (hy : y < 2 ^ cnt) (hb : b < 2) :
    weighed fracBits signed (y + 2 ^ cnt * b) =
      weighed fracBits signed y +
        (if signed && decide (fracBits + 1 < cnt + 1) then -1 else 1) * (2 ^ cnt * b) := by
  cases signed with
  | false => simp [weighed]
  | true =>
    by_cases h : fracBits + 1 ≤ cnt
    · -- the bit is above the counted ones
      obtain ⟨k, rfl⟩ : ∃ k, cnt = fracBits + 1 + k := ⟨cnt - (fracBits + 1), by omega⟩
      have hmod : (y + 2 ^ (fracBits + 1 + k) * b) % 2 ^ (fracBits + 1) = y % 2 ^ (fracBits + 1) := by
        rw [pow_add, Nat.mul_assoc, Nat.add_mul_mod_self_left]
      have hlt : fracBits + 1 < fracBits + 1 + k + 1 := by omega
      simp only [weighed, hmod, hlt, Bool.true_and, decide_true, if_true]
      push_cast
      ring
    · -- every bit so far is among them
      have hle : (2 : ℕ) ^ (cnt + 1) ≤ 2 ^ (fracBits + 1) := Nat.pow_le_pow_right (by norm_num) (by omega)
      have hsum : y + 2 ^ cnt * b < 2 ^ (cnt + 1) := by
        have hbit : 2 ^ cnt * b ≤ 2 ^ cnt * 1 := Nat.mul_le_mul_left _ (by omega)
        rw [pow_succ]
        omega
      have hlt : ¬fracBits + 1 < cnt + 1 := by omega
      simp only [weighed, Nat.mod_eq_of_lt (hsum.trans_le hle), Nat.mod_eq_of_lt
        (show y < 2 ^ (fracBits + 1) by omega), hlt, Bool.true_and, decide_false, Bool.false_eq_true,
        if_false, if_true]
      push_cast
      ring

theorem body_inv {x0 fracBits : ℕ} {signed : Bool} {s : State} (h : Inv x0 fracBits signed s) :
    Inv x0 fracBits signed (body fracBits signed s) := by
  have hsign : (if signed && s.cnt == fracBits + 1 then -1 else s.sign) =
      if signed && decide (fracBits + 1 < s.cnt + 1) then -1 else 1 := by
    rw [h.sign]
    cases signed with
    | false => simp
    | true =>
      simp only [Bool.true_and, beq_iff_eq, decide_eq_true_eq]
      split <;> split <;> first | rfl | (split <;> omega) | omega
  refine ⟨?_, ?_, hsign, ?_⟩
  · show s.x >>> 1 = _
    rw [h.x, Nat.shiftRight_one, Nat.div_div_eq_div_mul]
    rfl
  · show s.value + (if signed && s.cnt == fracBits + 1 then -1 else s.sign : ℤ) *
      ((s.x &&& 0x1 : ℕ) : ℚ) * 2 ^ s.pos = _
    have hpow : (2 : ℚ) ^ s.pos = 2 ^ s.cnt / 2 ^ fracBits := by
      rw [h.pos, zpow_sub₀ (by norm_num), zpow_natCast, zpow_natCast]
    have hnext : x0 % 2 ^ (s.cnt + 1) = x0 % 2 ^ s.cnt + 2 ^ s.cnt * (x0 / 2 ^ s.cnt % 2) :=
      Nat.mod_pow_succ
    have hbit := weighed_bit fracBits signed (Nat.mod_lt x0 (by positivity : 0 < 2 ^ s.cnt))
      (Nat.mod_lt (x0 / 2 ^ s.cnt) (by norm_num : 0 < 2))
    show _ = ((weighed fracBits signed (x0 % 2 ^ (s.cnt + 1)) : ℤ) : ℚ) / 2 ^ fracBits
    rw [hsign, hpow, hnext, hbit, h.value, h.x, Nat.and_one_is_mod]
    generalize x0 / 2 ^ s.cnt % 2 = b
    push_cast
    ring
  · show s.pos + 1 = _
    rw [h.pos]
    show _ = ((s.cnt + 1 : ℕ) : ℤ) - fracBits
    push_cast
    ring

theorem body_size {fracBits : ℕ} {signed : Bool} {s : State} (h : 0 < s.x) :
    (body fracBits signed s).x.size < s.x.size := by
  have hpos : 0 < s.x.size := Nat.size_pos.mpr h
  have hlt := Nat.lt_size_self s.x
  obtain ⟨k, hk⟩ : ∃ k, s.x.size = k + 1 := ⟨s.x.size - 1, by omega⟩
  show (s.x >>> 1).size < _
  rw [hk, pow_succ] at hlt
  rw [hk, Nat.lt_succ_iff, Nat.size_le, Nat.shiftRight_one]
  omega

/-- **What the decoder returns**, after as many rounds as the number has bits. -/
theorem decoder_run (x fracBits : ℕ) (signed : Bool) {fuel : ℕ} (h : x.size ≤ fuel) :
    fixedLengthFracToFloat fuel x fracBits signed =
      some ((weighed fracBits signed x : ℚ) / 2 ^ fracBits) := by
  obtain ⟨s, hrun, hinv, hdone⟩ := whileLoop_total
    (fun s : State => decide (s.x > 0)) (body fracBits signed) (Inv x fracBits signed) (fun s => s.x.size)
    (fun s hs htest => ⟨body_inv hs, body_size (by simpa using htest)⟩) fuel (start x fracBits)
    (start_inv x fracBits signed) h
  have hall : x % 2 ^ s.cnt = x := by
    have hzero : x / 2 ^ s.cnt = 0 := by
      rw [← hinv.x]
      simpa using hdone
    rw [Nat.mod_eq_of_lt]
    exact (Nat.div_eq_zero_iff_lt (by positivity)).mp hzero
  rw [fixedLengthFracToFloat, hrun, Option.map_some, hinv.value, hall]

/-! ## Two's complement -/

theorem weighed_word {fracBits : ℕ} (v : BitVec (fracBits + 2)) :
    weighed fracBits true v.toNat = v.toInt := by
  have hlt := v.isLt
  have hpow : 2 ^ (fracBits + 2) = 2 ^ (fracBits + 1) * 2 := pow_succ 2 _
  rw [weighed, if_pos rfl, BitVec.toInt_eq_toNat_cond]
  split
  · rw [Nat.mod_eq_of_lt (by omega)]
    ring
  · have hmod : v.toNat % 2 ^ (fracBits + 1) = v.toNat - 2 ^ (fracBits + 1) := by
      rw [Nat.mod_eq_sub_mod (by omega), Nat.mod_eq_of_lt (by omega)]
    rw [hmod]
    omega

/-- The decoder inverts the two's complement encoding of the RTL's words. -/
theorem decodes_word {fracBits : ℕ} (v : BitVec (fracBits + 2)) {fuel : ℕ} (h : fracBits + 2 ≤ fuel) :
    fixedLengthFracToFloat fuel v.toNat fracBits true = some ((v.toInt : ℚ) / 2 ^ fracBits) := by
  rw [decoder_run _ _ _ ((Nat.size_le.mpr v.isLt).trans h), weighed_word]

/-- What the interpreter prints of the angle is `(x - 128) / 128` to within the last place. -/
theorem decodes_angle (width : ℕ) (hw : width ≤ 23) {x : Word} {q : ℚ} (hx : value x = some q)
    (h0 : 0 ≤ q) (h256 : q < 256) {fuel : ℕ} (h : width + 2 ≤ fuel) :
    ∃ r, fixedLengthFracToFloat fuel (Sdiv.fixedFractionalAngle width x).toNat width true = some r ∧
      r ≤ (q - 128) / 128 ∧ (q - 128) / 128 < r + 1 / 2 ^ width := by
  refine ⟨_, decodes_word _ h, ?_⟩
  have hpos : (0 : ℚ) < 2 ^ width := by positivity
  have hscale : (q - 128) * 2 ^ ((width : ℤ) - 7) = (q - 128) / 128 * 2 ^ width := by
    rw [zpow_sub₀ (by norm_num), zpow_natCast]
    norm_num
    ring
  rw [Sdiv.fixedFractionalAngle_floor width hw hx h0 h256, hscale, ← add_div, div_le_iff₀ hpos,
    lt_div_iff₀ hpos]
  exact ⟨Int.floor_le _, Int.lt_floor_add_one _⟩

/-- For every number and precision the loop ends, after as many rounds as the number has bits; without
a sign the result is the number over the scale, and with one it undoes the encoding modulo
`2^(fracBits + 2)`. -/
theorem decoder_inverts_encoding :
    (∀ (fracBits : ℕ) (v : ℤ), -2 ^ (fracBits + 1) ≤ v → v < 2 ^ (fracBits + 1) →
      ∀ fuel, fracBits + 2 ≤ fuel →
        fixedLengthFracToFloat fuel (v % 2 ^ (fracBits + 2)).toNat fracBits true =
          some ((v : ℚ) / 2 ^ fracBits)) ∧
    (∀ (x fracBits fuel : ℕ), x.size ≤ fuel →
      fixedLengthFracToFloat fuel x fracBits false = some ((x : ℚ) / 2 ^ fracBits)) ∧
    ∀ (x fracBits : ℕ) (signed : Bool) (fuel : ℕ), x.size ≤ fuel →
      (fixedLengthFracToFloat fuel x fracBits signed).isSome = true := by
  refine ⟨?_, ?_, ?_⟩
  · intro fracBits v hlo hhi fuel hfuel
    have hword : (BitVec.ofInt (fracBits + 2) v).toInt = v := by
      rw [BitVec.toInt_ofInt]
      apply TwosComplement.bmod_of_fits
      have hpow : 2 ^ (fracBits + 2) = 2 ^ (fracBits + 1) * 2 := pow_succ 2 _
      unfold TwosComplement.Fits
      rw [hpow]
      push_cast
      constructor <;> linarith
    have h := decodes_word (BitVec.ofInt (fracBits + 2) v) hfuel
    rw [hword, BitVec.toNat_ofInt] at h
    exact_mod_cast h
  · intro x fracBits fuel hfuel
    rw [decoder_run x fracBits false hfuel, weighed, if_neg Bool.false_ne_true, Int.cast_natCast]
  · intro x fracBits signed fuel hfuel
    rw [decoder_run x fracBits signed hfuel]
    rfl

theorem decoder_inverts_encoding_minus_one :
    fixedLengthFracToFloat 24 (-1 % 2 ^ (22 + 2) : ℤ).toNat 22 true = some (((-1 : ℤ) : ℚ) / 2 ^ 22) :=
  decoder_inverts_encoding.1 22 (-1) (by norm_num) (by norm_num) 24 le_rfl

end DsdCordic.FixedFracToFloat
