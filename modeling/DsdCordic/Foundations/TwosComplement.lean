import Mathlib.Data.Int.Init
import Mathlib.Tactic.NormNum

/-! Words read as two's complement integers: when a sum that is computed modulo a power of two is
the exact one, and the arithmetic shift as a floor division. -/
namespace DsdCordic.TwosComplement
set_option autoImplicit false

/-- `z` is one of the values `-2^(w-1), …, 2^(w-1) - 1` of a word of `w` bits. -/
def Fits (w : ℕ) (z : ℤ) : Prop := -(2 ^ w : ℕ) ≤ z * 2 ∧ z * 2 < (2 ^ w : ℕ)

instance (w : ℕ) (z : ℤ) : Decidable (Fits w z) := inferInstanceAs (Decidable (_ ∧ _))

theorem bmod_of_fits {w : ℕ} {z : ℤ} (h : Fits w z) : z.bmod (2 ^ w) = z :=
  Int.bmod_eq_of_le_mul_two h.1 h.2

theorem toInt_of_emod {w : ℕ} (v : BitVec w) {z : ℤ} (hz : Fits w z)
    (h : (v.toNat : ℤ) % (2 ^ w : ℕ) = z % (2 ^ w : ℕ)) : v.toInt = z := by
  rw [BitVec.toInt_eq_toNat_bmod, ← Int.emod_bmod, h, Int.emod_bmod, bmod_of_fits hz]

theorem toInt_add_of_fits {w : ℕ} {a b : BitVec w} (h : Fits w (a.toInt + b.toInt)) :
    (a + b).toInt = a.toInt + b.toInt := by
  rw [BitVec.toInt_add, bmod_of_fits h]

theorem toInt_sub_of_fits {w : ℕ} {a b : BitVec w} (h : Fits w (a.toInt - b.toInt)) :
    (a - b).toInt = a.toInt - b.toInt := by
  rw [BitVec.toInt_sub, bmod_of_fits h]

theorem toInt_sshiftRight_div {w : ℕ} (a : BitVec w) (k : ℕ) :
    (a.sshiftRight k).toInt = a.toInt / 2 ^ k := by
  rw [BitVec.toInt_sshiftRight, Int.shiftRight_eq_div_pow]
  norm_cast

theorem msb_iff_neg {w : ℕ} (a : BitVec w) : a.msb = true ↔ a.toInt < 0 := by
  rw [BitVec.msb_eq_toInt, decide_eq_true_eq]

theorem beq_toNat {w : ℕ} (a b : BitVec w) : (a == b) = decide (a.toNat = b.toNat) := by
  rw [Bool.eq_iff_iff, beq_iff_eq, decide_eq_true_iff, BitVec.toNat_inj]

/-! ## Sign extension -/

theorem signExtend_mod {w v u : ℕ} (x : BitVec w) (hv : u ≤ v) :
    (x.signExtend v).toNat % 2 ^ u = (x.signExtend u).toNat := by
  rw [← BitVec.toNat_setWidth]
  congr 1
  apply BitVec.eq_of_getLsbD_eq
  intro i hi
  rw [BitVec.getLsbD_setWidth, BitVec.getLsbD_signExtend, BitVec.getLsbD_signExtend]
  simp [hi, show i < v by omega]

theorem signExtend_ofBool (w : ℕ) (s : Bool) :
    (BitVec.ofBool s).signExtend w = if s then BitVec.allOnes w else 0#w := by
  apply BitVec.eq_of_getLsbD_eq
  intro i hi
  rw [BitVec.getLsbD_signExtend]
  cases s <;> simp [hi]

/-- A digit spread over a word complements another word or leaves it. -/
theorem xor_signExtend {w : ℕ} (v : BitVec w) (s : Bool) :
    v ^^^ (BitVec.ofBool s).signExtend w = if s then ~~~v else v := by
  rw [signExtend_ofBool]
  cases s with
  | false => exact BitVec.xor_zero
  | true => exact BitVec.xor_allOnes

/-- As a mask it keeps another word or clears it. -/
theorem and_signExtend {w : ℕ} (v : BitVec w) (s : Bool) :
    v &&& (BitVec.ofBool s).signExtend w = if s then v else 0#w := by
  rw [signExtend_ofBool]
  cases s with
  | false => exact BitVec.and_zero
  | true => exact BitVec.and_allOnes

end DsdCordic.TwosComplement
