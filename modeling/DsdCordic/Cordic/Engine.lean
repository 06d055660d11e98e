import DsdCordic.Foundations.TwosComplement
import Mathlib.Tactic.Ring

/-! One CORDIC iteration on words, the same iteration on integers, and engines in sequence. The
words follow the integers as long as no integer result leaves the range of the words. -/
namespace DsdCordic.Engine
open TwosComplement
set_option autoImplicit false

variable {width : ℕ}

structure Xyw (width : ℕ) where
  x : BitVec (width + 2)
  y : BitVec (width + 2)
  w : BitVec (width + 2)
deriving DecidableEq

def engine (i : BitVec 5) (a : BitVec (width + 2)) (v : Xyw width) : Xyw width :=
  let signW := v.w.msb
  { x := if signW then v.x + v.y.sshiftRight i.toNat else v.x - v.y.sshiftRight i.toNat
    y := if signW then v.y - v.x.sshiftRight i.toNat else v.y + v.x.sshiftRight i.toNat
    w := if signW then v.w + a else v.w - a }

/-- Entry `i` of a flat table, `angles[i*(WIDTH+2)+:(WIDTH+2)]`. -/
def angleEntry (angles : BitVec ((width + 2) * 32)) (i : ℕ) : BitVec (width + 2) :=
  angles.extractLsb' (i * (width + 2)) (width + 2)

/-- Engines `0, 1, …, n - 1` in order, engine `i` with table entry `i`. -/
def iterate (angles : BitVec ((width + 2) * 32)) : ℕ → Xyw width → Xyw width
  | 0, v => v
  | n + 1, v => engine (BitVec.ofNat 5 n) (angleEntry angles n) (iterate angles n v)

/-! ## The iteration on integers -/

structure XywZ where
  x : ℤ
  y : ℤ
  w : ℤ
deriving DecidableEq

/-- The exact results of one engine: `/` rounds towards minus infinity here. -/
def engineZ (i : ℕ) (a : ℤ) (v : XywZ) : XywZ :=
  if v.w < 0 then ⟨v.x + v.y / 2 ^ i, v.y - v.x / 2 ^ i, v.w + a⟩
  else ⟨v.x - v.y / 2 ^ i, v.y + v.x / 2 ^ i, v.w - a⟩

theorem engineZ_neg {i : ℕ} {a : ℤ} {v : XywZ} (h : v.w < 0) :
    engineZ i a v = ⟨v.x + v.y / 2 ^ i, v.y - v.x / 2 ^ i, v.w + a⟩ := if_pos h

theorem engineZ_nonneg {i : ℕ} {a : ℤ} {v : XywZ} (h : ¬v.w < 0) :
    engineZ i a v = ⟨v.x - v.y / 2 ^ i, v.y + v.x / 2 ^ i, v.w - a⟩ := if_neg h

def iterateZ (a : ℕ → ℤ) : ℕ → XywZ → XywZ
  | 0, v => v
  | n + 1, v => engineZ n (a n) (iterateZ a n v)

def XywZ.Fits (w : ℕ) (v : XywZ) : Prop :=
  TwosComplement.Fits w v.x ∧ TwosComplement.Fits w v.y ∧ TwosComplement.Fits w v.w

def Xyw.toZ (v : Xyw width) : XywZ := ⟨v.x.toInt, v.y.toInt, v.w.toInt⟩

theorem engine_toZ (i : BitVec 5) (a : BitVec (width + 2)) (v : Xyw width)
    (h : (engineZ i.toNat a.toInt v.toZ).Fits (width + 2)) :
    (engine i a v).toZ = engineZ i.toNat a.toInt v.toZ := by
  have hmsb := msb_iff_neg v.w
  have hx : v.toZ.x / 2 ^ i.toNat = (v.x.sshiftRight i.toNat).toInt :=
    (toInt_sshiftRight_div v.x i.toNat).symm
  have hy : v.toZ.y / 2 ^ i.toNat = (v.y.sshiftRight i.toNat).toInt :=
    (toInt_sshiftRight_div v.y i.toNat).symm
  by_cases hw : v.toZ.w < 0
  · rw [engineZ_neg hw, hx, hy] at h ⊢
    simp only [engine, hmsb.mpr hw, if_true, Xyw.toZ]
    rw [toInt_add_of_fits h.1, toInt_sub_of_fits h.2.1, toInt_add_of_fits h.2.2]
  · have hs : v.w.msb = false := Bool.eq_false_iff.mpr (fun hs => hw (hmsb.mp hs))
    rw [engineZ_nonneg hw, hx, hy] at h ⊢
    simp only [engine, hs, Bool.false_eq_true, if_false, Xyw.toZ]
    rw [toInt_sub_of_fits h.1, toInt_add_of_fits h.2.1, toInt_sub_of_fits h.2.2]

/-- While every exact result fits, the engines compute the exact results. -/
theorem iterate_toZ (angles : BitVec ((width + 2) * 32)) (v : Xyw width) (n : ℕ) (hn : n ≤ 32)
    (h : ∀ k ≤ n, (iterateZ (fun i => (angleEntry angles i).toInt) k v.toZ).Fits (width + 2)) :
    (iterate angles n v).toZ = iterateZ (fun i => (angleEntry angles i).toInt) n v.toZ := by
  induction n with
  | zero => rfl
  | succ n ih =>
    have hi : (BitVec.ofNat 5 n).toNat = n := by
      rw [BitVec.toNat_ofNat, Nat.mod_eq_of_lt (by omega)]
    have hv := ih (by omega) (fun k hk => h k (by omega))
    have hfit := h (n + 1) le_rfl
    rw [iterateZ, ← hv] at hfit ⊢
    rw [iterate, engine_toZ, hi]
    rw [hi]
    exact hfit

end DsdCordic.Engine
