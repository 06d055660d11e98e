import DsdCordic.Foundations.Flushing
import DsdCordic.Foundations.Rounding
import DsdCordic.Foundations.TwosComplement
import DsdCordic.Peripheral.Cores

/-! The generated multiplier. Four rows of registers share one enable and one asynchronous clear, so
the entity is the pipeline that the unit relies on; the function it computes is the product rounded to
the nearest, with subnormals flushed on both sides. -/
namespace DsdCordic.FpMult0002
open Binary32 Clocked Flushing Rounding TwosComplement
set_option autoImplicit false

/-! ## The entity -/

/-- The kinds of the two operands and the sign, which travel along to the last row. -/
structure Kinds where
  excZX : Bool
  expXIsMax : Bool
  fracXIsZero : Bool
  excZY : Bool
  expYIsMax : Bool
  fracYIsZero : Bool
  signR : Bool

namespace Kinds

variable (k : Kinds)

def excIX : Bool := k.expXIsMax && k.fracXIsZero
def excIY : Bool := k.expYIsMax && k.fracYIsZero
def excNX : Bool := k.expXIsMax && !k.fracXIsZero
def excNY : Bool := k.expYIsMax && !k.fracYIsZero
def excRX : Bool := !k.excZX && !k.expXIsMax
def excRY : Bool := !k.excZY && !k.expYIsMax

def zeroTimesInf : Bool := (k.excZX && k.excIY) || (k.excZY && k.excIX)

def excRNaN : Bool := k.excNX || k.excNY || k.zeroTimesInf

def excRInf (expOvf : Bool) : Bool :=
  (k.excIX && k.excIY) || (k.excRX && k.excIY) || (k.excRY && k.excIX) || (k.excRX && k.excRY && expOvf)

def excRZero (expUdf : Bool) : Bool :=
  (k.excZX && k.excZY) || (k.excZX && k.excRY) || (k.excZY && k.excRX) || (k.excRX && k.excRY && expUdf)

def signRPostExc : Bool := k.signR && !k.excRNaN

end Kinds

structure Stage1 where
  kinds : Kinds
  cmaA0 : BitVec 24
  cmaC0 : BitVec 24
  expSum : BitVec 9

structure Stage2 where
  kinds : Kinds
  cmaS : BitVec 48
  expSum : BitVec 9

structure Stage3 where
  kinds : Kinds
  normalizeBit : Bool
  fracRPostNorm : BitVec 24
  stickyRangeComparator : Bool
  expSum : BitVec 9

structure Stage4 where
  kinds : Kinds
  expRPreExcExt : BitVec 12
  fracRPreExc : BitVec 23

structure State where
  stage1 : Stage1
  stage2 : Stage2
  stage3 : Stage3
  stage4 : Stage4

def stage1 (a b : Word) : Stage1 where
  kinds :=
    { excZX := a.extractLsb' 23 8 == 0#8
      expXIsMax := a.extractLsb' 23 8 == 255#8
      fracXIsZero := a.extractLsb' 0 23 == 0#23
      excZY := b.extractLsb' 23 8 == 0#8
      expYIsMax := b.extractLsb' 23 8 == 255#8
      fracYIsZero := b.extractLsb' 0 23 == 0#23
      signR := a.getLsbD 31 ^^ b.getLsbD 31 }
  cmaA0 := 1#1 ++ a.extractLsb' 0 23
  cmaC0 := 1#1 ++ b.extractLsb' 0 23
  expSum := (0#1 ++ a.extractLsb' 23 8) + (0#1 ++ b.extractLsb' 23 8)

def stage2 (s : Stage1) : Stage2 where
  kinds := s.kinds
  cmaS := s.cmaA0.setWidth 48 * s.cmaC0.setWidth 48
  expSum := s.expSum

def stage3 (s : Stage2) : Stage3 :=
  let normalizeBit := s.cmaS.getLsbD 47
  let extraStickyBit := if normalizeBit then s.cmaS.getLsbD 22 else false
  let stickyExtendedRange : BitVec 23 := BitVec.ofBool extraStickyBit ++ s.cmaS.extractLsb' 0 22
  { kinds := s.kinds
    normalizeBit := normalizeBit
    fracRPostNorm := if normalizeBit then s.cmaS.extractLsb' 23 24 else s.cmaS.extractLsb' 22 24
    stickyRangeComparator := stickyExtendedRange == 0#23
    expSum := s.expSum }

def roundBit (s : Stage3) : Bool :=
  let lrs : BitVec 3 := s.fracRPostNorm.extractLsb' 0 2 ++ BitVec.ofBool (!s.stickyRangeComparator)
  !(lrs == 2#3)

def expFracRPostRounding (s : Stage3) : BitVec 36 :=
  let expSumMBias := ((0#3 ++ s.expSum) - (127#10).signExtend 12).extractLsb' 0 11
  let expFracPreRound : BitVec 35 := expSumMBias ++ s.fracRPostNorm
  let roundBitAndNormalizationOp : BitVec 26 :=
    0#1 ++ BitVec.ofBool s.normalizeBit ++ 0#23 ++ BitVec.ofBool (roundBit s)
  (expFracPreRound.signExtend 37 + (0#11 ++ roundBitAndNormalizationOp)).extractLsb' 0 36

def stage4 (s : Stage3) : Stage4 where
  kinds := s.kinds
  expRPreExcExt := (expFracRPostRounding s).extractLsb' 24 12
  fracRPreExc := (expFracRPostRounding s).extractLsb' 1 23

def expUdf (s : Stage4) : Bool := !(0#14 - s.expRPreExcExt.signExtend 14).msb

def expOvf (s : Stage4) : Bool := !(s.expRPreExcExt.signExtend 14 - (0#6 ++ 255#8)).msb

def excREnc (concExc : BitVec 3) : BitVec 2 :=
  [1#2, 0#2, 2#2, 0#2, 3#2, 0#2, 0#2, 0#2].getD concExc.toNat 0#2

def output (s : Stage4) : Word :=
  let enc := excREnc (BitVec.ofBool s.kinds.excRNaN ++ BitVec.ofBool (s.kinds.excRInf (expOvf s)) ++
    BitVec.ofBool (s.kinds.excRZero (expUdf s)))
  let expRPostExc := [0#8, s.expRPreExcExt.extractLsb' 0 8, 255#8, 255#8].getD enc.toNat 0#8
  let fracRPostExc := [0#23, s.fracRPreExc, 0#23, 1#23].getD enc.toNat 0#23
  pack s.kinds.signRPostExc expRPostExc fracRPostExc

/-- What the asynchronous clear leaves. -/
def cleared : State :=
  let kinds : Kinds := ⟨false, false, false, false, false, false, false⟩
  { stage1 := ⟨kinds, 0#24, 0#24, 0#9⟩
    stage2 := ⟨kinds, 0#48, 0#9⟩
    stage3 := ⟨kinds, false, 0#24, false, 0#9⟩
    stage4 := ⟨kinds, 0#12, 0#23⟩ }

def step (areset en : Bool) (a b : Word) (s : State) : State :=
  if areset then cleared
  else if en then ⟨stage1 a b, stage2 s.stage1, stage3 s.stage2, stage4 s.stage3⟩
  else s

def q (areset : Bool) (s : State) : Word := output (if areset then cleared else s).stage4

/-! ## The pipeline -/

/-- What the rows do to the operands of one cycle. -/
def mul (a b : Word) : Word := output (stage4 (stage3 (stage2 (stage1 a b))))

/-- Each row as the result that will come of it. -/
def view (s : State) : Fin 4 → Word :=
  ![output (stage4 (stage3 (stage2 s.stage1))), output (stage4 (stage3 s.stage2)),
    output (stage4 s.stage3), output s.stage4]

theorem view_enabled (a b : Word) (s : State) :
    view (step false true a b s) = advance true (mul a b) (view s) := by
  have hstep : step false true a b s = ⟨stage1 a b, stage2 s.stage1, stage3 s.stage2, stage4 s.stage3⟩ :=
    rfl
  simp only [hstep, view, mul, advance_cons, advance_single]

theorem view_step {A : Type} [AddZeroClass A] (C : Cores.FpCores A) (hmul : C.mul = mul)
    (hclear : C.multClear = view cleared) (areset en : Bool) (a b : Word) (s : State) :
    view (step areset en a b s) = C.fpMult areset en a b (view s) := by
  rw [Cores.FpCores.fpMult, hclear, hmul]
  exact pipe_of_enabled view cleared s (view_enabled a b s) areset en

theorem q_view {A : Type} [AddZeroClass A] (C : Cores.FpCores A)
    (hclear : C.multClear = view cleared) (areset : Bool) (s : State) :
    q areset s = C.fpMultQ areset (view s) := by
  rw [Cores.FpCores.fpMultQ, hclear]
  exact pipeQ_view view cleared s areset

/-! ## The rows on numbers -/

theorem cma_toNat (x : Word) : (1#1 ++ x.extractLsb' 0 23).toNat = 2 ^ 23 + fraction x := by
  rw [toNat_append]
  simp [fraction]

theorem expSum_toNat (a b : Word) : (stage1 a b).expSum.toNat = exponent a + exponent b := by
  have ha := exponent_lt a
  have hb := exponent_lt b
  rw [stage1, BitVec.toNat_add, toNat_append, toNat_append]
  simp only [exponent, BitVec.toNat_zero, Nat.zero_mul, Nat.zero_add] at ha hb ⊢
  omega

theorem product_bounds (a b : Word) :
    2 ^ 46 ≤ (2 ^ 23 + fraction a) * (2 ^ 23 + fraction b) ∧
      (2 ^ 23 + fraction a) * (2 ^ 23 + fraction b) < 2 ^ 48 := by
  have ha := fraction_lt a
  have hb := fraction_lt b
  constructor
  · calc 2 ^ 46 = 2 ^ 23 * 2 ^ 23 := by norm_num
      _ ≤ _ := Nat.mul_le_mul (by omega) (by omega)
  · calc _ < 2 ^ 24 * 2 ^ 24 := Nat.mul_lt_mul_of_lt_of_lt (by omega) (by omega)
      _ = 2 ^ 48 := by norm_num

theorem product_toNat (a b : Word) :
    (stage2 (stage1 a b)).cmaS.toNat = (2 ^ 23 + fraction a) * (2 ^ 23 + fraction b) := by
  have ha := fraction_lt a
  have hb := fraction_lt b
  simp only [stage2, stage1, BitVec.toNat_mul, BitVec.toNat_setWidth, cma_toNat]
  rw [Nat.mod_eq_of_lt (show 2 ^ 23 + fraction a < 2 ^ 48 by omega),
    Nat.mod_eq_of_lt (show 2 ^ 23 + fraction b < 2 ^ 48 by omega),
    Nat.mod_eq_of_lt (product_bounds a b).2]

/-- How many digits of the product lie below the guard digit. -/
def below (s : Stage3) : ℕ := 22 + s.normalizeBit.toNat

theorem normalizeBit_eq (s : Stage2) :
    (stage3 s).normalizeBit = decide (2 ^ 47 ≤ s.cmaS.toNat) := by
  have hlt := s.cmaS.isLt
  simp only [stage3, BitVec.getLsbD, Nat.testBit_eq_decide_div_mod_eq, decide_eq_decide]
  omega

theorem fracRPostNorm_toNat (s : Stage2) (h : 2 ^ 46 ≤ s.cmaS.toNat) :
    (stage3 s).fracRPostNorm.toNat + 2 ^ 24 = s.cmaS.toNat / 2 ^ below (stage3 s) := by
  have hlt := s.cmaS.isLt
  have hnorm := normalizeBit_eq s
  simp only [below, hnorm]
  simp only [stage3] at hnorm
  simp only [stage3, hnorm]
  by_cases hbig : 2 ^ 47 ≤ s.cmaS.toNat
  · simp only [hbig, decide_true, if_true, BitVec.extractLsb'_toNat, Nat.shiftRight_eq_div_pow,
      Bool.toNat_true]
    omega
  · simp only [hbig, decide_false, Bool.false_eq_true, if_false, BitVec.extractLsb'_toNat,
      Nat.shiftRight_eq_div_pow, Bool.toNat_false]
    omega

theorem stickyRangeComparator_eq (s : Stage2) :
    (stage3 s).stickyRangeComparator = decide (s.cmaS.toNat % 2 ^ below (stage3 s) = 0) := by
  have hlow : (s.cmaS.extractLsb' 0 22).toNat = s.cmaS.toNat % 2 ^ 22 := by
    rw [BitVec.extractLsb'_toNat, Nat.shiftRight_zero]
  have hrange : (stage3 s).stickyRangeComparator =
      decide ((BitVec.ofBool (if s.cmaS.getLsbD 47 then s.cmaS.getLsbD 22 else false)).toNat * 2 ^ 22 +
        s.cmaS.toNat % 2 ^ 22 = 0) := by
    rw [← hlow, ← toNat_append]
    exact beq_toNat _ _
  have hnorm : (stage3 s).normalizeBit = s.cmaS.getLsbD 47 := rfl
  rw [hrange, below, hnorm, decide_eq_decide]
  cases s.cmaS.getLsbD 47 with
  | false => simp
  | true =>
    simp only [BitVec.getLsbD, Nat.testBit_eq_decide_div_mod_eq, if_true, Bool.toNat_true,
      BitVec.toNat_ofBool]
    by_cases hbit : s.cmaS.toNat / 2 ^ 22 % 2 = 1
    · simp only [hbit, decide_true, Bool.toNat_true]
      omega
    · simp only [hbit, decide_false, Bool.toNat_false]
      omega

theorem roundBit_eq (s : Stage3) :
    roundBit s = !decide (s.fracRPostNorm.toNat % 4 = 1 ∧ s.stickyRangeComparator = true) := by
  have hlow : (s.fracRPostNorm.extractLsb' 0 2).toNat = s.fracRPostNorm.toNat % 2 ^ 2 := by
    rw [BitVec.extractLsb'_toNat, Nat.shiftRight_zero]
  rw [roundBit, Bool.not_inj_iff, beq_toNat, toNat_append, hlow, decide_eq_decide]
  cases s.stickyRangeComparator <;> simp

/-- The mantissa, rounded. -/
def mantissa (s : Stage3) : ℕ := (2 ^ 24 + s.fracRPostNorm.toNat + (roundBit s).toNat) / 2

theorem mantissa_eq (s : Stage2) (h : 2 ^ 46 ≤ s.cmaS.toNat) :
    roundEven ((s.cmaS.toNat : ℚ) / 2 ^ (below (stage3 s) + 1)) = mantissa (stage3 s) := by
  have hfrac := fracRPostNorm_toNat s h
  have hlt := (stage3 s).fracRPostNorm.isLt
  rw [roundEven_guard, ← hfrac, mantissa, roundBit_eq, stickyRangeComparator_eq]
  congr 2
  by_cases hzero : s.cmaS.toNat % 2 ^ below (stage3 s) = 0
  · by_cases hone : (stage3 s).fracRPostNorm.toNat % 4 = 1
    · rw [if_pos ⟨by omega, hzero⟩]
      simp [hone, hzero]
      omega
    · rw [if_neg (by omega)]
      simp [hone]
      omega
  · rw [if_neg (fun h => hzero h.2)]
    simp [hzero]
    omega

theorem expFrac_toNat (s : Stage3) (h : s.expSum.toNat ≤ 510) :
    ((expFracRPostRounding s).toNat : ℤ) =
      (((s.expSum.toNat : ℤ) - 127 + s.normalizeBit.toNat) * 2 ^ 24 + s.fracRPostNorm.toNat +
        (roundBit s).toNat) % 2 ^ 36 := by
  have hf := s.fracRPostNorm.isLt
  simp only [expFracRPostRounding, BitVec.extractLsb'_toNat, Nat.shiftRight_zero, BitVec.toNat_add,
    BitVec.toNat_signExtend, toNat_append, BitVec.msb_eq_decide, BitVec.toNat_sub,
    BitVec.toNat_setWidth, BitVec.toNat_ofBool, BitVec.toNat_ofNat]
  generalize s.expSum.toNat = e at h ⊢
  generalize s.fracRPostNorm.toNat = f at hf ⊢
  cases s.normalizeBit <;> cases roundBit s <;>
    simp only [Bool.toNat_false, Bool.toNat_true, Nat.reduceAdd, Nat.reducePow, Nat.reduceMod,
      Nat.reduceSub, Nat.reduceLeDiff, decide_false, Bool.false_eq_true, if_false,
      decide_eq_true_eq] <;> split <;> omega

theorem mantissa_bounds (s : Stage3) : 2 ^ 23 ≤ mantissa s ∧ mantissa s ≤ 2 ^ 24 := by
  have hf := s.fracRPostNorm.isLt
  have hbit := Bool.toNat_le (roundBit s)
  rw [mantissa]
  constructor <;> omega

/-- The exponent of the product before rounding. -/
def exponentSum (s : Stage3) : ℤ := (s.expSum.toNat : ℤ) - 127 + s.normalizeBit.toNat

/-- Rounding may carry into the exponent. -/
theorem rounded_fields (s : Stage3) (h : s.expSum.toNat ≤ 510) :
    (stage4 s).expRPreExcExt.toInt * 2 ^ 23 + (stage4 s).fracRPreExc.toNat =
      exponentSum s * 2 ^ 23 + mantissa s - 2 ^ 23 := by
  have hexp := expFrac_toNat s h
  have hlt := (expFracRPostRounding s).isLt
  have hf := s.fracRPostNorm.isLt
  have hbit := Bool.toNat_le (roundBit s)
  have hnorm := Bool.toNat_le s.normalizeBit
  have hhigh : (stage4 s).expRPreExcExt.toNat = (expFracRPostRounding s).toNat / 2 ^ 24 := by
    rw [stage4, BitVec.extractLsb'_toNat, Nat.shiftRight_eq_div_pow]
    omega
  have hlow : (stage4 s).fracRPreExc.toNat = (expFracRPostRounding s).toNat / 2 % 2 ^ 23 := by
    rw [stage4, BitVec.extractLsb'_toNat, Nat.shiftRight_eq_div_pow, pow_one]
  rw [BitVec.toInt_eq_toNat_cond, hhigh, hlow, exponentSum, mantissa]
  generalize (expFracRPostRounding s).toNat = n at hexp hlt ⊢
  generalize s.fracRPostNorm.toNat = f at hexp hf ⊢
  split <;> omega

theorem toInt_signExtend14 (v : BitVec 12) : (v.signExtend 14).toInt = v.toInt :=
  BitVec.toInt_signExtend_of_le (by norm_num)

theorem toInt12_bounds (v : BitVec 12) : -2 ^ 11 ≤ v.toInt ∧ v.toInt < 2 ^ 11 :=
  ⟨BitVec.le_toInt v, BitVec.toInt_lt⟩

theorem expUdf_eq (s : Stage4) : expUdf s = decide (s.expRPreExcExt.toInt ≤ 0) := by
  obtain ⟨hlo, hhi⟩ := toInt12_bounds s.expRPreExcExt
  have hsub : (0#14 - s.expRPreExcExt.signExtend 14).toInt = -s.expRPreExcExt.toInt := by
    rw [toInt_sub_of_fits, toInt_signExtend14]
    · simp
    · rw [toInt_signExtend14, Fits]
      simp only [BitVec.toInt_zero]
      constructor <;> omega
  rw [expUdf, BitVec.msb_eq_toInt, hsub, Bool.not_eq_eq_eq_not, ← decide_not, decide_eq_decide]
  omega

theorem expOvf_eq (s : Stage4) : expOvf s = decide (255 ≤ s.expRPreExcExt.toInt) := by
  obtain ⟨hlo, hhi⟩ := toInt12_bounds s.expRPreExcExt
  have hmax : (0#6 ++ 255#8).toInt = 255 := by decide
  have hsub : (s.expRPreExcExt.signExtend 14 - (0#6 ++ 255#8)).toInt = s.expRPreExcExt.toInt - 255 := by
    rw [toInt_sub_of_fits, toInt_signExtend14, hmax]
    rw [toInt_signExtend14, hmax, Fits]
    constructor <;> omega
  rw [expOvf, BitVec.msb_eq_toInt, hsub, Bool.not_eq_eq_eq_not, ← decide_not, decide_eq_decide]
  omega

/-! ## The product -/

theorem kinds_stage4 (a b : Word) :
    (stage4 (stage3 (stage2 (stage1 a b)))).kinds = (stage1 a b).kinds := rfl

theorem excZX_eq (a b : Word) : (stage1 a b).kinds.excZX = decide (exponent a = 0) := beq_toNat _ _

theorem excZY_eq (a b : Word) : (stage1 a b).kinds.excZY = decide (exponent b = 0) := beq_toNat _ _

theorem expXIsMax_eq (a b : Word) : (stage1 a b).kinds.expXIsMax = decide (exponent a = 255) :=
  beq_toNat _ _

theorem expYIsMax_eq (a b : Word) : (stage1 a b).kinds.expYIsMax = decide (exponent b = 255) :=
  beq_toNat _ _

theorem fracXIsZero_eq (a b : Word) : (stage1 a b).kinds.fracXIsZero = decide (fraction a = 0) :=
  beq_toNat _ _

theorem fracYIsZero_eq (a b : Word) : (stage1 a b).kinds.fracYIsZero = decide (fraction b = 0) :=
  beq_toNat _ _

theorem finite_kinds {a b : Word} (ha : exponent a ≠ 255) (hb : exponent b ≠ 255) :
    (stage1 a b).kinds.expXIsMax = false ∧ (stage1 a b).kinds.expYIsMax = false := by
  rw [expXIsMax_eq, expYIsMax_eq]
  exact ⟨decide_eq_false ha, decide_eq_false hb⟩

/-- The choice that the last row makes, when neither operand is an infinity or a NaN. -/
theorem output_finite (s : Stage4) (hx : s.kinds.expXIsMax = false) (hy : s.kinds.expYIsMax = false) :
    output s =
      if s.kinds.excZX || s.kinds.excZY || expUdf s then pack s.kinds.signR 0#8 0#23
      else if expOvf s then pack s.kinds.signR 255#8 0#23
      else pack s.kinds.signR (s.expRPreExcExt.extractLsb' 0 8) s.fracRPreExc := by
  have hexclusive : expUdf s = true → expOvf s = false := by
    rw [expUdf_eq, expOvf_eq, decide_eq_true_iff, decide_eq_false_iff_not]
    omega
  obtain ⟨⟨zx, mx, fx, zy, my, fy, sign⟩, e, f⟩ := s
  simp only at hx hy
  subst hx hy
  simp only [output, Kinds.excRNaN, Kinds.excRInf, Kinds.excRZero, Kinds.signRPostExc, Kinds.excNX,
    Kinds.excNY, Kinds.excIX, Kinds.excIY, Kinds.excRX, Kinds.excRY, Kinds.zeroTimesInf]
  generalize expUdf _ = udf at hexclusive ⊢
  generalize expOvf _ = ovf at hexclusive ⊢
  cases zx <;> cases zy <;> cases udf <;> cases ovf <;> simp_all [excREnc]

theorem nearest_product (a b : Word) (ha : exponent a ≠ 0) (hb : exponent b ≠ 0) :
    nearest 24 (flushed a * flushed b) =
      mantissa (stage3 (stage2 (stage1 a b))) *
        2 ^ (exponentSum (stage3 (stage2 (stage1 a b))) - 150) := by
  obtain ⟨hlo, hhi⟩ := product_bounds a b
  have hproduct := product_toNat a b
  rw [← hproduct] at hlo hhi
  have hround := mantissa_eq _ hlo
  have hnorm := normalizeBit_eq (stage2 (stage1 a b))
  have hsum : (stage3 (stage2 (stage1 a b))).expSum.toNat = exponent a + exponent b :=
    expSum_toNat a b
  have hscaled : flushed a * flushed b = ((stage2 (stage1 a b)).cmaS.toNat : ℚ) *
      2 ^ ((exponent a : ℤ) + exponent b - 300) := by
    rw [flushed_normal ha, flushed_normal hb, hproduct,
      show (exponent a : ℤ) + exponent b - 300 = (exponent a - 150) + (exponent b - 150) by ring,
      zpow_add₀ (by norm_num)]
    push_cast
    ring
  rw [exponentSum, hsum, hscaled]
  rw [below] at hround
  generalize (stage2 (stage1 a b)).cmaS.toNat = product at hlo hhi hround hnorm ⊢
  generalize mantissa (stage3 (stage2 (stage1 a b))) = r at hround ⊢
  rw [hnorm] at hround ⊢
  by_cases hbig : 2 ^ 47 ≤ product
  · simp only [hbig, decide_true, Bool.toNat_true] at hround ⊢
    rw [nearest_scaled (p := 23) (k := 24) (by omega) (by omega), hround]
    congr 2
    push_cast
    ring
  · simp only [hbig, decide_false, Bool.toNat_false] at hround ⊢
    rw [nearest_scaled (p := 23) (k := 23) (by omega) (by omega), hround]
    congr 2
    push_cast
    ring

theorem mul_zero (a b : Word) (ha : exponent a ≠ 255) (hb : exponent b ≠ 255)
    (hzero : exponent a = 0 ∨ exponent b = 0) : mul a b = pack (sign a ^^ sign b) 0#8 0#23 := by
  have hx : ((stage1 a b).kinds.excZX || (stage1 a b).kinds.excZY) = true := by
    rw [excZX_eq, excZY_eq, Bool.or_eq_true, decide_eq_true_iff, decide_eq_true_iff]
    exact hzero
  obtain ⟨hmaxa, hmaxb⟩ := finite_kinds ha hb
  rw [mul, output_finite _ hmaxa hmaxb, kinds_stage4, hx, Bool.true_or, if_pos rfl]
  rfl

theorem mul_normal (a b : Word) (ha0 : exponent a ≠ 0) (ha : exponent a ≠ 255) (hb0 : exponent b ≠ 0)
    (hb : exponent b ≠ 255) :
    Delivers (mul a b) (sign a ^^ sign b) (nearest 24 (flushed a * flushed b)) := by
  have hzero : ((stage1 a b).kinds.excZX || (stage1 a b).kinds.excZY) = false := by
    rw [excZX_eq, excZY_eq, Bool.or_eq_false_iff, decide_eq_false_iff_not, decide_eq_false_iff_not]
    exact ⟨ha0, hb0⟩
  obtain ⟨hmaxa, hmaxb⟩ := finite_kinds ha hb
  have hsum : (stage3 (stage2 (stage1 a b))).expSum.toNat ≤ 510 := by
    have hexp : (stage3 (stage2 (stage1 a b))).expSum.toNat = exponent a + exponent b :=
      expSum_toNat a b
    have hlta := exponent_lt a
    have hltb := exponent_lt b
    omega
  obtain ⟨hlo, hhi⟩ := mantissa_bounds (stage3 (stage2 (stage1 a b)))
  have hfields := rounded_fields _ hsum
  rw [nearest_product a b ha0 hb0,
    ← carry_scale hlo hhi (stage4 (stage3 (stage2 (stage1 a b)))).fracRPreExc.isLt hfields, mul,
    output_finite _ hmaxa hmaxb, kinds_stage4, hzero, Bool.false_or, expUdf_eq, expOvf_eq]
  have hsign : (stage1 a b).kinds.signR = (sign a ^^ sign b) := rfl
  rw [hsign]
  generalize stage4 (stage3 (stage2 (stage1 a b))) = s
  have hfields := fun e f => pack_fields (sign a ^^ sign b) e f
  obtain ⟨hmin, hmost⟩ := toInt12_bounds s.expRPreExcExt
  apply Delivers.of_fields s.fracRPreExc.isLt
  · split_ifs <;> exact (hfields _ _).1
  · intro hlow
    rw [if_pos (decide_eq_true hlow)]
    exact ⟨(hfields _ _).2.1, (hfields _ _).2.2⟩
  · intro h1 h254
    have hexp : (s.expRPreExcExt.extractLsb' 0 8).toNat = s.expRPreExcExt.toNat % 2 ^ 8 := by
      rw [BitVec.extractLsb'_toNat, Nat.shiftRight_zero]
    have hcond := BitVec.toInt_eq_toNat_cond s.expRPreExcExt
    have hlt := s.expRPreExcExt.isLt
    rw [if_neg (by rw [decide_eq_true_iff]; omega), if_neg (by rw [decide_eq_true_iff]; omega),
      (hfields _ _).2.1, (hfields _ _).2.2, hexp]
    refine ⟨?_, rfl⟩
    split at hcond <;> omega
  · intro hhigh
    rw [if_neg (by rw [decide_eq_true_iff]; omega), if_pos (decide_eq_true hhigh)]
    exact ⟨(hfields _ _).2.1, (hfields _ _).2.2⟩

/-- The product of finite operands, subnormals being zeros, is rounded to the nearest and flushed. -/
theorem mul_delivers (a b : Word) (ha : exponent a ≠ 255) (hb : exponent b ≠ 255) :
    Delivers (mul a b) (sign a ^^ sign b) (nearest 24 (flushed a * flushed b)) := by
  by_cases hzero : exponent a = 0 ∨ exponent b = 0
  · have hproduct : flushed a * flushed b = 0 := by
      rcases hzero with h | h
      · rw [flushed, if_pos h, zero_mul]
      · rw [mul_comm, flushed, if_pos h, zero_mul]
    have hfields := pack_fields (sign a ^^ sign b) 0#8 0#23
    rw [mul_zero a b ha hb hzero, hproduct, nearest_zero]
    exact Delivers.of_zero hfields.1 hfields.2.1 hfields.2.2 (by positivity)
  · rw [not_or] at hzero
    exact mul_normal a b hzero.1 ha hzero.2 hb

/-! ## Infinities and NaNs -/

section exceptions

variable (s : Stage4) (hx : s.kinds.expXIsMax = true → s.kinds.excZX = false)
  (hy : s.kinds.expYIsMax = true → s.kinds.excZY = false)
include hx hy

theorem output_nan (h : s.kinds.excRNaN = true) : output s = pack false 255#8 1#23 := by
  have henc : ∀ (zx mx fx zy my fy sign udf ovf : Bool), (mx = true → zx = false) →
      (my = true → zy = false) → (Kinds.mk zx mx fx zy my fy sign).excRNaN = true →
      excREnc (BitVec.ofBool true ++ BitVec.ofBool ((Kinds.mk zx mx fx zy my fy sign).excRInf ovf) ++
        BitVec.ofBool ((Kinds.mk zx mx fx zy my fy sign).excRZero udf)) = 3#2 := by
    decide
  have hsel := henc _ _ _ _ _ _ s.kinds.signR (expUdf s) (expOvf s) hx hy h
  have hsign : s.kinds.signRPostExc = false := by
    rw [Kinds.signRPostExc, h]
    simp
  rw [output, h, hsel, hsign]
  rfl

theorem output_inf (hnan : s.kinds.excRNaN = false)
    (h : s.kinds.excIX = true ∨ s.kinds.excIY = true) :
    output s = pack s.kinds.signR 255#8 0#23 := by
  have henc : ∀ (zx mx fx zy my fy sign udf ovf : Bool), (mx = true → zx = false) →
      (my = true → zy = false) → (Kinds.mk zx mx fx zy my fy sign).excRNaN = false →
      ((Kinds.mk zx mx fx zy my fy sign).excIX = true ∨
        (Kinds.mk zx mx fx zy my fy sign).excIY = true) →
      excREnc (BitVec.ofBool false ++ BitVec.ofBool ((Kinds.mk zx mx fx zy my fy sign).excRInf ovf) ++
        BitVec.ofBool ((Kinds.mk zx mx fx zy my fy sign).excRZero udf)) = 2#2 := by
    decide
  have hsel := henc _ _ _ _ _ _ s.kinds.signR (expUdf s) (expOvf s) hx hy hnan h
  have hsign : s.kinds.signRPostExc = s.kinds.signR := by
    rw [Kinds.signRPostExc, hnan]
    simp
  rw [output, hnan, hsel, hsign]
  rfl

end exceptions

theorem kinds_max (a b : Word) :
    ((stage1 a b).kinds.expXIsMax = true → (stage1 a b).kinds.excZX = false) ∧
      ((stage1 a b).kinds.expYIsMax = true → (stage1 a b).kinds.excZY = false) := by
  rw [expXIsMax_eq, expYIsMax_eq, excZX_eq, excZY_eq]
  simp only [decide_eq_true_iff, decide_eq_false_iff_not]
  omega

/-- No number comes of these operands. -/
def NoProduct (a b : Word) : Prop :=
  IsNaN a ∨ IsNaN b ∨ (exponent a = 0 ∧ IsInf b) ∨ (exponent b = 0 ∧ IsInf a)

theorem excRNaN_iff (a b : Word) : (stage1 a b).kinds.excRNaN = true ↔ NoProduct a b := by
  simp only [NoProduct, Kinds.excRNaN, Kinds.zeroTimesInf, Kinds.excNX, Kinds.excNY, Kinds.excIX, Kinds.excIY,
    excZX_eq, excZY_eq, expXIsMax_eq, expYIsMax_eq, fracXIsZero_eq, fracYIsZero_eq, IsNaN, IsInf,
    Bool.or_eq_true, Bool.and_eq_true, Bool.not_eq_eq_eq_not, Bool.not_true, decide_eq_true_iff,
    decide_eq_false_iff_not, or_assoc]

theorem mul_nan (a b : Word) (h : NoProduct a b) : mul a b = 0x7f800001#32 := by
  obtain ⟨hx, hy⟩ := kinds_max a b
  rw [mul, output_nan _ hx hy ((excRNaN_iff a b).mpr h)]
  rfl

theorem mul_inf (a b : Word) (h : IsInf a ∨ IsInf b) (hnan : ¬NoProduct a b) :
    mul a b = pack (sign a ^^ sign b) 255#8 0#23 := by
  obtain ⟨hx, hy⟩ := kinds_max a b
  have hlow : (stage1 a b).kinds.excRNaN = false := by
    rw [Bool.eq_false_iff]
    exact fun hc => hnan ((excRNaN_iff a b).mp hc)
  have hinf : (stage1 a b).kinds.excIX = true ∨ (stage1 a b).kinds.excIY = true := by
    simpa only [Kinds.excIX, Kinds.excIY, expXIsMax_eq, expYIsMax_eq, fracXIsZero_eq,
      fracYIsZero_eq, Bool.and_eq_true, decide_eq_true_iff, IsInf] using h
  rw [mul, output_inf _ hx hy hlow hinf]
  rfl

/-! ## Streams -/

/-- What the pins carry during a cycle without a clear. -/
structure Cycle where
  en : Bool
  a : Word
  b : Word

def feed (s : State) (cycles : List Cycle) : State :=
  cycles.foldl (fun s i => step false i.en i.a i.b s) s

/-- **The multiplier.** From any state, and whatever the cycles are in which it is not enabled: three
enabled cycles after two operands the output is their product, rounded to the nearest and flushed, or
the infinity or the NaN that they make. -/
theorem product_reaches_output (s : State) (cycles before after : List Cycle) (i : Cycle)
    (hcycles : cycles.filter (·.en) = before ++ i :: after) (hafter : after.length = 3) :
    (exponent i.a ≠ 255 → exponent i.b ≠ 255 → Delivers (q false (feed s cycles))
      (sign i.a ^^ sign i.b) (nearest 24 (flushed i.a * flushed i.b))) ∧
    (NoProduct i.a i.b → q false (feed s cycles) = 0x7f800001#32) ∧
    (IsInf i.a ∨ IsInf i.b → ¬NoProduct i.a i.b →
      q false (feed s cycles) = pack (sign i.a ^^ sign i.b) 255#8 0#23) := by
  have hrow := gated_pipeline (fun (i : Cycle) s => step false i.en i.a i.b s) (·.en) view
    (fun i => mul i.a i.b) (fun i s hen => by rw [hen]; rfl)
    (fun i s hen => by rw [hen]; exact view_enabled i.a i.b s) s cycles before after i hcycles (by omega)
  simp only [hafter] at hrow
  have hout : q false (feed s cycles) = mul i.a i.b := hrow
  rw [hout]
  exact ⟨mul_delivers i.a i.b, mul_nan i.a i.b, mul_inf i.a i.b⟩

theorem product_reaches_output_at_128 : Delivers
    (q false (feed cleared (⟨true, 0x43000000#32, 0x3f000000#32⟩ :: .replicate 3 ⟨true, 0#32, 0#32⟩)))
    (sign 0x43000000#32 ^^ sign 0x3f000000#32)
    (nearest 24 (flushed 0x43000000#32 * flushed 0x3f000000#32)) :=
  (product_reaches_output cleared _ [] _ ⟨true, 0x43000000#32, 0x3f000000#32⟩ rfl rfl).1
    (by decide) (by decide)

end DsdCordic.FpMult0002
