import DsdCordic.Foundations.Flushing
import DsdCordic.Foundations.Rounding
import DsdCordic.Foundations.Shifters
import DsdCordic.Foundations.TwosComplement
import DsdCordic.Peripheral.Cores

/-! The generated adder. The operand of the larger magnitude comes first, the other is aligned to it,
and the leading zeros of the sum are counted in one row and shifted out in the next. -/
namespace DsdCordic.FpAdd0002
open Binary32 Clocked Flushing Rounding Shifters TwosComplement
set_option autoImplicit false

/-! ## The entity -/

/-- The signs, and the kind of the second operand, which travel along to the fourth row. -/
structure Kinds where
  sigA : Bool
  sigB : Bool
  excZB : Bool
  expXIsMax38 : Bool
  fracXIsZero39 : Bool

structure Stage1 where
  kinds : Kinds
  expAmExpB : BitVec 9
  fracBz : BitVec 23
  fracA : BitVec 23
  expA : BitVec 8

structure Stage2 where
  kinds : Kinds
  invExpXIsZero44 : Bool
  effSub : Bool
  stickyBitsC : BitVec 26
  cmpEQ : Bool
  fracA : BitVec 23
  expA : BitVec 8

structure Stage3 where
  kinds : Kinds
  invExpXIsZero44 : Bool
  effSub : Bool
  vCount152 : Bool
  vStagei157 : BitVec 16
  vStage154 : BitVec 12
  fracGRS : BitVec 28
  fracXIsZero25 : Bool
  expA : BitVec 8

structure Stage4 where
  kinds : Kinds
  invExpXIsZero44 : Bool
  effSub : Bool
  r179 : BitVec 5
  vStage154 : BitVec 12
  fracGRS : BitVec 28
  fracXIsZero25 : Bool
  expXIsMax24 : Bool
  excZA : Bool
  expInc : BitVec 9

structure Stage5 where
  rndExpFrac : BitVec 35
  regInputs : Bool
  signRInfRZRReg : Bool
  excNB : Bool
  excNA : Bool
  excIB : Bool
  excIA : Bool
  effSub : Bool
  aMinusA : Bool
  excZB : Bool
  excZA : Bool

structure State where
  stage1 : Stage1
  stage2 : Stage2
  stage3 : Stage3
  stage4 : Stage4
  stage5 : Stage5

/-! ### Operands -/

def xGTEy (a b : Word) : Bool :=
  let o : BitVec 33 := (0#2 ++ a.extractLsb' 0 31) - (0#2 ++ b.extractLsb' 0 31)
  !o.getLsbD 32

def aSig (a b : Word) : Word := if xGTEy a b then a else b

def bSig (a b : Word) : Word := if xGTEy a b then b else a

def stage1 (a b : Word) : Stage1 :=
  let expA := (aSig a b).extractLsb' 23 8
  let expB := (bSig a b).extractLsb' 23 8
  let fracB := (bSig a b).extractLsb' 0 23
  { kinds :=
      { sigA := (aSig a b).getLsbD 31
        sigB := (bSig a b).getLsbD 31
        excZB := expB == 0#8
        expXIsMax38 := expB == 255#8
        fracXIsZero39 := 0#23 == fracB }
    expAmExpB := (0#1 ++ expA) - (0#1 ++ expB)
    fracBz := if expB == 0#8 then 0#23 else fracB
    fracA := (aSig a b).extractLsb' 0 23
    expA := expA }

/-! ### Alignment -/

/-- Whatever would fall out of the 49 places is left out altogether. -/
def alignFracBPostShiftOut (s : Stage1) : BitVec 49 :=
  let shiftedOut63 : BitVec 11 := (0#6 ++ 25#5) - (0#2 ++ s.expAmExpB)
  let oFracB : BitVec 24 := BitVec.ofBool (!s.kinds.excZB) ++ s.fracBz
  let rightPaddedIn : BitVec 49 := oFracB ++ 0#25
  let rightShiftStage2 : BitVec 49 := rightStage 1 (s.expAmExpB.extractLsb' 0 2)
    (rightStage 4 (s.expAmExpB.extractLsb' 2 2) (rightStage 16 (s.expAmExpB.extractLsb' 4 2) rightPaddedIn))
  let shiftedOut184 : BitVec 11 := (0#2 ++ s.expAmExpB) - (0#5 ++ 49#6)
  let r219 : BitVec 49 := if !shiftedOut184.getLsbD 10 then 0#49 else rightShiftStage2
  r219 &&& (BitVec.ofBool (!shiftedOut63.getLsbD 10)).signExtend 49

def stage2 (s : Stage1) : Stage2 where
  kinds := s.kinds
  invExpXIsZero44 := !s.kinds.excZB
  effSub := s.kinds.sigA ^^ s.kinds.sigB
  stickyBitsC := (alignFracBPostShiftOut s).extractLsb' 23 26
  cmpEQ := (alignFracBPostShiftOut s).extractLsb' 0 23 == 0#23
  fracA := s.fracA
  expA := s.expA

/-! ### The sum -/

def fracGRS (s : Stage2) : BitVec 28 :=
  let fracBAddOp : BitVec 27 := 0#1 ++ s.stickyBitsC
  let fracBAddOpPostXor : BitVec 27 := fracBAddOp ^^^ (BitVec.ofBool s.effSub).signExtend 27
  let fracAAddOp : BitVec 27 := 1#2 ++ s.fracA ++ 0#1 ++ BitVec.ofBool (s.effSub && s.cmpEQ)
  let fracAddResult : BitVec 28 := (0#1 ++ fracAAddOp) + (0#1 ++ fracBAddOpPostXor)
  fracAddResult.extractLsb' 0 27 ++ BitVec.ofBool (!s.cmpEQ)

def stage3 (s : Stage2) : Stage3 :=
  let rVStage151 : BitVec 16 := (fracGRS s).extractLsb' 12 16
  let vStage154 : BitVec 12 := (fracGRS s).extractLsb' 0 12
  let cStage155 : BitVec 16 := vStage154 ++ 15#4
  { kinds := s.kinds
    invExpXIsZero44 := s.invExpXIsZero44
    effSub := s.effSub
    vCount152 := rVStage151 == 0#16
    vStagei157 := if rVStage151 == 0#16 then cStage155 else rVStage151
    vStage154 := vStage154
    fracGRS := fracGRS s
    fracXIsZero25 := 0#23 == s.fracA
    expA := s.expA }

/-! ### Normalization -/

def stage4 (s : Stage3) : Stage4 :=
  let vStagei163 := half (h := 8) s.vStagei157
  let vStagei169 := half (h := 4) vStagei163
  let vStagei175 := half (h := 2) vStagei169
  { kinds := s.kinds
    invExpXIsZero44 := s.invExpXIsZero44
    effSub := s.effSub
    r179 := BitVec.ofBool s.vCount152 ++ BitVec.ofBool (upperZero (h := 8) s.vStagei157) ++
      BitVec.ofBool (upperZero (h := 4) vStagei163) ++ BitVec.ofBool (upperZero (h := 2) vStagei169) ++
      BitVec.ofBool (upperZero (h := 1) vStagei175)
    vStage154 := s.vStage154
    fracGRS := s.fracGRS
    fracXIsZero25 := s.fracXIsZero25
    expXIsMax24 := s.expA == 255#8
    excZA := s.expA == 0#8
    expInc := (0#1 ++ s.expA) + (0#1 ++ 1#8) }

def leftShiftStage2 (s : Stage4) : BitVec 28 :=
  let leftShiftStage0 : BitVec 28 := mux4 (s.r179.extractLsb' 3 2) s.fracGRS
    (s.fracGRS.extractLsb' 0 20 ++ 0#8) (s.vStage154 ++ 0#16) (s.fracGRS.extractLsb' 0 4 ++ 0#24)
  let leftShiftStage1 : BitVec 28 := leftStage 2 (s.r179.extractLsb' 1 2) leftShiftStage0
  if s.r179.getLsbD 0 then leftShiftStage1.extractLsb' 0 27 ++ 0#1 else leftShiftStage1

/-- Of the digits below the cut only a tie that leaves an even number adds nothing. -/
def roundBit (s : Stage4) : Bool := !((leftShiftStage2 s).extractLsb' 0 5 == 8#5)

def expPostNorm (s : Stage4) : BitVec 10 := (0#1 ++ s.expInc) - (0#5 ++ s.r179)

def excRA (s : Stage4) : Bool := !s.excZA && !s.expXIsMax24

def excRB (s : Stage4) : Bool := s.invExpXIsZero44 && !s.kinds.expXIsMax38

def excIA (s : Stage4) : Bool := s.expXIsMax24 && s.fracXIsZero25

def excIB (s : Stage4) : Bool := s.kinds.expXIsMax38 && s.kinds.fracXIsZero39

def aMinusA (s : Stage4) : Bool := s.r179 == 28#5

def signRInf (s : Stage4) : Bool := (s.kinds.sigA && excIA s) || (s.kinds.sigB && excIB s)

def signRZero (s : Stage4) : Bool :=
  (s.kinds.excZB && excRA s && s.kinds.sigA) ||
    (s.excZA && s.kinds.excZB && s.kinds.sigA && s.kinds.sigB)

def signRReg (s : Stage4) : Bool := excRA s && excRB s && s.kinds.sigA && !aMinusA s

def stage5 (s : Stage4) : Stage5 where
  rndExpFrac := (0#1 ++ (expPostNorm s ++ ((leftShiftStage2 s).extractLsb' 1 27).extractLsb' 2 24)) +
    (0#34 ++ BitVec.ofBool (roundBit s))
  regInputs := excRA s && excRB s
  signRInfRZRReg := signRInf s || signRZero s || signRReg s
  excNB := s.kinds.expXIsMax38 && !s.kinds.fracXIsZero39
  excNA := s.expXIsMax24 && !s.fracXIsZero25
  excIB := excIB s
  excIA := excIA s
  effSub := s.effSub
  aMinusA := aMinusA s
  excZB := s.kinds.excZB
  excZA := s.excZA

/-! ### The result -/

def rndExp (s : Stage5) : BitVec 10 := s.rndExpFrac.extractLsb' 24 10

def rOvf (s : Stage5) : Bool := rndExp s == 255#10 || s.rndExpFrac.extractLsb' 32 2 == 1#2

def rUdf (s : Stage5) : Bool := rndExp s == 0#10 || s.rndExpFrac.getLsbD 33

def excRInf (s : Stage5) : Bool :=
  let excRInfVInC : BitVec 6 := BitVec.ofBool (s.regInputs && rOvf s) ++ BitVec.ofBool s.excNB ++
    BitVec.ofBool s.excNA ++ BitVec.ofBool s.excIB ++ BitVec.ofBool s.excIA ++ BitVec.ofBool s.effSub
  [2, 3, 4, 5, 6, 32].contains excRInfVInC.toNat

def excRZero (s : Stage5) : Bool :=
  let excRZeroVInC : BitVec 5 := BitVec.ofBool s.aMinusA ++ BitVec.ofBool (rUdf s) ++
    BitVec.ofBool s.regInputs ++ BitVec.ofBool s.excZB ++ BitVec.ofBool s.excZA
  [3, 11, 12, 19, 20, 27, 28].contains excRZeroVInC.toNat

def excRNaN (s : Stage5) : Bool := (s.excIA && s.excIB && s.effSub) || (s.excNA || s.excNB)

def excREnc (concExc : BitVec 3) : BitVec 2 :=
  [1#2, 0#2, 2#2, 2#2, 3#2, 3#2, 3#2, 3#2].getD concExc.toNat 0#2

def output (s : Stage5) : Word :=
  let enc := excREnc (BitVec.ofBool (excRNaN s) ++ BitVec.ofBool (excRInf s) ++ BitVec.ofBool (excRZero s))
  let expRPostExc := [0#8, s.rndExpFrac.extractLsb' 24 8, 255#8, 255#8].getD enc.toNat 0#8
  let fracRPostExc := [0#23, s.rndExpFrac.extractLsb' 1 23, 0#23, 1#23].getD enc.toNat 0#23
  pack (!excRNaN s && s.signRInfRZRReg) expRPostExc fracRPostExc

/-! ### The rows -/

def cleared : State :=
  let kinds : Kinds := ⟨false, false, false, false, false⟩
  { stage1 := ⟨kinds, 0#9, 0#23, 0#23, 0#8⟩
    stage2 := ⟨kinds, false, false, 0#26, false, 0#23, 0#8⟩
    stage3 := ⟨kinds, false, false, false, 0#16, 0#12, 0#28, false, 0#8⟩
    stage4 := ⟨kinds, false, false, 0#5, 0#12, 0#28, false, false, false, 0#9⟩
    stage5 := ⟨0#35, false, false, false, false, false, false, false, false, false, false⟩ }

def step (areset en : Bool) (a b : Word) (s : State) : State :=
  if areset then cleared
  else if en then
    ⟨stage1 a b, stage2 s.stage1, stage3 s.stage2, stage4 s.stage3, stage5 s.stage4⟩
  else s

def q (areset : Bool) (s : State) : Word := output (if areset then cleared else s).stage5

/-! ## The pipeline -/

/-- What the rows do to the operands of one cycle. -/
def add (a b : Word) : Word := output (stage5 (stage4 (stage3 (stage2 (stage1 a b)))))

/-- Each row as the result that will come of it. -/
def view (s : State) : Fin 5 → Word :=
  ![output (stage5 (stage4 (stage3 (stage2 s.stage1)))), output (stage5 (stage4 (stage3 s.stage2))),
    output (stage5 (stage4 s.stage3)), output (stage5 s.stage4), output s.stage5]

theorem view_enabled (a b : Word) (s : State) :
    view (step false true a b s) = advance true (add a b) (view s) := by
  have hstep : step false true a b s =
      ⟨stage1 a b, stage2 s.stage1, stage3 s.stage2, stage4 s.stage3, stage5 s.stage4⟩ := rfl
  simp only [hstep, view, add, advance_cons, advance_single]

theorem view_step {A : Type} [AddZeroClass A] (C : Cores.FpCores A) (hadd : C.add = add)
    (hclear : C.addClear = view cleared) (areset en : Bool) (a b : Word) (s : State) :
    view (step areset en a b s) = C.fpAdd areset en a b (view s) := by
  rw [Cores.FpCores.fpAdd, hclear, hadd]
  exact pipe_of_enabled view cleared s (view_enabled a b s) areset en

theorem q_view {A : Type} [AddZeroClass A] (C : Cores.FpCores A)
    (hclear : C.addClear = view cleared) (areset : Bool) (s : State) :
    q areset s = C.fpAddQ areset (view s) := by
  rw [Cores.FpCores.fpAddQ, hclear]
  exact pipeQ_view view cleared s areset

/-! ## The operands -/

/-- Exponent and fraction as one number. -/
def order (x : Word) : ℕ := exponent x * 2 ^ 23 + fraction x

theorem order_toNat (x : Word) : order x = x.toNat % 2 ^ 31 := by
  have hx := toNat_fields x
  have he := exponent_lt x
  have hf := fraction_lt x
  have hs := Bool.toNat_le (sign x)
  rw [order]
  omega

theorem xGTEy_eq (a b : Word) : xGTEy a b = decide (order b ≤ order a) := by
  have ha := order_toNat a
  have hb := order_toNat b
  rw [xGTEy, BitVec.getLsbD, Nat.testBit_eq_decide_div_mod_eq, ← decide_not, decide_eq_decide,
    BitVec.toNat_sub, toNat_append, toNat_append, BitVec.extractLsb'_toNat, BitVec.extractLsb'_toNat,
    Nat.shiftRight_zero, Nat.shiftRight_zero, BitVec.toNat_zero]
  omega

theorem aSig_of_le {a b : Word} (h : order b ≤ order a) : aSig a b = a := by
  rw [aSig, xGTEy_eq, decide_eq_true h, if_pos rfl]

theorem bSig_of_le {a b : Word} (h : order b ≤ order a) : bSig a b = b := by
  rw [bSig, xGTEy_eq, decide_eq_true h, if_pos rfl]

/-- Operands in the wrong order are exchanged. -/
theorem add_exchange {a b : Word} (h : order a < order b) : add a b = add b a := by
  have hx : xGTEy a b = false := by rw [xGTEy_eq, decide_eq_false (not_le.mpr h)]
  have ha : aSig a b = aSig b a := by
    rw [aSig_of_le h.le, aSig, hx]
    rfl
  have hb : bSig a b = bSig b a := by
    rw [bSig_of_le h.le, bSig, hx]
    rfl
  rw [add, add, stage1, stage1, ha, hb]

/-- A mantissa, which is zero when the operand counts as zero. -/
def mantissa (x : Word) : ℕ := if exponent x = 0 then 0 else 2 ^ 23 + fraction x

theorem mantissa_normal {x : Word} (h : exponent x ≠ 0) : mantissa x = 2 ^ 23 + fraction x := if_neg h

theorem mantissa_lt (x : Word) : mantissa x < 2 ^ 24 := by
  have hf := fraction_lt x
  rw [mantissa]
  split <;> omega

theorem flushed_mantissa (x : Word) : flushed x = mantissa x * 2 ^ ((exponent x : ℤ) - 150) := by
  by_cases h : exponent x = 0
  · rw [flushed, if_pos h, mantissa, if_pos h, Nat.cast_zero, zero_mul]
  · rw [flushed_normal h, mantissa, if_neg h]

/-- The second operand in the 49 places below the leading one of the first. -/
def aligned (a b : Word) : ℕ :=
  if exponent a - exponent b ≤ 25 then mantissa b * 2 ^ (25 - (exponent a - exponent b)) else 0

/-- The magnitude of the sum. -/
def digits (a b : Word) : ℕ :=
  if sign a = sign b then mantissa a * 2 ^ 25 + aligned a b else mantissa a * 2 ^ 25 - aligned a b

theorem aligned_lt (a b : Word) {c : ℕ} (hc : c ≤ 25) (h : c ≤ exponent a - exponent b) :
    aligned a b < 2 ^ (49 - c) := by
  have hm := mantissa_lt b
  rw [aligned]
  split
  · calc mantissa b * 2 ^ (25 - (exponent a - exponent b)) ≤ mantissa b * 2 ^ (25 - c) :=
          Nat.mul_le_mul_left _ (Nat.pow_le_pow_right (by norm_num) (by omega))
      _ < 2 ^ 24 * 2 ^ (25 - c) := Nat.mul_lt_mul_of_pos_right hm (Nat.two_pow_pos _)
      _ = 2 ^ (49 - c) := by rw [← pow_add]; congr 1; omega
  · exact Nat.two_pow_pos _

theorem digits_far {a b : Word} (h : ¬exponent a - exponent b ≤ 25) :
    digits a b = mantissa a * 2 ^ 25 := by
  rw [digits, aligned, if_neg h, Nat.add_zero, Nat.sub_zero, ite_self]

theorem digits_zero (a : Word) {b : Word} (h : exponent b = 0) : digits a b = mantissa a * 2 ^ 25 := by
  rw [digits, aligned, mantissa, mantissa, if_pos h, Nat.zero_mul, ite_self, Nat.add_zero, Nat.sub_zero,
    ite_self]

/-- Digits are lost below the jammed place only when the operands are far apart. -/
theorem aligned_mod (a b : Word) (h : exponent a - exponent b ≤ 2) : aligned a b % 2 ^ 23 = 0 := by
  rw [aligned, if_pos (by omega)]
  obtain ⟨c, hc⟩ : ∃ c, 25 - (exponent a - exponent b) = c + 23 := ⟨2 - (exponent a - exponent b), by omega⟩
  rw [hc, pow_add, ← Nat.mul_assoc, Nat.mul_mod_left]

section ordered

variable {a b : Word} (h : order b ≤ order a)
include h

theorem exponent_le : exponent b ≤ exponent a := by
  have ha := fraction_lt a
  have hb := fraction_lt b
  rw [order, order] at h
  omega

theorem expAmExpB_toNat : (stage1 a b).expAmExpB.toNat = exponent a - exponent b := by
  have hle := exponent_le h
  have ha := exponent_lt a
  simp only [exponent] at hle ha ⊢
  simp only [stage1, aSig_of_le h, bSig_of_le h, BitVec.toNat_sub, toNat_append, BitVec.toNat_zero]
  omega

theorem excZB_eq : (stage1 a b).kinds.excZB = decide (exponent b = 0) := by
  have hz : (stage1 a b).kinds.excZB = ((bSig a b).extractLsb' 23 8 == 0#8) := rfl
  rw [hz, bSig_of_le h]
  exact beq_toNat _ _

theorem oFracB_toNat :
    (BitVec.ofBool (!(stage1 a b).kinds.excZB) ++ (stage1 a b).fracBz).toNat = mantissa b := by
  have hz : (stage1 a b).kinds.excZB = ((bSig a b).extractLsb' 23 8 == 0#8) := rfl
  have hfrac : (stage1 a b).fracBz = if (stage1 a b).kinds.excZB then 0#23 else b.extractLsb' 0 23 := by
    rw [hz, bSig_of_le h, stage1, bSig_of_le h]
  rw [toNat_append, hfrac, excZB_eq h, mantissa, fraction]
  by_cases h0 : exponent b = 0
  · rw [if_pos h0, decide_eq_true h0]
    rfl
  · rw [if_neg h0, decide_eq_false h0]
    simp

/-- The aligned mantissa: nothing is lost, or all of it. -/
theorem aligned_toNat : (alignFracBPostShiftOut (stage1 a b)).toNat = aligned a b := by
  rw [aligned]
  have hd := expAmExpB_toNat h
  have hmant := oFracB_toNat h
  have ha := exponent_lt a
  have hfar : (!((0#6 ++ 25#5) - (0#2 ++ (stage1 a b).expAmExpB)).getLsbD 10) =
      decide (exponent a - exponent b ≤ 25) := by
    rw [BitVec.getLsbD, Nat.testBit_eq_decide_div_mod_eq, ← decide_not, decide_eq_decide,
      BitVec.toNat_sub, toNat_append, toNat_append, hd]
    simp only [BitVec.toNat_ofNat]
    omega
  have hout : (!((0#2 ++ (stage1 a b).expAmExpB) - (0#5 ++ 49#6)).getLsbD 10) =
      decide (49 ≤ exponent a - exponent b) := by
    rw [BitVec.getLsbD, Nat.testBit_eq_decide_div_mod_eq, ← decide_not, decide_eq_decide,
      BitVec.toNat_sub, toNat_append, toNat_append, hd]
    simp only [BitVec.toNat_ofNat]
    omega
  rw [alignFracBPostShiftOut, and_signExtend, hfar, hout]
  by_cases hle : exponent a - exponent b ≤ 25
  · have hdigits : ((stage1 a b).expAmExpB.extractLsb' 4 2).toNat * 16 +
        ((stage1 a b).expAmExpB.extractLsb' 2 2).toNat * 4 +
        ((stage1 a b).expAmExpB.extractLsb' 0 2).toNat * 1 = exponent a - exponent b := by
      simp only [BitVec.extractLsb'_toNat, Nat.shiftRight_eq_div_pow, hd]
      omega
    have hsplit : 2 ^ 25 = 2 ^ (25 - (exponent a - exponent b)) * 2 ^ (exponent a - exponent b) := by
      rw [← pow_add, Nat.sub_add_cancel hle]
    rw [decide_eq_true hle, if_pos rfl, if_pos hle, decide_eq_false (by omega), if_neg (by simp)]
    simp only [rightStage_toNat, div_pow_div_pow]
    rw [hdigits, toNat_append, hmant, BitVec.toNat_zero, Nat.add_zero, hsplit, ← Nat.mul_assoc,
      Nat.mul_div_cancel _ (Nat.two_pow_pos _)]
  · rw [decide_eq_false hle, if_neg hle]
    rfl

theorem aligned_le (h0 : exponent a ≠ 0) : aligned a b ≤ mantissa a * 2 ^ 25 := by
  have hle := exponent_le h
  by_cases hsame : exponent a = exponent b
  · have hb0 : exponent b ≠ 0 := hsame ▸ h0
    rw [order, order, hsame] at h
    rw [aligned, hsame, Nat.sub_self, if_pos (Nat.zero_le 25), mantissa_normal h0, mantissa_normal hb0]
    exact Nat.mul_le_mul_right _ (by omega)
  · have hlt := aligned_lt a b (c := 1) (by omega) (by omega)
    rw [mantissa_normal h0]
    omega

/-- The adder gives the digits of the magnitude down to the guard digits, and the rest jammed. -/
theorem fracGRS_toNat (h0 : exponent a ≠ 0) :
    (fracGRS (stage2 (stage1 a b))).toNat = jam 23 (digits a b) := by
  have hal := aligned_toNat h
  have hle := aligned_le h h0
  have hlt := aligned_lt a b (c := 0) (by omega) (by omega)
  have hfrac : (stage1 a b).fracA.toNat = fraction a := by
    rw [stage1, aSig_of_le h]
    rfl
  have hfa := fraction_lt a
  have hsub : (stage2 (stage1 a b)).effSub = (sign a ^^ sign b) := by
    rw [stage2, stage1, aSig_of_le h, bSig_of_le h]
    rfl
  have hc : (stage2 (stage1 a b)).stickyBitsC.toNat = aligned a b / 2 ^ 23 := by
    rw [stage2, BitVec.extractLsb'_toNat, Nat.shiftRight_eq_div_pow, hal]
    omega
  have heq : (stage2 (stage1 a b)).cmpEQ = decide (aligned a b % 2 ^ 23 = 0) := by
    rw [← hal, stage2, beq_toNat, BitVec.extractLsb'_toNat, Nat.shiftRight_zero]
    rfl
  have hfracA : (stage2 (stage1 a b)).fracA = (stage1 a b).fracA := rfl
  rw [mantissa_normal h0] at hle
  rw [fracGRS, xor_signExtend, hsub, heq, hfracA, digits, jam, mantissa_normal h0]
  simp only [toNat_append, BitVec.extractLsb'_toNat, Nat.shiftRight_zero, BitVec.toNat_add,
    BitVec.toNat_ofBool, BitVec.toNat_ofNat, hfrac]
  generalize aligned a b = al at hle hlt hc ⊢
  generalize fraction a = fa at hle hfa ⊢
  by_cases hsame : sign a = sign b
  · rw [if_pos hsame, hsame, Bool.xor_self, if_neg (by simp), Bool.false_and, toNat_append, hc]
    by_cases hzero : al % 2 ^ 23 = 0
    · rw [decide_eq_true hzero, if_pos (by omega)]
      simp
      omega
    · rw [decide_eq_false hzero, if_neg (by omega)]
      simp
      omega
  · have hxor : (sign a ^^ sign b) = true := by simpa using hsame
    rw [if_neg hsame, hxor, if_pos rfl, Bool.true_and, BitVec.toNat_not, toNat_append, hc]
    by_cases hzero : al % 2 ^ 23 = 0
    · rw [decide_eq_true hzero, if_pos (by omega)]
      simp
      omega
    · rw [decide_eq_false hzero, if_neg (by omega)]
      simp
      omega

end ordered

/-! ## Normalization -/

theorem vStagei157_pos (s : Stage2) : 0 < (stage3 s).vStagei157.toNat := by
  have hrow : (stage3 s).vStagei157 = if (fracGRS s).extractLsb' 12 16 == 0#16 then
      (fracGRS s).extractLsb' 0 12 ++ 15#4 else (fracGRS s).extractLsb' 12 16 := rfl
  rw [hrow]
  split
  · rw [toNat_append]
    exact Nat.add_pos_right _ (by norm_num)
  · next hne =>
    rw [beq_iff_eq, ← BitVec.toNat_inj, BitVec.toNat_zero] at hne
    exact Nat.pos_of_ne_zero hne

theorem leadingZeros_fracGRS (s : Stage2) (c : ℕ) (h : 0 < (fracGRS s).toNat)
    (hc : LeadingZeros 16 (stage3 s).vStagei157.toNat c) :
    LeadingZeros 28 (fracGRS s).toNat ((stage3 s).vCount152.toNat * 16 + c) := by
  have hlt := (fracGRS s).isLt
  have hupper : ((fracGRS s).extractLsb' 12 16).toNat = (fracGRS s).toNat / 2 ^ 12 := by
    rw [BitVec.extractLsb'_toNat, Nat.shiftRight_eq_div_pow]
    omega
  have hcount : (stage3 s).vCount152 = decide ((fracGRS s).toNat / 2 ^ 12 = 0) := by
    rw [← hupper]
    exact beq_toNat _ _
  have hrow : (stage3 s).vStagei157 = if (stage3 s).vCount152 then
      (fracGRS s).extractLsb' 0 12 ++ 15#4 else (fracGRS s).extractLsb' 12 16 := rfl
  rw [hrow, hcount] at hc
  rw [hcount]
  by_cases hzero : (fracGRS s).toNat / 2 ^ 12 = 0
  · rw [if_pos (decide_eq_true hzero), toNat_append, BitVec.extractLsb'_toNat, Nat.shiftRight_zero,
      Nat.mod_eq_of_lt (by omega)] at hc
    rw [decide_eq_true hzero, Bool.toNat_true, Nat.one_mul]
    exact leadingZeros_lower 16 (leadingZeros_pad (w := 12) (k := 4) h hc)
  · rw [if_neg (by simpa using hzero), hupper] at hc
    rw [decide_eq_false hzero, Bool.toNat_false, Nat.zero_mul, Nat.zero_add]
    exact leadingZeros_upper hc

theorem r179_leading (s : Stage2) (h : 0 < (fracGRS s).toNat) :
    LeadingZeros 28 (fracGRS s).toNat (stage4 (stage3 s)).r179.toNat := by
  have h8 := half_pos (h := 8) (vStagei157_pos s)
  have h4 := half_pos (h := 4) h8
  have h2 := half_pos (h := 2) h4
  have hcount := leadingZeros_half (h := 8) (leadingZeros_half (h := 4) (leadingZeros_half (h := 2)
    (leadingZeros_last h2)))
  convert leadingZeros_fracGRS s _ h hcount using 1
  simp only [stage4, toNat_append, BitVec.toNat_ofBool]
  ring

theorem r179_zero (s : Stage2) (h : fracGRS s = 0#28) : (stage4 (stage3 s)).r179 = 28#5 := by
  have hcount : (stage3 s).vCount152 = true := by
    rw [stage3, h]
    rfl
  have hrow : (stage3 s).vStagei157 = 15#16 := by
    rw [stage3, h]
    rfl
  rw [stage4, hcount, hrow]
  rfl

/-- The count tells whether anything is left. -/
theorem aMinusA_eq (s : Stage2) : aMinusA (stage4 (stage3 s)) = decide ((fracGRS s).toNat = 0) := by
  rw [aMinusA, beq_toNat, decide_eq_decide]
  by_cases h : (fracGRS s).toNat = 0
  · rw [r179_zero s (BitVec.eq_of_toNat_eq h)]
    simp [h]
  · have hlt := (r179_leading s (Nat.pos_of_ne_zero h)).lt
    simp only [BitVec.toNat_ofNat]
    omega

theorem leftShiftStage2_toNat (s : Stage4) (h : s.vStage154 = s.fracGRS.extractLsb' 0 12) :
    (leftShiftStage2 s).toNat = s.fracGRS.toNat * 2 ^ s.r179.toNat % 2 ^ 28 := by
  have hshift : mux4 (s.r179.extractLsb' 3 2) s.fracGRS (s.fracGRS.extractLsb' 0 20 ++ 0#8)
      (s.vStage154 ++ 0#16) (s.fracGRS.extractLsb' 0 4 ++ 0#24) =
        leftStage 8 (s.r179.extractLsb' 3 2) s.fracGRS := by
    have h8 : s.fracGRS.extractLsb' 0 20 ++ 0#8 = s.fracGRS <<< 8 := extract_append_zero (w := 20) _
    have h16 : s.fracGRS.extractLsb' 0 12 ++ 0#16 = s.fracGRS <<< (2 * 8) :=
      extract_append_zero (w := 12) _
    have h24 : s.fracGRS.extractLsb' 0 4 ++ 0#24 = s.fracGRS <<< (3 * 8) :=
      extract_append_zero (w := 4) _
    rw [leftStage, h, h8, h16, h24]
  have hlast : ∀ v : BitVec 28, (if s.r179.getLsbD 0 then v.extractLsb' 0 27 ++ 0#1 else v).toNat =
      v.toNat * 2 ^ (s.r179.toNat % 2) % 2 ^ 28 := by
    intro v
    have hv := v.isLt
    rw [BitVec.getLsbD, Nat.testBit_zero]
    rcases Nat.mod_two_eq_zero_or_one s.r179.toNat with hbit | hbit <;> rw [hbit]
    · rw [pow_zero, Nat.mul_one, Nat.mod_eq_of_lt hv]
      rfl
    · simp only [decide_true, if_true, toNat_append, BitVec.extractLsb'_toNat, Nat.shiftRight_zero,
        BitVec.toNat_zero]
      omega
  have hr := s.r179.isLt
  rw [leftShiftStage2, hshift, hlast, leftStage_toNat, leftStage_toNat, mul_pow_mod_mul_pow,
    mul_pow_mod_mul_pow]
  simp only [BitVec.extractLsb'_toNat, Nat.shiftRight_eq_div_pow]
  congr 3
  omega

/-! ## Rounding -/

theorem roundBit_eq (s : Stage4) :
    roundBit s = !decide ((leftShiftStage2 s).toNat / 2 ^ 3 % 4 = 1 ∧
      (leftShiftStage2 s).toNat % 2 ^ 3 = 0) := by
  rw [roundBit, Bool.not_inj_iff, beq_toNat, BitVec.extractLsb'_toNat, Nat.shiftRight_zero,
    decide_eq_decide, BitVec.toNat_ofNat]
  omega

/-- The mantissa of the sum, rounded. -/
def rounded (s : Stage4) : ℕ := ((leftShiftStage2 s).toNat / 2 ^ 3 + (roundBit s).toNat) / 2

theorem rounded_eq (s : Stage4) :
    roundEven (((leftShiftStage2 s).toNat : ℚ) / 2 ^ 4) = rounded s := by
  rw [roundEven_guard, rounded, roundBit_eq]
  by_cases h : (leftShiftStage2 s).toNat / 2 ^ 3 % 4 = 1 ∧ (leftShiftStage2 s).toNat % 2 ^ 3 = 0
  · rw [if_pos h, decide_eq_true h]
    rfl
  · rw [if_neg h, decide_eq_false h]
    rfl

theorem rounded_bounds (s : Stage4) (h : 2 ^ 27 ≤ (leftShiftStage2 s).toNat) :
    2 ^ 23 ≤ rounded s ∧ rounded s ≤ 2 ^ 24 := by
  have hlt := (leftShiftStage2 s).isLt
  have hbit := Bool.toNat_le (roundBit s)
  rw [rounded]
  constructor <;> omega

/-- The exponent of the sum before rounding. -/
def exponentSum (s : Stage4) : ℤ := (s.expInc.toNat : ℤ) - s.r179.toNat

theorem rndExpFrac_toNat (s : Stage4) :
    ((stage5 s).rndExpFrac.toNat : ℤ) = exponentSum s % 2 ^ 10 * 2 ^ 24 +
      (leftShiftStage2 s).toNat / 2 ^ 3 % 2 ^ 24 + (roundBit s).toNat := by
  have hr := s.r179.isLt
  have he := s.expInc.isLt
  have hbit := Bool.toNat_le (roundBit s)
  have hlt := (leftShiftStage2 s).isLt
  have hlow : (((leftShiftStage2 s).extractLsb' 1 27).extractLsb' 2 24).toNat =
      (leftShiftStage2 s).toNat / 2 ^ 3 % 2 ^ 24 := by
    rw [BitVec.extractLsb'_toNat, BitVec.extractLsb'_toNat, Nat.shiftRight_eq_div_pow,
      Nat.shiftRight_eq_div_pow]
    omega
  have hexp : ((expPostNorm s).toNat : ℤ) = exponentSum s % 2 ^ 10 := by
    rw [expPostNorm, exponentSum, BitVec.toNat_sub, toNat_append, toNat_append, BitVec.toNat_zero,
      BitVec.toNat_zero]
    omega
  have hexplt := (expPostNorm s).isLt
  rw [stage5, BitVec.toNat_add, toNat_append, toNat_append, toNat_append, hlow, ← hexp,
    BitVec.toNat_ofBool, BitVec.toNat_zero, BitVec.toNat_zero]
  omega

/-- Rounding may carry into the exponent. -/
theorem rounded_fields (s : Stage4) (h : 2 ^ 27 ≤ (leftShiftStage2 s).toNat)
    (he : s.expInc.toNat ≤ 256) :
    (rndExp (stage5 s)).toInt * 2 ^ 23 + ((stage5 s).rndExpFrac.extractLsb' 1 23).toNat =
      exponentSum s * 2 ^ 23 + rounded s - 2 ^ 23 := by
  have hr := s.r179.isLt
  have hbit := Bool.toNat_le (roundBit s)
  have hlt := (leftShiftStage2 s).isLt
  have htotal := rndExpFrac_toNat s
  have hhigh : (rndExp (stage5 s)).toNat = (stage5 s).rndExpFrac.toNat / 2 ^ 24 % 2 ^ 10 := by
    rw [rndExp, BitVec.extractLsb'_toNat, Nat.shiftRight_eq_div_pow]
  have hlow : ((stage5 s).rndExpFrac.extractLsb' 1 23).toNat =
      (stage5 s).rndExpFrac.toNat / 2 % 2 ^ 23 := by
    rw [BitVec.extractLsb'_toNat, Nat.shiftRight_eq_div_pow, pow_one]
  rw [BitVec.toInt_eq_toNat_cond, hhigh, hlow, rounded]
  rw [exponentSum] at htotal ⊢
  generalize (stage5 s).rndExpFrac.toNat = n at htotal ⊢
  generalize (leftShiftStage2 s).toNat = m at h hlt htotal ⊢
  split <;> omega

theorem rOvf_eq (s : Stage5) : rOvf s = decide (255 ≤ (rndExp s).toInt) := by
  have hlt := (rndExp s).isLt
  have htop : (s.rndExpFrac.extractLsb' 32 2).toNat = (rndExp s).toNat / 2 ^ 8 := by
    rw [rndExp, BitVec.extractLsb'_toNat, BitVec.extractLsb'_toNat, Nat.shiftRight_eq_div_pow,
      Nat.shiftRight_eq_div_pow]
    omega
  rw [rOvf, beq_toNat, beq_toNat, htop, Bool.eq_iff_iff, Bool.or_eq_true, decide_eq_true_iff,
    decide_eq_true_iff, decide_eq_true_iff, BitVec.toInt_eq_toNat_cond, BitVec.toNat_ofNat,
    BitVec.toNat_ofNat]
  split <;> omega

theorem rUdf_eq (s : Stage5) : rUdf s = decide ((rndExp s).toInt ≤ 0) := by
  have hlt := (rndExp s).isLt
  have htop : s.rndExpFrac.getLsbD 33 = decide ((rndExp s).toNat / 2 ^ 9 = 1) := by
    rw [rndExp, BitVec.extractLsb'_toNat, Nat.shiftRight_eq_div_pow, BitVec.getLsbD,
      Nat.testBit_eq_decide_div_mod_eq, decide_eq_decide]
    omega
  rw [rUdf, beq_toNat, htop, Bool.eq_iff_iff, Bool.or_eq_true, decide_eq_true_iff,
    decide_eq_true_iff, decide_eq_true_iff, BitVec.toInt_eq_toNat_cond, BitVec.toNat_zero]
  split <;> omega

/-! ## The sum -/

/-- The row in which the sum of two operands is normalized. -/
def normalizing (a b : Word) : Stage4 := stage4 (stage3 (stage2 (stage1 a b)))

section ordered

variable {a b : Word} (h : order b ≤ order a)
include h

theorem expInc_toNat : (normalizing a b).expInc.toNat = exponent a + 1 := by
  have ha := exponent_lt a
  have hrow : (normalizing a b).expInc = (0#1 ++ (aSig a b).extractLsb' 23 8) + (0#1 ++ 1#8) := rfl
  rw [exponent] at ha ⊢
  rw [hrow, aSig_of_le h, BitVec.toNat_add, toNat_append, toNat_append, BitVec.toNat_zero]
  simp only [BitVec.toNat_ofNat]
  omega

variable (h0 : exponent a ≠ 0)
include h0

theorem aMinusA_digits : aMinusA (normalizing a b) = decide (digits a b = 0) := by
  rw [normalizing, aMinusA_eq, fracGRS_toNat h h0, decide_eq_decide]
  exact jam_eq_zero_iff _ _

variable (hV : digits a b ≠ 0)
include hV

theorem normalizing_leading :
    LeadingZeros 28 (jam 23 (digits a b)) (normalizing a b).r179.toNat := by
  rw [← fracGRS_toNat h h0]
  apply r179_leading
  rw [fracGRS_toNat h h0]
  exact Nat.pos_of_ne_zero fun hzero => hV ((jam_eq_zero_iff _ _).mp hzero)

theorem normalizing_toNat : (leftShiftStage2 (normalizing a b)).toNat =
    jam 23 (digits a b) * 2 ^ (normalizing a b).r179.toNat := by
  have hrow : (normalizing a b).fracGRS = fracGRS (stage2 (stage1 a b)) := rfl
  have hshift := leftShiftStage2_toNat (normalizing a b) rfl
  rwa [hrow, fracGRS_toNat h h0, Nat.mod_eq_of_lt (normalizing_leading h h0 hV).2] at hshift

theorem normalizing_ge : 2 ^ 27 ≤ (leftShiftStage2 (normalizing a b)).toNat := by
  have hlo := (normalizing_leading h h0 hV).1
  rw [normalizing_toNat h h0 hV]
  omega

/-- Much is cancelled only where nothing has been cut off. -/
theorem count_bounds : (normalizing a b).r179.toNat ≤ 26 ∧
    (digits a b % 2 ^ 23 = 0 ∨ (normalizing a b).r179.toNat ≤ 2) := by
  obtain ⟨-, hhi⟩ := normalizing_leading h h0 hV
  generalize (normalizing a b).r179.toNat = r at hhi ⊢
  have hcount : ∀ c, 2 ^ c ≤ jam 23 (digits a b) → r < 28 - c := by
    intro c hc
    by_contra hr
    have hpow : 2 ^ (28 - c) ≤ 2 ^ r := Nat.pow_le_pow_right (by norm_num) (by omega)
    have hmul := Nat.mul_le_mul hc hpow
    rw [← pow_add] at hmul
    have hle : 2 ^ 28 ≤ 2 ^ (c + (28 - c)) := Nat.pow_le_pow_right (by norm_num) (by omega)
    omega
  have hdiv := jam_div 23 (digits a b)
  by_cases hzero : digits a b % 2 ^ 23 = 0
  · have hexact := jam_exact hzero
    have := hcount 1 (by omega)
    exact ⟨by omega, Or.inl hzero⟩
  · have hfar : 3 ≤ exponent a - exponent b := by
      by_contra hnear
      have hal := aligned_mod a b (by omega)
      apply hzero
      rw [digits]
      split <;> omega
    have hlt := aligned_lt a b (c := 3) (by omega) hfar
    have hbig : 2 ^ 47 ≤ digits a b := by
      rw [digits, mantissa_normal h0]
      split <;> omega
    have := hcount 25 (by omega)
    exact ⟨by omega, Or.inr (by omega)⟩

/-- The row rounds the digits of the sum to the nearest. -/
theorem nearest_digits : nearest 24 ((digits a b : ℚ) * 2 ^ ((exponent a : ℤ) - 175)) =
    rounded (normalizing a b) * 2 ^ (exponentSum (normalizing a b) - 150) := by
  obtain ⟨hlo, hhi⟩ := normalizing_leading h h0 hV
  obtain ⟨hr, hexact⟩ := count_bounds h h0 hV
  have hround := rounded_eq (normalizing a b)
  rw [normalizing_toNat h h0 hV] at hround
  rw [exponentSum, expInc_toNat h]
  generalize (normalizing a b).r179.toNat = r at hlo hhi hr hexact hround ⊢
  obtain ⟨k, hk⟩ : ∃ k, k + r = 26 := ⟨26 - r, by omega⟩
  have hscale : 2 ^ (k + 1) * 2 ^ r = 2 ^ 27 := by
    rw [← pow_add]
    congr 1
    omega
  have hlo' : 2 ^ (k + 1) ≤ jam 23 (digits a b) := by
    apply Nat.le_of_mul_le_mul_right _ (Nat.two_pow_pos r)
    omega
  have hhi' : jam 23 (digits a b) < 2 ^ (k + 2) := by
    apply Nat.lt_of_mul_lt_mul_right (a := 2 ^ r)
    calc jam 23 (digits a b) * 2 ^ r < 2 ^ 28 := hhi
      _ = 2 ^ (k + 1) * 2 ^ r * 2 := by rw [hscale]; norm_num
      _ = 2 ^ (k + 2) * 2 ^ r := by ring
  obtain ⟨hn, hn'⟩ := jam_bounds hlo' hhi'
  have hcut : ((jam 23 (digits a b) * 2 ^ r : ℕ) : ℚ) / 2 ^ 4 =
      jam 23 (digits a b) * 2 ^ 23 / 2 ^ (k + 1) := by
    have hq : (2 : ℚ) ^ (k + 1) * 2 ^ r = 2 ^ 27 := by exact_mod_cast hscale
    rw [div_eq_div_iff (by positivity) (by positivity)]
    push_cast
    calc (jam 23 (digits a b) : ℚ) * 2 ^ r * 2 ^ (k + 1) =
          jam 23 (digits a b) * (2 ^ (k + 1) * 2 ^ r) := by ring
      _ = jam 23 (digits a b) * 2 ^ 23 * 2 ^ 4 := by rw [hq]; ring
  rw [nearest_scaled hn hn', ← roundEven_jammed (hexact.imp_right fun _ => by omega), ← hcut, hround]
  congr 2
  push_cast
  omega

end ordered

/-- The magnitude of the sum of two operands in order. -/
def exact (a b : Word) : ℚ :=
  if sign a = sign b then flushed a + flushed b else flushed a - flushed b

theorem flushed_places (x : Word) :
    flushed x = (mantissa x * 2 ^ 25 : ℕ) * 2 ^ ((exponent x : ℤ) - 175) := by
  have hexp : (2 : ℚ) ^ ((exponent x : ℤ) - 150) = 2 ^ 25 * 2 ^ ((exponent x : ℤ) - 175) := by
    rw [← zpow_natCast, ← zpow_add₀ (by norm_num)]
    congr 1
    push_cast
    ring
  rw [flushed_mantissa, hexp, Nat.cast_mul, Nat.cast_pow, mul_assoc]
  rfl

theorem exact_near {a b : Word} (h : order b ≤ order a) (h0 : exponent a ≠ 0)
    (hd : exponent a - exponent b ≤ 25) : exact a b = digits a b * 2 ^ ((exponent a : ℤ) - 175) := by
  have hle := exponent_le h
  have hal := aligned_le h h0
  have hb : flushed b = aligned a b * 2 ^ ((exponent a : ℤ) - 175) := by
    have hexp : (exponent b : ℤ) - 150 = (25 - (exponent a - exponent b) : ℕ) + (exponent a - 175) := by
      omega
    rw [flushed_mantissa, hexp, zpow_add₀ (by norm_num), zpow_natCast, aligned, if_pos hd]
    push_cast
    ring
  rw [exact, digits, flushed_places a, hb]
  split
  · rw [Nat.cast_add, add_mul]
  · rw [Nat.cast_sub hal, sub_mul]

theorem nearest_exact {a b : Word} (h : order b ≤ order a) (h0 : exponent a ≠ 0) :
    nearest 24 (exact a b) = nearest 24 (digits a b * 2 ^ ((exponent a : ℤ) - 175)) := by
  have hle := exponent_le h
  by_cases hd : exponent a - exponent b ≤ 25
  · rw [exact_near h h0 hd]
  · have hm := mantissa_lt a
    have hm0 : 2 ^ 23 ≤ mantissa a := by
      rw [mantissa_normal h0]
      omega
    have hb := mantissa_lt b
    have hexp : (exponent a : ℤ) - 150 = (exponent b - 150) + (exponent a - exponent b : ℕ) := by omega
    have ha : flushed a = (mantissa a * 2 ^ (exponent a - exponent b) : ℕ) *
        2 ^ ((exponent b : ℤ) - 150) := by
      rw [flushed_mantissa, hexp, zpow_add₀ (by norm_num), zpow_natCast]
      push_cast
      ring
    have hdigits : (digits a b : ℚ) * 2 ^ ((exponent a : ℤ) - 175) = flushed a := by
      rw [digits_far hd, flushed_places]
    rw [hdigits, flushed_mantissa a, nearest_self (p := 23) hm0 hm, hexp, exact]
    split
    · rw [← nearest_far_add (p := 23) (e := (exponent b : ℤ) - 150) hm0 hm hb (by omega), ha,
        flushed_mantissa b, Nat.cast_add, add_mul]
    · have hsub : mantissa b ≤ mantissa a * 2 ^ (exponent a - exponent b) := by
        have hpow : 2 ^ 24 ≤ 2 ^ (exponent a - exponent b) := Nat.pow_le_pow_right (by norm_num) (by omega)
        have := Nat.le_mul_of_pos_left (2 ^ (exponent a - exponent b)) (lt_of_lt_of_le (by norm_num) hm0)
        omega
      rw [← nearest_far_sub (p := 23) (e := (exponent b : ℤ) - 150) hm0 hm hb (by omega), ha,
        flushed_mantissa b, Nat.cast_sub hsub, sub_mul]

theorem digits_eq_zero_iff {a b : Word} (h : order b ≤ order a) (h0 : exponent a ≠ 0) :
    digits a b = 0 ↔ exact a b = 0 := by
  constructor
  · intro hV
    have hd : exponent a - exponent b ≤ 25 := by
      by_contra hd
      rw [digits_far hd, mantissa_normal h0] at hV
      omega
    rw [exact_near h h0 hd, hV, Nat.cast_zero, zero_mul]
  · intro hexact
    by_contra hV
    have hround := nearest_digits h h0 hV
    rw [← nearest_exact h h0, hexact, nearest_zero] at hround
    have hpos := (rounded_bounds _ (normalizing_ge h h0 hV)).1
    have hq : (0 : ℚ) < rounded (normalizing a b) := by
      exact_mod_cast lt_of_lt_of_le (by norm_num) hpos
    have := mul_pos hq (zpow_pos (show (0 : ℚ) < 2 by norm_num) (exponentSum (normalizing a b) - 150))
    linarith

theorem flushed_mono {a b : Word} (h : order b ≤ order a) : flushed b ≤ flushed a := by
  have hle := exponent_le h
  by_cases hb : exponent b = 0
  · rw [flushed, if_pos hb]
    exact flushed_nonneg a
  · have ha : exponent a ≠ 0 := by omega
    obtain ⟨-, hhi⟩ := scale_bounds (fraction_lt b) (exponent b)
    obtain ⟨hlo, -⟩ := scale_bounds (fraction_lt a) (exponent a)
    rw [flushed_normal ha, flushed_normal hb]
    push_cast
    by_cases hsame : exponent a = exponent b
    · have hf : (fraction b : ℚ) ≤ fraction a := by
        rw [order, order, hsame] at h
        exact_mod_cast Nat.le_of_add_le_add_left h
      rw [hsame]
      exact mul_le_mul_of_nonneg_right (by linarith) (by positivity)
    · have hpow : (2 : ℚ) ^ ((exponent b : ℤ) - 126) ≤ 2 ^ ((exponent a : ℤ) - 127) :=
        zpow_le_zpow_right₀ (by norm_num) (by omega)
      linarith

/-! ## The result -/

/-- The choice of the last row, when neither operand is an infinity or a NaN. -/
theorem output_finite (s : Stage5) (hna : s.excNA = false) (hnb : s.excNB = false)
    (hia : s.excIA = false) (hib : s.excIB = false) (hza : s.excZA = false)
    (hreg : s.regInputs = !s.excZB) (ham : s.aMinusA = true → s.effSub = true)
    (hsub : s.effSub = true → rOvf s = false) :
    output s =
      if !s.excZB && (rUdf s || s.aMinusA) then pack s.signRInfRZRReg 0#8 0#23
      else if !s.excZB && rOvf s then pack s.signRInfRZRReg 255#8 0#23
      else pack s.signRInfRZRReg (s.rndExpFrac.extractLsb' 24 8) (s.rndExpFrac.extractLsb' 1 23) := by
  have hexclusive : rUdf s = true → rOvf s = false := by
    rw [rUdf_eq, rOvf_eq, decide_eq_true_iff, decide_eq_false_iff_not]
    omega
  have henc : ∀ zb udf am ovf sub : Bool, (udf = true → ovf = false) → (am = true → sub = true) →
      (sub = true → ovf = false) →
      excREnc (BitVec.ofBool false ++
        BitVec.ofBool ([2, 3, 4, 5, 6, 32].contains (BitVec.ofBool (!zb && ovf) ++ BitVec.ofBool false ++
          BitVec.ofBool false ++ BitVec.ofBool false ++ BitVec.ofBool false ++ BitVec.ofBool sub).toNat) ++
        BitVec.ofBool ([3, 11, 12, 19, 20, 27, 28].contains (BitVec.ofBool am ++ BitVec.ofBool udf ++
          BitVec.ofBool (!zb) ++ BitVec.ofBool zb ++ BitVec.ofBool false).toNat)) =
      if !zb && (udf || am) then 0#2 else if !zb && ovf then 2#2 else 1#2 := by
    decide
  have hsel := henc s.excZB (rUdf s) s.aMinusA (rOvf s) s.effSub hexclusive ham hsub
  have hnan : excRNaN s = false := by
    rw [excRNaN, hia, hna, hnb]
    rfl
  rw [output, hnan, excRInf, excRZero, hreg, hna, hnb, hia, hib, hza, hsel]
  split
  · rfl
  · split <;> rfl

theorem output_zeros (s : Stage5) (hna : s.excNA = false) (hnb : s.excNB = false)
    (hia : s.excIA = false) (hib : s.excIB = false) (hza : s.excZA = true) (hzb : s.excZB = true)
    (hreg : s.regInputs = false) : output s = pack s.signRInfRZRReg 0#8 0#23 := by
  obtain ⟨ef, reg, sign, nb, na, ib, ia, sub, am, zb, za⟩ := s
  simp only at hna hnb hia hib hza hzb hreg
  subst hna hnb hia hib hza hzb hreg
  simp only [output, excRNaN, excRInf, excRZero]
  generalize rUdf _ = udf
  generalize rOvf _ = ovf
  cases udf <;> cases am <;> cases ovf <;> cases sub <;> simp [excREnc]

/-- The kinds of the operands as the fourth row has them. -/
theorem normalizing_kinds {a b : Word} (h : order b ≤ order a) :
    (normalizing a b).kinds.sigA = sign a ∧ (normalizing a b).kinds.sigB = sign b ∧
      (normalizing a b).kinds.excZB = decide (exponent b = 0) ∧
      (normalizing a b).invExpXIsZero44 = !decide (exponent b = 0) ∧
      (normalizing a b).kinds.expXIsMax38 = decide (exponent b = 255) ∧
      (normalizing a b).kinds.fracXIsZero39 = decide (fraction b = 0) ∧
      (normalizing a b).excZA = decide (exponent a = 0) ∧
      (normalizing a b).expXIsMax24 = decide (exponent a = 255) ∧
      (normalizing a b).fracXIsZero25 = decide (fraction a = 0) ∧
      (normalizing a b).effSub = (sign a ^^ sign b) := by
  have hA := aSig_of_le h
  have hB := bSig_of_le h
  simp only [normalizing, stage4, stage3, stage2, stage1, hA, hB]
  refine ⟨rfl, rfl, beq_toNat _ _, congrArg _ (beq_toNat _ _), beq_toNat _ _, ?_, beq_toNat _ _,
    beq_toNat _ _, ?_, rfl⟩
  all_goals
    rw [Bool.beq_comm]
    exact beq_toNat _ _

section ordered

variable {a b : Word} (h : order b ≤ order a)
include h

/-- Where the magnitudes are subtracted, or the second operand is zero, nothing is carried. -/
theorem rounded_le (h0 : exponent a ≠ 0) (hV : digits a b ≠ 0) (hle : digits a b ≤ mantissa a * 2 ^ 25) :
    exponentSum (normalizing a b) * 2 ^ 23 + rounded (normalizing a b) ≤
      exponent a * 2 ^ 23 + mantissa a := by
  rw [show 2 ^ 25 = 4 * 2 ^ 23 by norm_num, ← Nat.mul_assoc] at hle
  have hjam := jam_le hle
  have hm := mantissa_lt a
  have hm0 := mantissa_normal h0
  have hbit := Bool.toNat_le (roundBit (normalizing a b))
  have htop := rounded_bounds _ (normalizing_ge h h0 hV)
  have hlo := (normalizing_leading h h0 hV).1
  have hN := normalizing_toNat h h0 hV
  have hr : (normalizing a b).r179.toNat ≠ 0 := by
    intro hzero
    rw [hzero] at hlo
    omega
  rw [exponentSum, expInc_toNat h]
  by_cases hone : (normalizing a b).r179.toNat = 1
  · -- without a shift beyond the carry the sum is at most the first operand, rounded or not
    rw [hone, pow_one] at hN
    have hround : rounded (normalizing a b) ≤ mantissa a := by
      rw [rounded]
      omega
    omega
  · omega

/-- What the last row finds in the exponent. -/
theorem rndExp_le (h0 : exponent a ≠ 0) (hV : digits a b ≠ 0) (hle : digits a b ≤ mantissa a * 2 ^ 25) :
    (rndExp (stage5 (normalizing a b))).toInt ≤ exponent a := by
  have hm := mantissa_lt a
  have hinc := expInc_toNat h
  have hlt := exponent_lt a
  have hsum := rounded_le h h0 hV hle
  have hfields := rounded_fields _ (normalizing_ge h h0 hV) (by omega)
  omega

theorem rndExp_zero (h0 : exponent a ≠ 0) (hb : exponent b = 0) :
    1 ≤ (rndExp (stage5 (normalizing a b))).toInt := by
  have hm := mantissa_lt a
  have hm0 := mantissa_normal h0
  have hV := digits_zero a hb
  have hne : digits a b ≠ 0 := by omega
  have hjam : jam 23 (digits a b) * 2 ^ 23 = digits a b * 2 := by
    apply jam_exact
    rw [hV, show 2 ^ 25 = 4 * 2 ^ 23 by norm_num, ← Nat.mul_assoc, Nat.mul_mod_left]
  obtain ⟨-, hhi⟩ := normalizing_leading h h0 hne
  have hr : (normalizing a b).r179.toNat < 2 := by
    by_contra hr
    have hpow : 2 ^ 2 ≤ 2 ^ (normalizing a b).r179.toNat := Nat.pow_le_pow_right (by norm_num) (by omega)
    have := Nat.mul_le_mul_left (jam 23 (digits a b)) hpow
    omega
  have hinc := expInc_toNat h
  have hlt := exponent_lt a
  have hge := normalizing_ge h h0 hne
  have hround := rounded_bounds _ hge
  have hfields := rounded_fields _ hge (by omega)
  have hf := ((stage5 (normalizing a b)).rndExpFrac.extractLsb' 1 23).isLt
  rw [exponentSum] at hfields
  omega

end ordered

section finite

variable {a b : Word} (h : order b ≤ order a) (ha : exponent a ≠ 255)
include h ha

theorem finite_exponent : exponent b ≠ 255 := by
  have hle := exponent_le h
  have hlt := exponent_lt a
  omega

theorem finite_flags : (stage5 (normalizing a b)).excNA = false ∧
    (stage5 (normalizing a b)).excNB = false ∧ (stage5 (normalizing a b)).excIA = false ∧
    (stage5 (normalizing a b)).excIB = false := by
  obtain ⟨-, -, -, -, hb255, -, -, ha255, -, -⟩ := normalizing_kinds h
  simp only [stage5, excIA, excIB, ha255, hb255, decide_eq_false ha,
    decide_eq_false (finite_exponent h ha), Bool.false_and, and_self]

theorem regInputs_eq :
    (stage5 (normalizing a b)).regInputs = (!decide (exponent a = 0) && !decide (exponent b = 0)) := by
  obtain ⟨-, -, -, hb0, hb255, -, ha0, ha255, -, -⟩ := normalizing_kinds h
  simp only [stage5, excRA, excRB, ha0, hb0, ha255, hb255, decide_eq_false ha,
    decide_eq_false (finite_exponent h ha), Bool.not_false, Bool.and_true]

theorem sign_eq (h0 : exponent a ≠ 0) : (stage5 (normalizing a b)).signRInfRZRReg =
    (sign a && (decide (exponent b = 0) || !decide (digits a b = 0))) := by
  obtain ⟨hsa, hsb, hzb, hb0, hb255, -, ha0, ha255, -, -⟩ := normalizing_kinds h
  have ham := aMinusA_digits h h0
  simp only [stage5, signRInf, signRZero, signRReg, excRA, excRB, excIA, excIB, hsa, hsb, hzb, hb0, ha0,
    ha255, hb255, ham, decide_eq_false ha, decide_eq_false h0, decide_eq_false (finite_exponent h ha)]
  cases sign a <;> cases decide (exponent b = 0) <;> simp

theorem rOvf_sub (h0 : exponent a ≠ 0) (hne : sign a ≠ sign b) :
    rOvf (stage5 (normalizing a b)) = false := by
  have hlt := exponent_lt a
  have hinc := expInc_toNat h
  rw [rOvf_eq, decide_eq_false_iff_not]
  by_cases hV : digits a b = 0
  · have hG : fracGRS (stage2 (stage1 a b)) = 0#28 := by
      apply BitVec.eq_of_toNat_eq
      rw [fracGRS_toNat h h0, hV]
      rfl
    have hr : (normalizing a b).r179 = 28#5 := r179_zero _ hG
    have hrow : (normalizing a b).fracGRS = fracGRS (stage2 (stage1 a b)) := rfl
    have hN := leftShiftStage2_toNat (normalizing a b) rfl
    rw [hrow, hG, BitVec.toNat_zero, Nat.zero_mul, Nat.zero_mod] at hN
    have htotal := rndExpFrac_toNat (normalizing a b)
    have hbit := Bool.toNat_le (roundBit (normalizing a b))
    rw [hN, exponentSum, hinc, hr, BitVec.toNat_ofNat] at htotal
    rw [BitVec.toInt_eq_toNat_cond, rndExp, BitVec.extractLsb'_toNat, Nat.shiftRight_eq_div_pow]
    split <;> omega
  · have hle : digits a b ≤ mantissa a * 2 ^ 25 := by
      rw [digits, if_neg hne]
      exact Nat.sub_le _ _
    have := rndExp_le h h0 hV hle
    omega

theorem add_zeros (h0 : exponent a = 0) : add a b = pack (sign a && sign b) 0#8 0#23 := by
  have hle := exponent_le h
  have hb0 : exponent b = 0 := by omega
  obtain ⟨hna, hnb, hia, hib⟩ := finite_flags h ha
  obtain ⟨hsa, hsb, hzb, -, hbmax, -, hza, hamax, -, -⟩ := normalizing_kinds h
  have hsign : (stage5 (normalizing a b)).signRInfRZRReg = (sign a && sign b) := by
    simp only [stage5, signRInf, signRZero, signRReg, excRA, excRB, excIA, excIB, hsa, hsb, hzb, hza,
      hamax, hbmax, decide_eq_false ha, decide_eq_true h0, decide_eq_true hb0,
      decide_eq_false (finite_exponent h ha)]
    cases sign a <;> cases sign b <;> rfl
  have hreg := regInputs_eq h ha
  rw [decide_eq_true h0] at hreg
  rw [← hsign]
  exact output_zeros _ hna hnb hia hib (by rw [← decide_eq_true h0, ← hza]; rfl)
    (by rw [← decide_eq_true hb0, ← hzb]; rfl) hreg

theorem add_normal (h0 : exponent a ≠ 0) :
    add a b =
      if !decide (exponent b = 0) && (rUdf (stage5 (normalizing a b)) || decide (digits a b = 0)) then
        pack (stage5 (normalizing a b)).signRInfRZRReg 0#8 0#23
      else if !decide (exponent b = 0) && rOvf (stage5 (normalizing a b)) then
        pack (stage5 (normalizing a b)).signRInfRZRReg 255#8 0#23
      else pack (stage5 (normalizing a b)).signRInfRZRReg
        ((stage5 (normalizing a b)).rndExpFrac.extractLsb' 24 8)
        ((stage5 (normalizing a b)).rndExpFrac.extractLsb' 1 23) := by
  obtain ⟨hna, hnb, hia, hib⟩ := finite_flags h ha
  obtain ⟨-, -, hzb, -, -, -, hza, -, -, hsub⟩ := normalizing_kinds h
  have hzb' : (stage5 (normalizing a b)).excZB = decide (exponent b = 0) := hzb
  have hsub' : (stage5 (normalizing a b)).effSub = (sign a ^^ sign b) := hsub
  have ham : (stage5 (normalizing a b)).aMinusA = decide (digits a b = 0) := aMinusA_digits h h0
  have hreg := regInputs_eq h ha
  rw [decide_eq_false h0, Bool.not_false, Bool.true_and, ← hzb'] at hreg
  rw [← hzb', ← ham]
  apply output_finite _ hna hnb hia hib (hza.trans (decide_eq_false h0)) hreg
  · intro hzero
    rw [ham, decide_eq_true_iff, digits, mantissa_normal h0] at hzero
    rw [hsub']
    split at hzero
    · omega
    · next hne => simpa using hne
  · intro hone
    apply rOvf_sub h ha h0
    rw [hsub'] at hone
    simpa using hone

theorem add_delivers_zeros (h0 : exponent a = 0) :
    exact a b = 0 ∧ Delivers (add a b) (sign a && sign b) 0 := by
  have hle := exponent_le h
  have hb0 : exponent b = 0 := by omega
  obtain ⟨hs, he, hf⟩ := pack_fields (sign a && sign b) 0#8 0#23
  refine ⟨?_, ?_⟩
  · rw [exact, flushed, flushed, if_pos h0, if_pos hb0]
    split <;> norm_num
  · rw [add_zeros h ha h0]
    exact Delivers.of_zero hs he hf (by positivity)

/-- Operands that cancel give plus zero. -/
theorem add_delivers_cancelled (h0 : exponent a ≠ 0) (hV : digits a b = 0) :
    Delivers (add a b) false 0 := by
  have hsign := sign_eq h ha h0
  have hb0 : exponent b ≠ 0 := by
    intro hb0
    rw [digits_zero a hb0, mantissa_normal h0] at hV
    omega
  rw [decide_eq_false hb0, decide_eq_true hV, Bool.not_true, Bool.or_false, Bool.and_false] at hsign
  rw [add_normal h ha h0, decide_eq_true hV, decide_eq_false hb0, Bool.or_true, Bool.not_false,
    Bool.true_and, if_pos rfl, hsign]
  obtain ⟨hs, he, hf⟩ := pack_fields false 0#8 0#23
  exact Delivers.of_zero hs he hf (by positivity)

theorem add_delivers_digits (h0 : exponent a ≠ 0) (hV : digits a b ≠ 0) :
    Delivers (add a b) (sign a) (nearest 24 (exact a b)) := by
  have hsign := sign_eq h ha h0
  rw [decide_eq_false hV, Bool.not_false, Bool.or_true, Bool.and_true] at hsign
  rw [add_normal h ha h0, decide_eq_false hV, Bool.or_false, rUdf_eq, rOvf_eq, hsign,
    nearest_exact h h0, nearest_digits h h0 hV]
  have hge := normalizing_ge h h0 hV
  have hinc := expInc_toNat h
  have hlt := exponent_lt a
  obtain ⟨hlo, hhi⟩ := rounded_bounds _ hge
  have hfields := rounded_fields _ hge (by omega)
  have hf := ((stage5 (normalizing a b)).rndExpFrac.extractLsb' 1 23).isLt
  have hzero : exponent b = 0 → 1 ≤ (rndExp (stage5 (normalizing a b))).toInt ∧
      (rndExp (stage5 (normalizing a b))).toInt ≤ exponent a := by
    intro hb0
    exact ⟨rndExp_zero h h0 hb0, rndExp_le h h0 hV (digits_zero a hb0).le⟩
  have hexp : ((stage5 (normalizing a b)).rndExpFrac.extractLsb' 24 8).toNat =
      (rndExp (stage5 (normalizing a b))).toNat % 2 ^ 8 := by
    rw [rndExp, BitVec.extractLsb'_toNat, BitVec.extractLsb'_toNat, Nat.shiftRight_eq_div_pow]
    omega
  have hcond := BitVec.toInt_eq_toNat_cond (rndExp (stage5 (normalizing a b)))
  have hexplt := (rndExp (stage5 (normalizing a b))).isLt
  rw [← carry_scale hlo hhi hf hfields]
  generalize (rndExp (stage5 (normalizing a b))).toInt = e at hzero hcond ⊢
  have hpack := fun x y => pack_fields (sign a) x y
  apply Delivers.of_fields hf
  · split_ifs <;> exact (hpack _ _).1
  · intro hlow
    have hb0 : exponent b ≠ 0 := fun hb0 => by
      have := hzero hb0
      omega
    rw [decide_eq_false hb0, decide_eq_true hlow, Bool.not_false, Bool.true_and, if_pos rfl]
    exact ⟨(hpack _ _).2.1, (hpack _ _).2.2⟩
  · intro h1 h254
    rw [decide_eq_false (show ¬e ≤ 0 by omega), decide_eq_false (show ¬255 ≤ e by omega),
      Bool.and_false, if_neg (by simp), if_neg (by simp), (hpack _ _).2.1, (hpack _ _).2.2, hexp]
    refine ⟨?_, rfl⟩
    split at hcond <;> omega
  · intro hhigh
    have hb0 : exponent b ≠ 0 := fun hb0 => by
      have := hzero hb0
      omega
    rw [decide_eq_false (show ¬e ≤ 0 by omega), decide_eq_true hhigh, decide_eq_false hb0,
      Bool.and_false, if_neg (by simp), Bool.not_false, Bool.true_and, if_pos rfl]
    exact ⟨(hpack _ _).2.1, (hpack _ _).2.2⟩

theorem add_delivers_of_le : Delivers (add a b)
    (if exact a b = 0 then decide (exponent a = 0) && (sign a && sign b) else sign a)
    (nearest 24 (exact a b)) := by
  by_cases h0 : exponent a = 0
  · obtain ⟨hzero, hdelivers⟩ := add_delivers_zeros h ha h0
    rw [hzero, if_pos rfl, nearest_zero, decide_eq_true h0, Bool.true_and]
    exact hdelivers
  · by_cases hV : digits a b = 0
    · rw [(digits_eq_zero_iff h h0).mp hV, if_pos rfl, nearest_zero, decide_eq_false h0, Bool.false_and]
      exact add_delivers_cancelled h ha h0 hV
    · rw [if_neg fun hx => hV ((digits_eq_zero_iff h h0).mpr hx)]
      exact add_delivers_digits h ha h0 hV

end finite

/-! ### Operands in any order -/

/-- The sign of a sum; a sum that is zero is minus zero only when both operands were. -/
def sumSign (a b : Word) : Bool :=
  if flushedValue a + flushedValue b = 0 then
    decide (exponent a = 0 ∧ exponent b = 0) && (sign a && sign b)
  else decide (flushedValue a + flushedValue b < 0)

theorem sumSign_comm (a b : Word) : sumSign a b = sumSign b a := by
  have hzeros : decide (exponent a = 0 ∧ exponent b = 0) = decide (exponent b = 0 ∧ exponent a = 0) := by
    rw [decide_eq_decide]
    exact and_comm
  rw [sumSign, sumSign, add_comm (flushedValue a), hzeros, Bool.and_comm (sign a)]

theorem flushedValue_add (a b : Word) :
    flushedValue a + flushedValue b = if sign a then -exact a b else exact a b := by
  rw [flushedValue, flushedValue, exact]
  cases sign a <;> cases sign b <;> simp <;> ring

theorem exact_nonneg {a b : Word} (h : order b ≤ order a) : 0 ≤ exact a b := by
  have hle := flushed_mono h
  have ha := flushed_nonneg a
  have hb := flushed_nonneg b
  rw [exact]
  split <;> linarith

theorem sumSign_of_le {a b : Word} (h : order b ≤ order a) :
    sumSign a b =
      if exact a b = 0 then decide (exponent a = 0) && (sign a && sign b) else sign a := by
  have hnonneg := exact_nonneg h
  have hle := exponent_le h
  have hzero : decide (exponent a = 0 ∧ exponent b = 0) = decide (exponent a = 0) := by
    rw [decide_eq_decide]
    omega
  rw [sumSign, flushedValue_add, hzero]
  by_cases hx : exact a b = 0
  · rw [hx, if_pos rfl, neg_zero, ite_self, if_pos rfl]
  · have hpos := lt_of_le_of_ne hnonneg (Ne.symm hx)
    rw [if_neg hx]
    cases sign a with
    | false =>
      simp only [Bool.false_eq_true, if_false]
      rw [if_neg hx, decide_eq_false (not_lt.mpr hnonneg)]
    | true =>
      rw [if_pos rfl, if_neg (neg_ne_zero.mpr hx), decide_eq_true (neg_lt_zero.mpr hpos)]

/-- The sum of finite operands, subnormals being zeros, is rounded to the nearest and flushed. -/
theorem add_delivers (a b : Word) (ha : exponent a ≠ 255) (hb : exponent b ≠ 255) :
    Delivers (add a b) (sumSign a b) (nearest 24 |flushedValue a + flushedValue b|) := by
  have hordered : ∀ a b : Word, order b ≤ order a → exponent a ≠ 255 →
      Delivers (add a b) (sumSign a b) (nearest 24 |flushedValue a + flushedValue b|) := by
    intro a b h ha
    have habs : |flushedValue a + flushedValue b| = exact a b := by
      rw [flushedValue_add]
      split
      · rw [abs_neg, abs_of_nonneg (exact_nonneg h)]
      · exact abs_of_nonneg (exact_nonneg h)
    rw [habs, sumSign_of_le h]
    exact add_delivers_of_le h ha
  rcases le_or_gt (order b) (order a) with h | h
  · exact hordered a b h ha
  · rw [add_exchange h, sumSign_comm, add_comm (flushedValue a)]
    exact hordered b a h.le hb

/-! ### Infinities and NaNs -/

theorem output_nan (s : Stage5) (h : excRNaN s = true) : output s = pack false 255#8 1#23 := by
  have henc : ∀ inf zero : Bool,
      excREnc (BitVec.ofBool true ++ BitVec.ofBool inf ++ BitVec.ofBool zero) = 3#2 := by
    decide
  rw [output, h, henc]
  rfl

theorem output_inf (s : Stage5) (hnan : excRNaN s = false) (hia : s.excIA = true)
    (hreg : s.regInputs = false) : output s = pack s.signRInfRZRReg 255#8 0#23 := by
  have henc : ∀ nb na ib sub zero : Bool, ((true && ib && sub) || (na || nb)) = false →
      excREnc (BitVec.ofBool false ++ BitVec.ofBool ([2, 3, 4, 5, 6, 32].contains
        (BitVec.ofBool false ++ BitVec.ofBool nb ++ BitVec.ofBool na ++ BitVec.ofBool ib ++
          BitVec.ofBool true ++ BitVec.ofBool sub).toNat) ++ BitVec.ofBool zero) = 2#2 := by
    decide
  have hsel := henc s.excNB s.excNA s.excIB s.effSub (excRZero s)
  rw [← hia] at hsel
  rw [output, hnan, excRInf, hreg, Bool.false_and, hsel hnan]
  rfl

/-- No number comes of these operands. -/
def NoSum (a b : Word) : Prop := IsNaN a ∨ IsNaN b ∨ (IsInf a ∧ IsInf b ∧ sign a ≠ sign b)

theorem noSum_comm {a b : Word} (h : NoSum a b) : NoSum b a := by
  rcases h with ha | hb | ⟨ha, hb, hne⟩
  · exact Or.inr (Or.inl ha)
  · exact Or.inl hb
  · exact Or.inr (Or.inr ⟨hb, ha, hne.symm⟩)

section ordered

variable {a b : Word} (h : order b ≤ order a)
include h

theorem excRNaN_iff : excRNaN (stage5 (normalizing a b)) = true ↔ NoSum a b := by
  obtain ⟨-, -, -, -, hbmax, hbfrac, -, hamax, hafrac, hsub⟩ := normalizing_kinds h
  have hnan : excRNaN (stage5 (normalizing a b)) =
      (((decide (exponent a = 255) && decide (fraction a = 0)) &&
        (decide (exponent b = 255) && decide (fraction b = 0)) && (sign a ^^ sign b)) ||
        ((decide (exponent a = 255) && !decide (fraction a = 0)) ||
          (decide (exponent b = 255) && !decide (fraction b = 0)))) := by
    simp only [excRNaN, stage5, excIA, excIB, hbmax, hbfrac, hamax, hafrac, hsub]
  rw [hnan, NoSum, IsNaN, IsNaN, IsInf, IsInf]
  simp only [Bool.or_eq_true, Bool.and_eq_true, Bool.not_eq_eq_eq_not, Bool.not_true,
    decide_eq_true_iff, decide_eq_false_iff_not, Bool.xor_iff_ne]
  constructor
  · rintro (⟨⟨ha, hb⟩, hne⟩ | ha | hb)
    · exact Or.inr (Or.inr ⟨ha, hb, hne⟩)
    · exact Or.inl ha
    · exact Or.inr (Or.inl hb)
  · rintro (ha | hb | ⟨ha, hb, hne⟩)
    · exact Or.inr (Or.inl ha)
    · exact Or.inr (Or.inr hb)
    · exact Or.inl ⟨⟨ha, hb⟩, hne⟩

theorem add_nan_of_le (hnan : NoSum a b) : add a b = 0x7f800001#32 := by
  have hout := output_nan _ ((excRNaN_iff h).mpr hnan)
  rw [add, ← normalizing, hout]
  rfl

theorem add_inf_of_le (hinf : IsInf a) (hnan : ¬NoSum a b) : add a b = pack (sign a) 255#8 0#23 := by
  obtain ⟨hsa, hsb, -, -, hbmax, hbfrac, hza, hamax, hafrac, -⟩ := normalizing_kinds h
  have hlow : excRNaN (stage5 (normalizing a b)) = false := by
    rw [Bool.eq_false_iff]
    exact fun hc => hnan ((excRNaN_iff h).mp hc)
  have hia : (stage5 (normalizing a b)).excIA = true := by
    simp only [stage5, excIA, hamax, hafrac, hinf.1, hinf.2, decide_true, Bool.and_self]
  have hreg : (stage5 (normalizing a b)).regInputs = false := by
    simp only [stage5, excRA, hamax, hinf.1, decide_true, Bool.not_true, Bool.and_false, Bool.false_and]
  have hsign : (stage5 (normalizing a b)).signRInfRZRReg = sign a := by
    simp only [stage5, signRInf, signRZero, signRReg, excRA, excIA, excIB, hsa, hsb, hza, hamax, hafrac,
      hbmax, hbfrac, hinf.1, hinf.2, decide_true]
    have hsame : IsInf b → sign a = sign b := fun hb => by
      by_contra hne
      exact hnan (Or.inr (Or.inr ⟨hinf, hb, hne⟩))
    by_cases hb : IsInf b
    · rw [← hsame hb]
      cases sign a <;> simp
    · have hboth : (decide (exponent b = 255) && decide (fraction b = 0)) = false := by
        rw [← Bool.decide_and]
        exact decide_eq_false hb
      rw [hboth]
      simp
  rw [add, ← normalizing, output_inf _ hlow hia hreg, hsign]

end ordered

/-- Without a number among the operands, or with two infinities of different signs, a NaN comes out. -/
theorem add_nan (a b : Word) (h : NoSum a b) : add a b = 0x7f800001#32 := by
  rcases le_or_gt (order b) (order a) with hle | hlt
  · exact add_nan_of_le hle h
  · rw [add_exchange hlt]
    exact add_nan_of_le hlt.le (noSum_comm h)

/-- Only an infinity is not below one, and without a NaN it has the same sign. -/
theorem inf_of_le {a b : Word} (h : order b ≤ order a) (hb : IsInf b) (hnan : ¬NoSum a b) :
    IsInf a ∧ sign a = sign b := by
  have hfa := fraction_lt a
  have hea := exponent_lt a
  rw [order, order, hb.1, hb.2] at h
  have he : exponent a = 255 := by omega
  have ha : IsInf a := by
    by_contra hne
    exact hnan (Or.inl ⟨he, fun hf => hne ⟨he, hf⟩⟩)
  refine ⟨ha, ?_⟩
  by_contra hne
  exact hnan (Or.inr (Or.inr ⟨ha, hb, hne⟩))

/-- Any other infinity is kept with its sign. -/
theorem add_inf (a b : Word) (hnan : ¬NoSum a b) :
    (IsInf a → add a b = pack (sign a) 255#8 0#23) ∧ (IsInf b → add a b = pack (sign b) 255#8 0#23) := by
  have hordered : ∀ a b : Word, order b ≤ order a → ¬NoSum a b →
      (IsInf a → add a b = pack (sign a) 255#8 0#23) ∧
        (IsInf b → add a b = pack (sign b) 255#8 0#23) := by
    intro a b h hnan
    refine ⟨fun ha => add_inf_of_le h ha hnan, fun hb => ?_⟩
    obtain ⟨ha, hsign⟩ := inf_of_le h hb hnan
    rw [← hsign]
    exact add_inf_of_le h ha hnan
  rcases le_or_gt (order b) (order a) with h | h
  · exact hordered a b h hnan
  · rw [add_exchange h]
    exact (hordered b a h.le fun hc => hnan (noSum_comm hc)).symm

/-! ## Streams -/

/-- What the pins carry during a cycle without a clear. -/
structure Cycle where
  en : Bool
  a : Word
  b : Word

def feed (s : State) (cycles : List Cycle) : State :=
  cycles.foldl (fun s i => step false i.en i.a i.b s) s

/-- **The adder.** From any state, and whatever the cycles are in which it is not enabled: four
enabled cycles after two operands the output is their sum, rounded to the nearest and flushed, or the
infinity or the NaN that they make. -/
theorem sum_reaches_output (s : State) (cycles before after : List Cycle) (i : Cycle)
    (hcycles : cycles.filter (·.en) = before ++ i :: after) (hafter : after.length = 4) :
    (exponent i.a ≠ 255 → exponent i.b ≠ 255 → Delivers (q false (feed s cycles))
      (sumSign i.a i.b) (nearest 24 |flushedValue i.a + flushedValue i.b|)) ∧
    (NoSum i.a i.b → q false (feed s cycles) = 0x7f800001#32) ∧
    (¬NoSum i.a i.b →
      (IsInf i.a → q false (feed s cycles) = pack (sign i.a) 255#8 0#23) ∧
      (IsInf i.b → q false (feed s cycles) = pack (sign i.b) 255#8 0#23)) := by
  have hrow := gated_pipeline (fun (i : Cycle) s => step false i.en i.a i.b s) (·.en) view
    (fun i => add i.a i.b) (fun i s hen => by rw [hen]; rfl)
    (fun i s hen => by rw [hen]; exact view_enabled i.a i.b s) s cycles before after i hcycles (by omega)
  simp only [hafter] at hrow
  have hout : q false (feed s cycles) = add i.a i.b := hrow
  rw [hout]
  exact ⟨add_delivers i.a i.b, add_nan i.a i.b, add_inf i.a i.b⟩

theorem sum_reaches_output_at_128 : Delivers
    (q false (feed cleared (⟨true, 0x43000000#32, 0xbf000000#32⟩ :: .replicate 4 ⟨true, 0#32, 0#32⟩)))
    (sumSign 0x43000000#32 0xbf000000#32)
    (nearest 24 |flushedValue 0x43000000#32 + flushedValue 0xbf000000#32|) :=
  (sum_reaches_output cleared _ [] _ ⟨true, 0x43000000#32, 0xbf000000#32⟩ rfl rfl).1
    (by decide) (by decide)

end DsdCordic.FpAdd0002
