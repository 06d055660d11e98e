import DsdCordic.Foundations.Flushing
import DsdCordic.Foundations.Rounding
import DsdCordic.Foundations.Shifters
import DsdCordic.Foundations.TwosComplement
import DsdCordic.Peripheral.Cores
import Mathlib.Data.BitVec

/-! The generated accumulator. A sample is shifted to a fixed-point number in units of `2^-126` and added
to a sum of 179 bits, so nothing is rounded until the sum is turned into a float again, and then its
lower digits are dropped. -/
namespace DsdCordic.FpAcc0002
open Binary32 Clocked Flushing Rounding Shifters TwosComplement
set_option autoImplicit false

/-! ## The entity -/

/-- The digits that select the shift, four places at a time. -/
structure Stage1 where
  signX : BitVec 1
  n : Bool
  fracX : BitVec 23
  selB : BitVec 2
  selC : BitVec 2
  selD : BitVec 2
  selE : BitVec 2
  shiftedOutO : BitVec 12
  cmpGTO : BitVec 10

structure Stage2 where
  signX : BitVec 1
  n : Bool
  rightShiftStage3 : BitVec 201
  shiftedOutN : Bool
  cmpGTC : Bool

/-- The register of the sum carries one bit below it, the place of the carry. -/
structure Stage3 where
  accumulatorO : BitVec 182
  xOverflowFeedback : Bool
  accOverflowFeedback : Bool

structure Stage4 where
  accumulatorSign : BitVec 1
  accValuePositive : BitVec 179
  xOverflow : Bool
  accOverflow : Bool

structure Stage5 where
  accumulatorSign : BitVec 1
  accValuePositive : BitVec 179
  vCount68 : Bool
  vCount76 : Bool
  vStagei79 : BitVec 64
  xOverflow : Bool
  accOverflow : Bool

structure Stage6 where
  accumulatorSign : BitVec 1
  accValuePositive : BitVec 179
  vCount68 : Bool
  vCount76 : Bool
  vCount82 : Bool
  vCount88 : Bool
  vStagei91 : BitVec 16
  xOverflow : Bool
  accOverflow : Bool

structure Stage7 where
  accumulatorSign : BitVec 1
  accValuePositive : BitVec 179
  zeroCounterR : BitVec 8
  xOverflow : Bool
  accOverflow : Bool

structure State where
  stage1 : Stage1
  stage2 : Stage2
  stage3 : Stage3
  stage4 : Stage4
  stage5 : Stage5
  stage6 : Stage6
  stage7 : Stage7

/-! ### Alignment -/

def rightShiftValue (x : Word) : BitVec 10 := (0#1 ++ 177#9) - (0#2 ++ x.extractLsb' 23 8)

def stage1 (x : Word) (n : Bool) : Stage1 where
  signX := x.extractLsb' 31 1
  n := n
  fracX := x.extractLsb' 0 23
  selB := (rightShiftValue x).extractLsb' 6 2
  selC := (rightShiftValue x).extractLsb' 4 2
  selD := (rightShiftValue x).extractLsb' 2 2
  selE := (rightShiftValue x).extractLsb' 0 2
  shiftedOutO := (0#2 ++ rightShiftValue x) - (0#4 ++ 201#8)
  cmpGTO := (0#2 ++ 177#8) - (0#2 ++ x.extractLsb' 23 8)

def stage2 (s : Stage1) : Stage2 :=
  let oFracX : BitVec 24 := 1#1 ++ s.fracX
  let rightPaddedIn : BitVec 201 := oFracX ++ 0#177
  { signX := s.signX
    n := s.n
    rightShiftStage3 := rightStage 1 s.selE (rightStage 4 s.selD (rightStage 16 s.selC
      (rightStage 64 s.selB rightPaddedIn)))
    shiftedOutN := !s.shiftedOutO.getLsbD 11
    cmpGTC := s.cmpGTO.getLsbD 9 }

/-- The sample as the adder takes it: in ones' complement when it is negative. -/
def onesComplementExtendedFrac (s : Stage2) : BitVec 178 :=
  let r : BitVec 201 := if s.shiftedOutN then 0#201 else s.rightShiftStage3
  let extendedAlignedShiftedFrac : BitVec 178 := 0#1 ++ r.extractLsb' 24 177
  extendedAlignedShiftedFrac ^^^ s.signX.signExtend 178

/-! ### The sum -/

def sum (s : Stage3) : BitVec 179 :=
  let accumulatorQ : BitVec 180 := s.accumulatorO.extractLsb' 1 180
  accumulatorQ.extractLsb' 0 179

def accumulatorSign (s : Stage3) : BitVec 1 := (sum s).extractLsb' 177 1

def accOverflow (s : Stage3) : Bool :=
  s.accOverflowFeedback || ((sum s).getLsbD 178 ^^ (sum s).getLsbD 177)

def stage3 (s : Stage2) (s3 : Stage3) : Stage3 :=
  let a : BitVec 182 := (sum s3).signExtend 181 ++ 1#1
  let b : BitVec 182 := (onesComplementExtendedFrac s).signExtend 181 ++ s.signX
  { accumulatorO := if s.n then b else a + b
    xOverflowFeedback := (if s.n then false else s3.xOverflowFeedback) || s.cmpGTC
    accOverflowFeedback := if s.n then false else accOverflow s3 }

def stage4 (s : Stage3) : Stage4 :=
  let accOnesComplement : BitVec 178 :=
    (sum s).extractLsb' 0 178 ^^^ (accumulatorSign s).signExtend 178
  { accumulatorSign := accumulatorSign s
    accValuePositive := (0#1 ++ accOnesComplement) + (0#178 ++ accumulatorSign s)
    xOverflow := s.xOverflowFeedback
    accOverflow := accOverflow s }

/-! ### Normalization -/

def zeroCounterIn (s : Stage4) : BitVec 128 :=
  let posAccWoLeadingZeroBit : BitVec 177 := s.accValuePositive.extractLsb' 0 177
  let cStage : BitVec 128 := posAccWoLeadingZeroBit.extractLsb' 0 49 ++ BitVec.allOnes 79
  if posAccWoLeadingZeroBit.extractLsb' 49 128 == 0#128 then cStage
  else posAccWoLeadingZeroBit.extractLsb' 49 128

def stage5 (s : Stage4) : Stage5 where
  accumulatorSign := s.accumulatorSign
  accValuePositive := s.accValuePositive
  vCount68 := (s.accValuePositive.extractLsb' 0 177).extractLsb' 49 128 == 0#128
  vCount76 := upperZero (h := 64) (zeroCounterIn s)
  vStagei79 := half (h := 64) (zeroCounterIn s)
  xOverflow := s.xOverflow
  accOverflow := s.accOverflow

def stage6 (s : Stage5) : Stage6 :=
  let vStagei85 := half (h := 32) s.vStagei79
  { accumulatorSign := s.accumulatorSign
    accValuePositive := s.accValuePositive
    vCount68 := s.vCount68
    vCount76 := s.vCount76
    vCount82 := upperZero (h := 32) s.vStagei79
    vCount88 := upperZero (h := 16) vStagei85
    vStagei91 := half (h := 16) vStagei85
    xOverflow := s.xOverflow
    accOverflow := s.accOverflow }

def stage7 (s : Stage6) : Stage7 :=
  let vStagei97 := half (h := 8) s.vStagei91
  let vStagei103 := half (h := 4) vStagei97
  let vStagei109 := half (h := 2) vStagei103
  { accumulatorSign := s.accumulatorSign
    accValuePositive := s.accValuePositive
    zeroCounterR := BitVec.ofBool s.vCount68 ++ BitVec.ofBool s.vCount76 ++ BitVec.ofBool s.vCount82 ++
      BitVec.ofBool s.vCount88 ++ BitVec.ofBool (upperZero (h := 8) s.vStagei91) ++
      BitVec.ofBool (upperZero (h := 4) vStagei97) ++ BitVec.ofBool (upperZero (h := 2) vStagei103) ++
      BitVec.ofBool (upperZero (h := 1) vStagei109)
    xOverflow := s.xOverflow
    accOverflow := s.accOverflow }

def finalExpUpdated (s : Stage7) : BitVec 8 :=
  let resExpSub : BitVec 10 := (0#1 ++ 177#9) - (0#2 ++ s.zeroCounterR)
  if s.zeroCounterR == 177#8 then 0#8 else resExpSub.extractLsb' 0 8

def leftShiftStage3 (s : Stage7) : BitVec 179 :=
  leftStage 1 (s.zeroCounterR.extractLsb' 0 2) (leftStage 4 (s.zeroCounterR.extractLsb' 2 2)
    (leftStage 16 (s.zeroCounterR.extractLsb' 4 2)
      (leftStage 64 (s.zeroCounterR.extractLsb' 6 2) s.accValuePositive)))

def output (s : Stage7) : Word :=
  s.accumulatorSign ++ finalExpUpdated s ++ (leftShiftStage3 s).extractLsb' 153 23

/-! ### The rows -/

def cleared : State where
  stage1 := ⟨0#1, false, 0#23, 0#2, 0#2, 0#2, 0#2, 0#12, 0#10⟩
  stage2 := ⟨0#1, false, 0#201, false, false⟩
  stage3 := ⟨0#182, false, false⟩
  stage4 := ⟨0#1, 0#179, false, false⟩
  stage5 := ⟨0#1, 0#179, false, false, 0#64, false, false⟩
  stage6 := ⟨0#1, 0#179, false, false, false, false, 0#16, false, false⟩
  stage7 := ⟨0#1, 0#179, 0#8, false, false⟩

def step (areset en : Bool) (x : Word) (n : Bool) (s : State) : State :=
  if areset then cleared
  else if en then
    { stage1 := stage1 x n
      stage2 := stage2 s.stage1
      stage3 := stage3 s.stage2 s.stage3
      stage4 := stage4 s.stage3
      stage5 := stage5 s.stage4
      stage6 := stage6 s.stage5
      stage7 := stage7 s.stage6 }
  else s

def r (areset : Bool) (s : State) : Word := output (if areset then cleared else s).stage7

/-- A sample was too large for the sum. -/
def xo (areset : Bool) (s : State) : Bool := (if areset then cleared else s).stage7.xOverflow

/-- The sum has left its range. -/
def ao (areset : Bool) (s : State) : Bool := (if areset then cleared else s).stage7.accOverflow

/-! ## The sum -/

/-- What a sample adds to the sum. -/
def contribution (s : Stage2) : BitVec 179 :=
  (onesComplementExtendedFrac s).signExtend 179 + s.signX.setWidth 179

/-- A sum is started without the carry that completes the complement. -/
def start (s : Stage2) : BitVec 179 := (onesComplementExtendedFrac s).signExtend 179

theorem sum_toNat (s : Stage3) : (sum s).toNat = s.accumulatorO.toNat / 2 % 2 ^ 179 := by
  simp only [sum, BitVec.extractLsb'_toNat, Nat.shiftRight_eq_div_pow, pow_one]
  omega

theorem sum_stage3 (s : Stage2) (s3 : Stage3) :
    sum (stage3 s s3) = if s.n then start s else sum s3 + contribution s := by
  have hs := s.signX.isLt
  have hx := signExtend_mod (onesComplementExtendedFrac s) (show 179 ≤ 181 by norm_num)
  have ha := signExtend_mod (sum s3) (show 179 ≤ 181 by norm_num)
  rw [BitVec.signExtend_eq] at ha
  apply BitVec.eq_of_toNat_eq
  rw [sum_toNat]
  generalize hX : ((onesComplementExtendedFrac s).signExtend 181).toNat = X at hx
  generalize hA : ((sum s3).signExtend 181).toNat = A at ha
  cases hn : s.n with
  | true =>
    simp only [stage3, hn, if_true, start, toNat_append, hX]
    omega
  | false =>
    simp only [stage3, hn, Bool.false_eq_true, if_false, contribution, BitVec.toNat_add, toNat_append,
      BitVec.toNat_setWidth, BitVec.toNat_ofNat, hX, hA, ← hx, ← ha]
    omega

/-! ## A sample in units of the sum -/

/-- The magnitude of a sample that is not too large. -/
def units (x : Word) : ℕ :=
  if exponent x ≤ 177 then (2 ^ 23 + fraction x) * 2 ^ exponent x / 2 ^ 24 else 0

theorem units_lt (x : Word) : units x < 2 ^ 177 := by
  rw [units]
  split
  · next h =>
    have hf := fraction_lt x
    rw [Nat.div_lt_iff_lt_mul (by norm_num)]
    calc (2 ^ 23 + fraction x) * 2 ^ exponent x < 2 ^ 24 * 2 ^ exponent x :=
          Nat.mul_lt_mul_of_pos_right (by omega) (Nat.two_pow_pos _)
      _ ≤ 2 ^ 24 * 2 ^ 177 := Nat.mul_le_mul_left _ (Nat.pow_le_pow_right (by norm_num) h)
      _ = 2 ^ 177 * 2 ^ 24 := by norm_num
  · norm_num

/-- A sample loses what lies below the sum's last place. -/
theorem units_floor (x : Word) (h : exponent x ≤ 177) : (units x : ℤ) = ⌊flushed x * 2 ^ 126⌋ := by
  rw [units, if_pos h]
  by_cases h0 : exponent x = 0
  · have hf := fraction_lt x
    rw [flushed, if_pos h0, h0, zero_mul, Int.floor_zero, pow_zero, mul_one,
      Nat.div_eq_of_lt (by omega)]
    rfl
  · have hscaled : flushed x * 2 ^ 126 = ((2 ^ 23 + fraction x) * 2 ^ exponent x : ℕ) / (2 ^ 24 : ℕ) := by
      rw [flushed_normal h0, zpow_sub₀ (by norm_num), zpow_natCast]
      push_cast
      field_simp
      norm_num
    rw [hscaled, Rat.floor_natCast_div_natCast, Int.natCast_ediv]

theorem rightShiftValue_toNat (x : Word) :
    (rightShiftValue x).toNat = (177 + 2 ^ 10 - exponent x) % 2 ^ 10 := by
  have he := exponent_lt x
  rw [rightShiftValue, BitVec.toNat_sub, toNat_append, toNat_append]
  simp only [exponent, BitVec.toNat_ofNat] at he ⊢
  omega

theorem shiftedOutN_eq (x : Word) (n : Bool) :
    (stage2 (stage1 x n)).shiftedOutN = decide (177 < exponent x) := by
  have he := exponent_lt x
  have hvalue := rightShiftValue_toNat x
  simp only [stage2, stage1, BitVec.getLsbD, Nat.testBit_eq_decide_div_mod_eq, BitVec.toNat_sub,
    toNat_append, hvalue, ← decide_not, BitVec.toNat_ofNat]
  rw [decide_eq_decide]
  omega

theorem cmpGTC_eq (x : Word) (n : Bool) :
    (stage2 (stage1 x n)).cmpGTC = decide (177 < exponent x) := by
  have he := exponent_lt x
  have hfield : (x.extractLsb' 23 8).toNat = exponent x := rfl
  simp only [stage2, stage1, BitVec.getLsbD, Nat.testBit_eq_decide_div_mod_eq, BitVec.toNat_sub,
    toNat_append, hfield, BitVec.toNat_ofNat]
  rw [decide_eq_decide]
  omega

theorem rightShiftStage3_toNat (x : Word) (n : Bool) (h : exponent x ≤ 177) :
    (stage2 (stage1 x n)).rightShiftStage3.toNat = (2 ^ 23 + fraction x) * 2 ^ exponent x := by
  have hvalue := rightShiftValue_toNat x
  have hpadded : (1#1 ++ x.extractLsb' 0 23 ++ 0#177).toNat =
      (2 ^ 23 + fraction x) * 2 ^ exponent x * 2 ^ (177 - exponent x) := by
    rw [toNat_append, toNat_append, Nat.mul_assoc, ← pow_add, Nat.add_sub_cancel' h]
    simp [fraction]
  simp only [stage2, stage1, rightStage_toNat, div_pow_div_pow]
  have hdigits : ((rightShiftValue x).extractLsb' 6 2).toNat * 64 +
      ((rightShiftValue x).extractLsb' 4 2).toNat * 16 +
      ((rightShiftValue x).extractLsb' 2 2).toNat * 4 +
      ((rightShiftValue x).extractLsb' 0 2).toNat * 1 = 177 - exponent x := by
    simp only [BitVec.extractLsb'_toNat, Nat.shiftRight_eq_div_pow, hvalue]
    omega
  rw [hdigits, hpadded, Nat.mul_div_cancel _ (Nat.two_pow_pos _)]

theorem signX_eq (x : Word) (n : Bool) : (stage2 (stage1 x n)).signX = BitVec.ofBool (sign x) := by
  apply BitVec.eq_of_toNat_eq
  simp only [stage2, stage1, sign, BitVec.extractLsb'_toNat, Nat.shiftRight_eq_div_pow,
    BitVec.toNat_ofBool, BitVec.getLsbD, Nat.testBit_eq_decide_div_mod_eq]
  rcases Nat.mod_two_eq_zero_or_one (x.toNat / 2 ^ 31) with h | h <;> rw [h] <;> rfl

/-- The sample before its sign is applied. -/
theorem aligned_toNat (x : Word) (n : Bool) :
    (0#1 ++ (if (stage2 (stage1 x n)).shiftedOutN then 0#201
      else (stage2 (stage1 x n)).rightShiftStage3).extractLsb' 24 177).toNat = units x := by
  have hlt := units_lt x
  rw [toNat_append, shiftedOutN_eq, BitVec.toNat_zero, Nat.zero_mul, Nat.zero_add,
    BitVec.extractLsb'_toNat, Nat.shiftRight_eq_div_pow]
  rw [units] at hlt ⊢
  by_cases h : exponent x ≤ 177
  · rw [if_pos h] at hlt ⊢
    rw [if_neg (by simpa using h), rightShiftStage3_toNat x n h, Nat.mod_eq_of_lt hlt]
  · rw [if_neg h, if_pos (by simpa using h)]
    rfl

theorem onesComplementExtendedFrac_toInt (x : Word) (n : Bool) :
    (onesComplementExtendedFrac (stage2 (stage1 x n))).toInt =
      if sign x then -(units x : ℤ) - 1 else units x := by
  have hlt := units_lt x
  have halign := aligned_toNat x n
  rw [onesComplementExtendedFrac, signX_eq, xor_signExtend]
  generalize 0#1 ++ BitVec.extractLsb' 24 177 _ = v at halign ⊢
  have hv : v.toInt = units x := by
    rw [BitVec.toInt_eq_toNat_of_lt (by omega), halign]
  cases sign x with
  | false => exact hv
  | true =>
    rw [if_pos rfl, if_pos rfl, BitVec.toInt_eq_toNat_cond, BitVec.toNat_not, halign]
    split <;> omega

theorem signBit_toNat (x : Word) (n : Bool) :
    ((stage2 (stage1 x n)).signX.setWidth 179).toNat = (sign x).toNat := by
  rw [signX_eq]
  cases sign x <;> rfl

/-- The sample in units of the sum. -/
def signedUnits (x : Word) : ℤ := if sign x then -units x else units x

/-- What is left of the sample that starts a sum. -/
def startUnits (x : Word) : ℤ := signedUnits x - (sign x).toNat

theorem start_toInt (x : Word) (n : Bool) : (start (stage2 (stage1 x n))).toInt = startUnits x := by
  rw [start, BitVec.toInt_signExtend_of_le (by norm_num), onesComplementExtendedFrac_toInt, startUnits,
    signedUnits]
  cases sign x <;> simp

theorem contribution_toInt (x : Word) (n : Bool) :
    (contribution (stage2 (stage1 x n))).toInt = signedUnits x := by
  have hlt := units_lt x
  have hstart := start_toInt x n
  have hbit : ((stage2 (stage1 x n)).signX.setWidth 179).toInt = (sign x).toNat := by
    rw [BitVec.toInt_eq_toNat_of_lt, signBit_toNat]
    rw [signBit_toNat]
    have := Bool.toNat_le (sign x)
    omega
  have hsum : startUnits x + (sign x).toNat = signedUnits x := by
    rw [startUnits]
    ring
  rw [contribution, toInt_add_of_fits] <;> rw [← start, hstart, hbit, hsum]
  rw [signedUnits, Fits]
  split <;> constructor <;> omega

/-! ## The sum as a float -/

/-- What the rows below the sum make of it. -/
def enc (t : BitVec 179) : Word :=
  output (stage7 (stage6 (stage5 (stage4 ⟨0#2 ++ t ++ 0#1, false, false⟩))))

theorem sum_register (t : BitVec 179) (xo ao : Bool) : sum ⟨0#2 ++ t ++ 0#1, xo, ao⟩ = t := by
  have ht := t.isLt
  apply BitVec.eq_of_toNat_eq
  rw [sum_toNat, toNat_append, toNat_append, BitVec.toNat_zero, BitVec.toNat_zero]
  omega

theorem output_congr (s s' : Stage4) (hs : s.accumulatorSign = s'.accumulatorSign)
    (hv : s.accValuePositive = s'.accValuePositive) :
    output (stage7 (stage6 (stage5 s))) = output (stage7 (stage6 (stage5 s'))) := by
  obtain ⟨sign, v, xo, ao⟩ := s
  obtain ⟨sign', v', xo', ao'⟩ := s'
  subst hs hv
  rfl

theorem output_enc (s : Stage3) : output (stage7 (stage6 (stage5 (stage4 s)))) = enc (sum s) := by
  have hsum := sum_register (sum s) false false
  apply output_congr
  · simp only [stage4, accumulatorSign, hsum]
  · simp only [stage4, accumulatorSign, hsum]

/-- The places among which the leading one is looked for. -/
def places (s : Stage4) : BitVec 177 := s.accValuePositive.extractLsb' 0 177

theorem counter_pos (s : Stage4) : 0 < (zeroCounterIn s).toNat := by
  rw [zeroCounterIn]
  split
  · next hzero =>
    rw [toNat_append, BitVec.toNat_allOnes]
    exact Nat.add_pos_right _ (by norm_num)
  · next hne =>
    rw [beq_iff_eq, ← BitVec.toNat_inj, BitVec.toNat_zero] at hne
    exact Nat.pos_of_ne_zero hne

/-- The halves after the first stage, which looks at the upper 128 of the places. -/
theorem leadingZeros_places (s : Stage4) (c : ℕ) (h : 0 < (places s).toNat)
    (hc : LeadingZeros 128 (zeroCounterIn s).toNat c) :
    LeadingZeros 177 (places s).toNat ((stage5 s).vCount68.toNat * 128 + c) := by
  have hlt := (places s).isLt
  have hupper : ((places s).extractLsb' 49 128).toNat = (places s).toNat / 2 ^ 49 := by
    rw [BitVec.extractLsb'_toNat, Nat.shiftRight_eq_div_pow]
    omega
  have hcount : (stage5 s).vCount68 = decide ((places s).toNat / 2 ^ 49 = 0) := by
    rw [← hupper]
    exact beq_toNat _ _
  rw [hcount]
  rw [zeroCounterIn, ← places, beq_toNat, hupper, BitVec.toNat_zero] at hc
  by_cases hzero : (places s).toNat / 2 ^ 49 = 0
  · rw [if_pos (decide_eq_true hzero), toNat_append, BitVec.toNat_allOnes, BitVec.extractLsb'_toNat,
      Nat.shiftRight_zero, Nat.mod_eq_of_lt (by omega)] at hc
    rw [decide_eq_true hzero, Bool.toNat_true, Nat.one_mul]
    exact leadingZeros_lower 128 (leadingZeros_pad (w := 49) (k := 79) h hc)
  · rw [if_neg (by simpa using hzero), hupper] at hc
    rw [decide_eq_false hzero, Bool.toNat_false, Nat.zero_mul, Nat.zero_add]
    exact leadingZeros_upper hc

theorem zeroCounterR_leading (s : Stage4) (h : 0 < (places s).toNat) :
    LeadingZeros 177 (places s).toNat (stage7 (stage6 (stage5 s))).zeroCounterR.toNat := by
  have h64 := half_pos (h := 64) (counter_pos s)
  have h32 := half_pos (h := 32) h64
  have h16 := half_pos (h := 16) h32
  have h8 := half_pos (h := 8) h16
  have h4 := half_pos (h := 4) h8
  have h2 := half_pos (h := 2) h4
  have hcount := leadingZeros_half (h := 64) (leadingZeros_half (h := 32) (leadingZeros_half (h := 16)
    (leadingZeros_half (h := 8) (leadingZeros_half (h := 4) (leadingZeros_half (h := 2)
      (leadingZeros_last h2))))))
  convert leadingZeros_places s _ h hcount using 1
  simp only [stage7, stage6, stage5, toNat_append, BitVec.toNat_ofBool]
  ring

theorem enc_zero : enc 0#179 = 0#32 := by decide +kernel

/-- The least sum whose flag is still low has no leading one among the places that are searched. -/
theorem enc_least : enc (BitVec.ofInt 179 (-2 ^ 177)) = 0x80000000#32 := by decide +kernel

theorem accumulatorSign_eq (s : Stage3) (h : (sum s).toInt.natAbs < 2 ^ 177) :
    accumulatorSign s = BitVec.ofBool (decide ((sum s).toInt < 0)) := by
  have hcond := BitVec.toInt_eq_toNat_cond (sum s)
  have hlt := (sum s).isLt
  apply BitVec.eq_of_toNat_eq
  rw [accumulatorSign, BitVec.extractLsb'_toNat, Nat.shiftRight_eq_div_pow, BitVec.toNat_ofBool]
  by_cases hneg : (sum s).toInt < 0
  · rw [decide_eq_true hneg, Bool.toNat_true]
    split at hcond <;> omega
  · rw [decide_eq_false hneg, Bool.toNat_false]
    split at hcond <;> omega

theorem accValuePositive_toNat (s : Stage3) (h : (sum s).toInt.natAbs < 2 ^ 177) :
    (stage4 s).accValuePositive.toNat = (sum s).toInt.natAbs := by
  have hcond := BitVec.toInt_eq_toNat_cond (sum s)
  have hlt := (sum s).isLt
  have hlow : ((sum s).extractLsb' 0 178).toNat = (sum s).toNat % 2 ^ 178 := by
    rw [BitVec.extractLsb'_toNat, Nat.shiftRight_zero]
  rw [stage4, accumulatorSign_eq s h, xor_signExtend, BitVec.toNat_add, toNat_append, toNat_append,
    BitVec.toNat_ofBool]
  by_cases hneg : (sum s).toInt < 0
  · rw [decide_eq_true hneg, if_pos rfl, BitVec.toNat_not, hlow, Bool.toNat_true, BitVec.toNat_zero,
      BitVec.toNat_zero]
    split at hcond <;> omega
  · rw [decide_eq_false hneg, if_neg (by simp), hlow, Bool.toNat_false, BitVec.toNat_zero,
      BitVec.toNat_zero]
    split at hcond <;> omega

theorem leftShiftStage3_toNat (s : Stage7) :
    (leftShiftStage3 s).toNat = s.accValuePositive.toNat * 2 ^ s.zeroCounterR.toNat % 2 ^ 179 := by
  have hr := s.zeroCounterR.isLt
  simp only [leftShiftStage3, leftStage_toNat, mul_pow_mod_mul_pow, BitVec.extractLsb'_toNat,
    Nat.shiftRight_eq_div_pow]
  congr 3
  omega

theorem finalExpUpdated_toNat (s : Stage7) (h : s.zeroCounterR.toNat < 177) :
    (finalExpUpdated s).toNat = 177 - s.zeroCounterR.toNat := by
  have hne : (s.zeroCounterR == 177#8) = false := by
    rw [beq_toNat, decide_eq_false_iff_not]
    exact h.ne
  simp only [finalExpUpdated, hne, Bool.false_eq_true, if_false, BitVec.extractLsb'_toNat,
    Nat.shiftRight_zero, BitVec.toNat_sub, toNat_append, BitVec.toNat_ofNat]
  omega

/-- The leading one of the sum gives the exponent, the 23 digits after it the fraction. -/
theorem enc_normal (t : BitVec 179) (h : t.toInt.natAbs < 2 ^ 177) (h0 : t.toInt ≠ 0) :
    ∃ c, LeadingZeros 177 t.toInt.natAbs c ∧
      enc t = pack (decide (t.toInt < 0)) (BitVec.ofNat 8 (177 - c))
        (BitVec.ofNat 23 (t.toInt.natAbs * 2 ^ c / 2 ^ 153)) := by
  have hsum := sum_register t false false
  have hsign := accumulatorSign_eq ⟨0#2 ++ t ++ 0#1, false, false⟩
  have hvalue := accValuePositive_toNat ⟨0#2 ++ t ++ 0#1, false, false⟩
  rw [hsum] at hsign hvalue
  have hplaces : (places (stage4 ⟨0#2 ++ t ++ 0#1, false, false⟩)).toNat = t.toInt.natAbs := by
    rw [places, BitVec.extractLsb'_toNat, Nat.shiftRight_zero, hvalue h, Nat.mod_eq_of_lt h]
  have hcount := zeroCounterR_leading (stage4 ⟨0#2 ++ t ++ 0#1, false, false⟩) (by omega)
  rw [hplaces] at hcount
  refine ⟨_, hcount, ?_⟩
  have hexp := finalExpUpdated_toNat _ hcount.lt
  have hshift := leftShiftStage3_toNat
    (stage7 (stage6 (stage5 (stage4 ⟨0#2 ++ t ++ 0#1, false, false⟩))))
  have hrow : (stage7 (stage6 (stage5 (stage4 ⟨0#2 ++ t ++ 0#1, false, false⟩)))).accValuePositive =
      (stage4 ⟨0#2 ++ t ++ 0#1, false, false⟩).accValuePositive := rfl
  have hsrow : (stage7 (stage6 (stage5 (stage4 ⟨0#2 ++ t ++ 0#1, false, false⟩)))).accumulatorSign =
      accumulatorSign ⟨0#2 ++ t ++ 0#1, false, false⟩ := rfl
  rw [hrow, hvalue h] at hshift
  rw [enc, output, pack, hsrow, hsign h]
  generalize (stage7 (stage6 (stage5 (stage4 ⟨0#2 ++ t ++ 0#1, false, false⟩)))) = s7 at *
  congr 2
  · apply BitVec.eq_of_toNat_eq
    rw [hexp, BitVec.toNat_ofNat]
    omega
  · apply BitVec.eq_of_toNat_eq
    have hhi := hcount.2
    rw [BitVec.extractLsb'_toNat, hshift, Nat.shiftRight_eq_div_pow, BitVec.toNat_ofNat]
    omega

/-- Every sum in range is encoded as the float of at most 24 digits next to it towards zero. -/
theorem enc_value (t : BitVec 179) (h : t.toInt.natAbs < 2 ^ 177) :
    value (enc t) = some (towardZero 24 (t.toInt * 2 ^ (-126 : ℤ))) := by
  by_cases h0 : t.toInt = 0
  · have ht : t = 0#179 := BitVec.eq_of_toInt_eq (by rw [h0, BitVec.toInt_zero])
    rw [h0, ht, enc_zero, Int.cast_zero, zero_mul, towardZero_zero, value_zero]
  · obtain ⟨c, hcount, henc⟩ := enc_normal t h h0
    obtain ⟨hs, he, hf⟩ := pack_fields (decide (t.toInt < 0)) (BitVec.ofNat 8 (177 - c))
      (BitVec.ofNat 23 (t.toInt.natAbs * 2 ^ c / 2 ^ 153))
    have hc := hcount.lt
    obtain ⟨hlo, hhi⟩ := hcount
    have hexp : exponent (enc t) = 177 - c := by
      rw [henc, he, BitVec.toNat_ofNat]
      omega
    have hmant : 2 ^ 23 + fraction (enc t) = t.toInt.natAbs * 2 ^ c / 2 ^ 153 := by
      rw [henc, hf, BitVec.toNat_ofNat]
      omega
    have hmag : magnitude (enc t) = towardZero 24 (t.toInt.natAbs * 2 ^ (-126 : ℤ)) := by
      have hscaled : (t.toInt.natAbs : ℚ) * 2 ^ (-126 : ℤ) =
          (t.toInt.natAbs * 2 ^ c : ℕ) * 2 ^ (-126 - c : ℤ) := by
        rw [zpow_sub₀ (by norm_num), zpow_natCast]
        push_cast
        field_simp
      rw [hscaled, towardZero_scaled (p := 23) (k := 153) (by omega) (by omega), ← hmant, magnitude,
        if_neg (by omega), hexp, Nat.cast_sub hc.le]
      push_cast
      congr 2
      ring
    rw [value, if_neg (by omega), hmag, henc, hs]
    by_cases hneg : t.toInt < 0
    · have habs : (t.toInt.natAbs : ℚ) = -t.toInt := by
        rw [Nat.cast_natAbs, abs_of_neg hneg, Int.cast_neg]
      rw [decide_eq_true hneg, if_pos rfl, habs, neg_mul, towardZero_neg, neg_neg]
    · have habs : (t.toInt.natAbs : ℚ) = t.toInt := by
        rw [Nat.cast_natAbs, abs_of_nonneg (not_lt.mp hneg)]
      rw [decide_eq_false hneg, if_neg (by simp), habs]

/-! ## The pipeline -/

/-- What a sample counts for in the sum. -/
def v (x : Word) : BitVec 179 := contribution (stage2 (stage1 x false))

/-- What it counts for when it starts a sum. -/
def first (x : Word) : BitVec 179 := start (stage2 (stage1 x true))

theorem v_eq_first (x : Word) : v x = first x + (BitVec.ofBool (sign x)).setWidth 179 := by
  rw [← signX_eq x false]
  rfl

/-- The rows below the sum, each as the result that will come of it. -/
def rows (s : State) : Fin 4 → Word :=
  ![output (stage7 (stage6 (stage5 s.stage4))), output (stage7 (stage6 s.stage5)),
    output (stage7 s.stage6), output s.stage7]

section refinement

variable (C : Cores.FpCores (BitVec 179))

/-- A sample in one of the first two rows. -/
structure Holds (s : Stage2) (x : Word × Bool) : Prop where
  v : contribution s = C.v x.1
  start : FpAcc0002.start s = C.start x.1
  n : s.n = x.2

structure Refines (s : State) (p : Cores.FpAcc (BitVec 179)) : Prop where
  input1 : Holds C (stage2 s.stage1) p.input1
  input2 : Holds C s.stage2 p.input2
  acc : sum s.stage3 = p.acc
  output : rows s = p.output

variable {C} (hv : C.v = v) (hfirst : C.start = first) (henc : C.enc = enc)
  (hclear : C.accClear = ⟨(0#32, false), (0#32, false), 0#179, rows cleared⟩)
include hv hfirst hclear

theorem cleared_refines : Refines C cleared C.accClear := by
  rw [hclear]
  refine ⟨⟨?_, ?_, rfl⟩, ⟨?_, ?_, rfl⟩, rfl, rfl⟩
  all_goals simp only [hv, hfirst]
  all_goals decide +kernel

include henc

/-- The entity is the accumulator of the interface. -/
theorem step_refines {s : State} {p : Cores.FpAcc (BitVec 179)} (h : Refines C s p)
    (areset en : Bool) (x : Word) (n : Bool) :
    Refines C (step areset en x n s) (C.fpAcc areset en x n p) := by
  cases areset with
  | true => exact cleared_refines hv hfirst hclear
  | false =>
    cases en with
    | false => exact h
    | true =>
      refine ⟨⟨?_, ?_, rfl⟩, h.input1, ?_, ?_⟩
      · rw [hv]
        rfl
      · rw [hfirst]
        rfl
      · have hsum := sum_stage3 s.stage2 s.stage3
        have hacc : (C.fpAcc false true x n p).acc = C.accumulate p.acc p.input2 := rfl
        have hrow : (step false true x n s).stage3 = stage3 s.stage2 s.stage3 := rfl
        rw [hacc, hrow, hsum, Cores.FpCores.accumulate, ← h.input2.n, ← h.input2.v, ← h.input2.start,
          ← h.acc]
      · have hout : (C.fpAcc false true x n p).output = advance true (C.enc p.acc) p.output := rfl
        have hrows : rows (step false true x n s) =
            ![FpAcc0002.output (stage7 (stage6 (stage5 (stage4 s.stage3)))),
              FpAcc0002.output (stage7 (stage6 (stage5 s.stage4))),
              FpAcc0002.output (stage7 (stage6 s.stage5)), FpAcc0002.output (stage7 s.stage6)] := rfl
        rw [hout, henc, ← h.acc, ← h.output, hrows, output_enc, rows]
        simp only [advance_cons, advance_single]

omit hv hfirst henc in
theorem r_refines {s : State} {p : Cores.FpAcc (BitVec 179)} (h : Refines C s p) (areset : Bool) :
    r areset s = C.fpAccR areset p := by
  rw [r, Cores.FpCores.fpAccR]
  cases areset with
  | true =>
    rw [if_pos rfl, if_pos rfl, hclear]
    rfl
  | false =>
    rw [if_neg (by simp), if_neg (by simp), ← h.output]
    rfl

end refinement

/-! ## Runs -/

/-- The sum as it will be once the samples in the first two rows have been taken. -/
def ahead (s : State) : Stage3 := stage3 (stage2 s.stage1) (stage3 s.stage2 s.stage3)

/-- What the pins carry during a cycle without a clear. -/
structure Cycle where
  en : Bool
  x : Word
  n : Bool

def feed (s : State) (cycles : List Cycle) : State :=
  cycles.foldl (fun s i => step false i.en i.x i.n s) s

def take (s3 : Stage3) (i : Cycle) : Stage3 := stage3 (stage2 (stage1 i.x i.n)) s3

theorem feed_enabled (s : State) (cycles : List Cycle) :
    feed s cycles = feed s (cycles.filter (·.en)) :=
  foldl_gated (fun (i : Cycle) s => step false i.en i.x i.n s) (·.en)
    (fun i s hen => by rw [hen]; rfl) s cycles

theorem ahead_feed (s : State) (cycles : List Cycle) (hen : ∀ i ∈ cycles, i.en = true) :
    ahead (feed s cycles) = cycles.foldl take (ahead s) := by
  induction cycles generalizing s with
  | nil => rfl
  | cons i rest ih =>
    have hi := hen i List.mem_cons_self
    have hstep : ahead (step false i.en i.x i.n s) = take (ahead s) i := by
      rw [hi]
      rfl
    rw [List.foldl_cons, ← hstep]
    exact ih _ fun j hj => hen j (List.mem_cons_of_mem i hj)

/-- Six more enabled cycles bring what was ahead to the output. -/
theorem feed_six (s : State) (cycles : List Cycle) (hlen : cycles.length = 6)
    (hen : ∀ i ∈ cycles, i.en = true) :
    (feed s cycles).stage7 = stage7 (stage6 (stage5 (stage4 (ahead s)))) := by
  match cycles, hlen with
  | [a, b, c, d, e, f], _ =>
    simp only [List.forall_mem_cons] at hen
    obtain ⟨ha, hb, hc, hd, he, hf, -⟩ := hen
    simp only [feed, List.foldl_cons, List.foldl_nil, ha, hb, hc, hd, he, hf]
    rfl

/-! ### The flags -/

theorem accOverflow_eq (s : Stage3) :
    accOverflow s = (s.accOverflowFeedback || !decide (Fits 178 (sum s).toInt)) := by
  have hcond := BitVec.toInt_eq_toNat_cond (sum s)
  have hlt := (sum s).isLt
  have hbits : ((sum s).getLsbD 178 ^^ (sum s).getLsbD 177) = !decide (Fits 178 (sum s).toInt) := by
    rw [BitVec.getLsbD, BitVec.getLsbD, Nat.testBit_eq_decide_div_mod_eq,
      Nat.testBit_eq_decide_div_mod_eq, Bool.eq_iff_iff, Bool.xor_iff_ne, ne_eq, decide_eq_decide,
      Bool.not_eq_true', decide_eq_false_iff_not, Fits]
    split at hcond <;> omega
  rw [accOverflow, hbits]

/-- A sum in range is the exact one after the next sample; the flag tells whether it is in range still. -/
theorem sum_take (s3 : Stage3) (x : Word) (en : Bool) (h : Fits 178 (sum s3).toInt) :
    (sum (take s3 ⟨en, x, false⟩)).toInt = (sum s3).toInt + signedUnits x := by
  have hlt := units_lt x
  have hnext := sum_stage3 (stage2 (stage1 x false)) s3
  have hn : (stage2 (stage1 x false)).n = false := rfl
  rw [hn, if_neg (by simp)] at hnext
  rw [take, hnext, toInt_add_of_fits] <;> rw [contribution_toInt]
  obtain ⟨hlo, hhi⟩ := h
  rw [signedUnits, Fits]
  split <;> constructor <;> omega

theorem sum_start (s3 : Stage3) (x : Word) (en : Bool) :
    (sum (take s3 ⟨en, x, true⟩)).toInt = startUnits x := by
  have hn : (stage2 (stage1 x true)).n = true := rfl
  rw [take, sum_stage3, hn, if_pos rfl]
  exact start_toInt x true

/-! ### Whole sums -/

/-- The sum of a sample that starts it and of those that follow. It is one unit less than the sum of
their units when the first one is negative, since a sum is started without the carry of its sign. -/
def total (x : Word) (xs : List Word) : ℤ := startUnits x + (xs.map signedUnits).sum

theorem total_concat (x : Word) (xs : List Word) (y : Word) :
    total x (xs ++ [y]) = total x xs + signedUnits y := by
  simp [total, add_assoc]

/-- What the row of the sum holds after `x` has started it and `xs` have been added. -/
structure Sums (x : Word) (xs : List Word) (s : Stage3) : Prop where
  xo : s.xOverflowFeedback = (x :: xs).any fun y => decide (177 < exponent y)
  ao : accOverflow s = false ↔ ∀ ys, ys <+: xs → Fits 178 (total x ys)
  sum : accOverflow s = false → (sum s).toInt = total x xs

theorem sums_start (s : Stage3) (i : Cycle) (hn : i.n = true) : Sums i.x [] (take s i) := by
  obtain ⟨en, x, n⟩ := i
  subst hn
  have hsum : (FpAcc0002.sum (take s ⟨en, x, true⟩)).toInt = total x [] := by
    rw [sum_start, total, List.map_nil, List.sum_nil, add_zero]
  have hfeedback : (take s ⟨en, x, true⟩).accOverflowFeedback = false := rfl
  refine ⟨?_, ?_, fun _ => hsum⟩
  · simp only [take, stage3, cmpGTC_eq, List.any_cons, List.any_nil, Bool.or_false]
    rfl
  · simp only [accOverflow_eq, hfeedback, hsum, List.prefix_nil, forall_eq]
    simp

theorem sums_take {x : Word} {xs : List Word} {s : Stage3} (h : Sums x xs s) (i : Cycle)
    (hn : i.n = false) : Sums x (xs ++ [i.x]) (take s i) := by
  obtain ⟨en, y, n⟩ := i
  subst hn
  have hfeedback : (take s ⟨en, y, false⟩).accOverflowFeedback = accOverflow s := rfl
  have hsum : accOverflow s = false →
      (FpAcc0002.sum (take s ⟨en, y, false⟩)).toInt = total x (xs ++ [y]) := by
    intro hlow
    have hfits := h.ao.mp hlow xs List.prefix_rfl
    rw [← h.sum hlow] at hfits
    rw [sum_take s y en hfits, h.sum hlow, total_concat]
  have hao := accOverflow_eq (take s ⟨en, y, false⟩)
  rw [hfeedback] at hao
  refine ⟨?_, ?_, fun hlow => ?_⟩
  · have hxo : (take s ⟨en, y, false⟩).xOverflowFeedback =
        (s.xOverflowFeedback || (stage2 (stage1 y false)).cmpGTC) := rfl
    rw [hxo, cmpGTC_eq, h.xo, ← List.cons_append, List.any_append, List.any_cons (l := []),
      List.any_nil, Bool.or_false]
  · rw [hao, Bool.or_eq_false_iff, Bool.not_eq_false', decide_eq_true_iff]
    constructor
    · rintro ⟨hlow, hfits⟩ ys hys
      rcases List.prefix_concat_iff.mp hys with rfl | hys
      · rw [← hsum hlow]
        exact hfits
      · exact h.ao.mp hlow ys hys
    · intro hall
      have hlow := h.ao.mpr fun ys hys => hall ys (hys.trans (List.prefix_append _ _))
      refine ⟨hlow, ?_⟩
      rw [hsum hlow]
      exact hall _ List.prefix_rfl
  · rw [hao, Bool.or_eq_false_iff] at hlow
    exact hsum hlow.1

theorem sums_run {x : Word} {xs : List Word} {s : Stage3} (h : Sums x xs s) (rest : List Cycle)
    (hn : ∀ i ∈ rest, i.n = false) : Sums x (xs ++ rest.map (·.x)) (rest.foldl take s) := by
  induction rest generalizing xs s with
  | nil => simpa using h
  | cons i rest ih =>
    have hnext := ih (sums_take h i (hn i List.mem_cons_self)) fun j hj =>
      hn j (List.mem_cons_of_mem i hj)
    rw [List.map_cons, List.foldl_cons]
    simpa using hnext

/-- **The exact accumulator.** From any state, and whatever the cycles are in which it is not enabled:
six enabled cycles after the last sample of a sum, the two flags tell whether a sample or a partial sum
was out of range, and without an overflow the output is the exact sum of the samples' units, less one
unit if the first sample is negative, cut after 24 digits, or minus zero at the bottom of the range. -/
theorem total_reaches_output (s : State) (cycles before rest after : List Cycle) (first : Cycle)
    (hcycles : cycles.filter (·.en) = before ++ first :: rest ++ after) (hfirst : first.n = true)
    (hrest : ∀ i ∈ rest, i.n = false) (hafter : after.length = 6) :
    xo false (feed s cycles) = (first :: rest).any (fun i => decide (177 < exponent i.x)) ∧
      (ao false (feed s cycles) = false ↔
        ∀ ys, ys <+: rest.map (·.x) → Fits 178 (total first.x ys)) ∧
      (ao false (feed s cycles) = false → total first.x (rest.map (·.x)) ≠ -2 ^ 177 →
        value (r false (feed s cycles)) =
          some (towardZero 24 (total first.x (rest.map (·.x)) * 2 ^ (-126 : ℤ)))) ∧
      (ao false (feed s cycles) = false → total first.x (rest.map (·.x)) = -2 ^ 177 →
        r false (feed s cycles) = 0x80000000#32) := by
  have hen : ∀ i ∈ before ++ first :: rest ++ after, i.en = true := by
    intro i hi
    rw [← hcycles, List.mem_filter] at hi
    exact hi.2
  have hsplit : feed s cycles = feed (feed s (before ++ first :: rest)) after := by
    rw [feed_enabled, hcycles, feed, List.foldl_append]
    rfl
  have hout := feed_six (feed s (before ++ first :: rest)) after hafter fun i hi =>
    hen i (List.mem_append_right _ hi)
  have hahead := ahead_feed s (before ++ first :: rest) fun i hi => hen i (List.mem_append_left _ hi)
  have hsums := sums_run (sums_start (before.foldl take (ahead s)) first hfirst) rest hrest
  rw [List.foldl_append, List.foldl_cons] at hahead
  rw [← hahead, List.nil_append] at hsums
  rw [← hsplit] at hout
  generalize ahead (feed s (before ++ first :: rest)) = s3 at hout hsums
  have hxo : xo false (feed s cycles) = s3.xOverflowFeedback := by
    rw [xo, if_neg (by simp), hout]
    rfl
  have hao : ao false (feed s cycles) = accOverflow s3 := by
    rw [ao, if_neg (by simp), hout]
    rfl
  have hr : r false (feed s cycles) = enc (sum s3) := by
    rw [r, if_neg (by simp), hout, output_enc]
  rw [hxo, hao, hr]
  refine ⟨?_, hsums.ao, fun hlow hedge => ?_, fun hlow hedge => ?_⟩
  · rw [hsums.xo, List.any_cons, List.any_cons, List.any_map]
    rfl
  · obtain ⟨hlo, hhi⟩ := hsums.ao.mp hlow _ List.prefix_rfl
    rw [← hsums.sum hlow] at hlo hhi hedge ⊢
    exact enc_value _ (by omega)
  · rw [← BitVec.ofInt_toInt (x := sum s3), hsums.sum hlow, hedge, enc_least]

/-- A sum of two samples with a cycle in between that is not enabled. -/
theorem total_reaches_output_two_samples :
    ao false (feed cleared (⟨true, 0x43000000#32, true⟩ :: ⟨false, 0x42000000#32, false⟩ ::
      ⟨true, 0xbf000000#32, false⟩ :: .replicate 6 ⟨true, 0#32, false⟩)) = false ↔
      ∀ ys, ys <+: [0xbf000000#32] → Fits 178 (total 0x43000000#32 ys) :=
  (total_reaches_output cleared _ [] [⟨true, 0xbf000000#32, false⟩] _ ⟨true, 0x43000000#32, true⟩ rfl
    rfl (by simp) rfl).2.1

end DsdCordic.FpAcc0002
