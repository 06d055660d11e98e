import DsdCordic.Foundations.Binary32
import DsdCordic.Foundations.Clocked
import Mathlib.Data.Int.Log
import Mathlib.Data.Rat.Floor

/-! The generated floating-point cores. The design relies on their interfaces only: a multiplier of
four stages and an adder of five, and an accumulator of seven, each gated by its enable, whatever
functions they compute. What a sample counts for when it starts a sum is kept apart from what it adds
to one; an accumulator that makes no difference has one function for both. -/
namespace DsdCordic.Cores
open Binary32 Clocked
set_option autoImplicit false

/-- Registers of `fp_acc`: two input stages of a sample and its `n`, the sum, and the output stages
of the encoded sum. -/
@[ext] structure FpAcc (A : Type) where
  input1 : Word × Bool
  input2 : Word × Bool
  acc : A
  output : Fin 4 → Word

structure FpCores (A : Type) [AddZeroClass A] where
  mul : Word → Word → Word
  add : Word → Word → Word
  v : Word → A
  start : Word → A
  enc : A → Word
  v_zero : v 0#32 = 0
  /-- What an asynchronous reset leaves in the stages, as it is at power-on. -/
  multClear : Fin 4 → Word
  addClear : Fin 5 → Word
  accClear : FpAcc A

variable {A : Type} [AddZeroClass A] (C : FpCores A)

namespace FpCores

def fpMult (areset en : Bool) (a b : Word) (p : Fin 4 → Word) : Fin 4 → Word :=
  pipe C.multClear areset en (C.mul a b) p

def fpMultQ (areset : Bool) (p : Fin 4 → Word) : Word := pipeQ C.multClear areset p

def fpAdd (areset en : Bool) (a b : Word) (p : Fin 5 → Word) : Fin 5 → Word :=
  pipe C.addClear areset en (C.add a b) p

def fpAddQ (areset : Bool) (p : Fin 5 → Word) : Word := pipeQ C.addClear areset p

/-- The accumulator takes a sample with `n` set as the start of a new sum. -/
def accumulate (acc : A) (sample : Word × Bool) : A :=
  if sample.2 then C.start sample.1 else acc + C.v sample.1

def fpAcc (areset en : Bool) (x : Word) (n : Bool) (s : FpAcc A) : FpAcc A :=
  if areset then C.accClear
  else if en then
    { input1 := (x, n)
      input2 := s.input1
      acc := C.accumulate s.acc s.input2
      output := advance true (C.enc s.acc) s.output }
  else s

def fpAccR (areset : Bool) (s : FpAcc A) : Word := if areset then C.accClear.output 3 else s.output 3

/-! ## The accumulator -/

/-- The sum as it will be once the samples in the input stages have been taken. -/
def ahead (s : FpAcc A) : A := C.accumulate (C.accumulate s.acc s.input2) s.input1

theorem ahead_enabled (x : Word) (n : Bool) (s : FpAcc A) :
    C.ahead (C.fpAcc false true x n s) = C.accumulate (C.ahead s) (x, n) := rfl

theorem ahead_disabled (x : Word) (n : Bool) (s : FpAcc A) :
    C.ahead (C.fpAcc false false x n s) = C.ahead s := rfl

theorem accumulate_zero (acc : A) : C.accumulate acc (0#32, false) = acc := by
  rw [accumulate, C.v_zero]
  exact add_zero acc

/-- What was ahead when a sample entered the first stage leaves the accumulator after six more
enabled edges. -/
theorem fpAcc_run (en n : ℕ → Bool) (x : ℕ → Word) (s : ℕ → FpAcc A) (t : ℕ)
    (hs : ∀ c, s (c + 1) = C.fpAcc false (en c) (x c) (n c) (s c))
    (hen : ∀ j < 6, en (t + j) = true) : C.fpAccR false (s (t + 6)) = C.enc (C.ahead (s t)) := by
  have h1 := hs t
  have h2 := hs (t + 1)
  have hen1 : en t = true := hen 0 (by omega)
  rw [hen1] at h1
  rw [hen 1 (by omega)] at h2
  have hacc : (s (t + 2)).acc = C.ahead (s t) := by
    rw [h2, h1]
    rfl
  have hout := advance_reaches (fun _ => true) (fun c => C.enc (s c).acc) (fun c => (s c).output)
    (t + 2) 3 (by omega) ?_ (fun _ _ => rfl)
  · rw [← hacc]
    exact hout
  · intro j hj
    have hstep := hs (t + 2 + j)
    rw [Nat.add_assoc t 2 j, hen (2 + j) (by omega)] at hstep
    rw [Nat.add_assoc t 2 j, hstep]
    rfl

end FpCores

/-! ## Cores that truncate -/

/-- The float of a rational in the normal range, rounded towards zero. -/
def truncate (q : ℚ) : Word :=
  if q = 0 then 0#32
  else
    let e := Int.log 2 |q|
    pack (decide (q < 0)) (BitVec.ofInt 8 (e + 127)) (BitVec.ofNat 23 ⌊|q| * 2 ^ (23 - e)⌋₊)

/-- Cores over exact sums; they agree with any faithful rounding where a result is a float. -/
def truncating : FpCores ℚ where
  mul a b := truncate ((value a).getD 0 * (value b).getD 0)
  add a b := truncate ((value a).getD 0 + (value b).getD 0)
  v x := (value x).getD 0
  start x := (value x).getD 0
  enc := truncate
  v_zero := by
    have hm : magnitude 0#32 = 0 := by simp [magnitude, exponent, fraction]
    rw [value, if_neg (by decide), hm, neg_zero, ite_self]
    rfl
  multClear _ := 0#32
  addClear _ := 0#32
  accClear := ⟨(0#32, false), (0#32, false), 0, fun _ => 0#32⟩

example : truncating.mul 0x43000000#32 0x3f000000#32 = 0x42800000#32 := by decide +kernel

end DsdCordic.Cores
