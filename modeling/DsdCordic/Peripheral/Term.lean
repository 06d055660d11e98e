import DsdCordic.Cordic.Cosine
import DsdCordic.Peripheral.Cores

/-! The unit for `f(x) = x^2 cos((x - 128) / 128) + x / 2`. Three lanes of different depth meet in a
multiplier and an adder. A stall holds the cores and clears the stages of the cosine, while its angle
register and the two delay lines run on. -/
namespace DsdCordic.Term
open Binary32 Clocked Cores Cosine Engine
set_option autoImplicit false

/-- Word 0 of each delay line is the output of its multiplier, a wire; word `j + 1` of the source is
word `j` here. -/
structure State where
  fpMulSqr : Fin 4 → Word
  x2DelayLine : Fin 2 → Word
  cordicCos : Cosine.State shipped
  halfX : Fin 4 → Word
  halfXDelayLine : Fin 6 → Word
  combineTopMid : Fin 4 → Word
  finalAdder : Fin 5 → Word

structure Pins where
  clkEn : Bool
  reset : Bool
  x : Word

variable {A : Type} [AddZeroClass A] (C : FpCores A)

def step (pins : Pins) (s : State) : State where
  fpMulSqr := C.fpMult pins.reset pins.clkEn pins.x pins.x s.fpMulSqr
  x2DelayLine := advance true (C.fpMultQ pins.reset s.fpMulSqr) s.x2DelayLine
  cordicCos := Cosine.step shipped ⟨pins.reset, pins.clkEn, pins.x⟩ s.cordicCos
  halfX := C.fpMult pins.reset pins.clkEn pins.x 0x3f000000#32 s.halfX
  halfXDelayLine := advance true (C.fpMultQ pins.reset s.halfX) s.halfXDelayLine
  combineTopMid := C.fpMult pins.reset pins.clkEn (Cosine.result shipped s.cordicCos)
    (s.x2DelayLine 1) s.combineTopMid
  finalAdder := C.fpAdd pins.reset pins.clkEn (C.fpMultQ pins.reset s.combineTopMid)
    (s.halfXDelayLine 5) s.finalAdder

def result (reset : Bool) (s : State) : Word := C.fpAddQ reset s.finalAdder

def powerOn : State where
  fpMulSqr := C.multClear
  x2DelayLine _ := 0#32
  cordicCos := ⟨0#24, fun _ => cleared shipped⟩
  halfX := C.multClear
  halfXDelayLine _ := 0#32
  combineTopMid := C.multClear
  finalAdder := C.addClear

/-- What the unit computes of one input word. -/
def fx (x : Word) : Word := C.add (C.mul (cosv shipped x) (C.mul x x)) (C.mul x 0x3f000000#32)

/-! ## The lanes -/

section lanes

variable {C} {input : ℕ → Pins} {s : State} {t : ℕ}

/-- A lane through a multiplier: four enabled edges, and as many free ones as its delay line is long. -/
theorem multiplied_lane {n : ℕ} {p : ℕ → Fin 4 → Word} {d : ℕ → Fin (n + 1) → Word} {a b : ℕ → Word}
    (hp : ∀ c, p (c + 1) = C.fpMult (input c).reset (input c).clkEn (a c) (b c) (p c))
    (hd : ∀ c, d (c + 1) = advance true (C.fpMultQ (input c).reset (p c)) (d c))
    (hreset : ∀ j ≤ 15, (input (t + j)).reset = false)
    (hen : ∀ j ≤ 14, (input (t + j)).clkEn = true) :
    d (t + 4 + n + 1) (Fin.last n) = C.mul (a t) (b t) := by
  have hmul := pipe_run C.multClear (fun c => (input c).reset) (fun c => (input c).clkEn)
    (fun c => C.mul (a c) (b c)) p t hp (fun j hj => hreset j (by omega)) (fun j hj => hen j (by omega))
  have hreach := advance_reaches (fun _ => true) (fun c => C.fpMultQ (input c).reset (p c)) d (t + 4) n
    (by omega) (fun _ _ => hd _) (fun _ _ => rfl)
  exact hreach.trans hmul

/-- Top lane: one free edge and five enabled ones. -/
theorem top_lane (hreset : ∀ j ≤ 15, (input (t + j)).reset = false)
    (hen : ∀ j ≤ 14, (input (t + j)).clkEn = true) :
    Cosine.result shipped (run (step C) input s (t + 6)).cordicCos = cosv shipped (input t).x := by
  have hpart := run_project (step C) (Cosine.step shipped) input s State.cordicCos
    (fun pins _ => ⟨pins.reset, pins.clkEn, pins.x⟩) (fun _ _ => rfl) (t + 6)
  rw [hpart]
  have hstages : shipped.pipelineStages - 1 = 5 := rfl
  exact Cosine.result_run shipped_scheduled (fun c => ⟨(input c).reset, (input c).clkEn, (input c).x⟩)
    s.cordicCos t (fun j _ hj => ⟨hreset j (by omega), hen j (by omega)⟩)

/-- The lanes meet on one sample. -/
theorem result_run (hreset : ∀ j ≤ 15, (input (t + j)).reset = false)
    (hen : ∀ j ≤ 14, (input (t + j)).clkEn = true) :
    result C (input (t + 15)).reset (run (step C) input s (t + 15)) = fx C (input t).x := by
  have hmiddle : (run (step C) input s (t + 6)).x2DelayLine 1 = C.mul (input t).x (input t).x :=
    multiplied_lane (p := fun c => (run (step C) input s c).fpMulSqr)
      (d := fun c => (run (step C) input s c).x2DelayLine) (fun _ => rfl) (fun _ => rfl) hreset hen
  have hbottom : (run (step C) input s (t + 10)).halfXDelayLine 5 = C.mul (input t).x 0x3f000000#32 :=
    multiplied_lane (p := fun c => (run (step C) input s c).halfX)
      (d := fun c => (run (step C) input s c).halfXDelayLine) (fun _ => rfl) (fun _ => rfl) hreset hen
  have hcombine := pipe_run C.multClear (fun c => (input c).reset) (fun c => (input c).clkEn)
    (fun c => C.mul (Cosine.result shipped (run (step C) input s c).cordicCos)
      ((run (step C) input s c).x2DelayLine 1))
    (fun c => (run (step C) input s c).combineTopMid) (t + 6) (fun _ => rfl)
    (fun j hj => by rw [Nat.add_assoc]; exact hreset (6 + j) (by omega))
    (fun j hj => by rw [Nat.add_assoc]; exact hen (6 + j) (by omega))
  have hadd := pipe_run C.addClear (fun c => (input c).reset) (fun c => (input c).clkEn)
    (fun c => C.add (C.fpMultQ (input c).reset (run (step C) input s c).combineTopMid)
      ((run (step C) input s c).halfXDelayLine 5))
    (fun c => (run (step C) input s c).finalAdder) (t + 10) (fun _ => rfl)
    (fun j hj => by rw [Nat.add_assoc]; exact hreset (10 + j) (by omega))
    (fun j hj => by rw [Nat.add_assoc]; exact hen (10 + j) (by omega))
  have hcombine' : C.fpMultQ (input (t + 10)).reset (run (step C) input s (t + 10)).combineTopMid =
      C.mul (cosv shipped (input t).x) (C.mul (input t).x (input t).x) := by
    rw [← top_lane (C := C) (s := s) hreset hen, ← hmiddle]
    exact hcombine
  rw [fx, ← hcombine', ← hbottom]
  exact hadd

end lanes

/-- Whatever the registers held and whatever the enable did before: fifteen enabled edges after a
word was at the input, its own products and sum are at the output. -/
theorem lanes_aligned (C : FpCores A) (input : ℕ → Pins) (s : State) (t : ℕ)
    (hreset : ∀ j ≤ 15, (input (t + j)).reset = false)
    (hen : ∀ j ≤ 14, (input (t + j)).clkEn = true) :
    result C (input (t + 15)).reset (run (step C) input s (t + 15)) =
      C.add
        (C.mul
          (Packer.packer 22 (iterate shipped.angles 16
            (start shipped (Sdiv.fixedFractionalAngle 22 (input t).x))).x)
          (C.mul (input t).x (input t).x))
        (C.mul (input t).x 0x3f000000#32) := by
  rw [result_run hreset hen, fx, cosv_shipped]

theorem lanes_aligned_at_128 :
    let pins : Pins := ⟨true, false, 0x43000000#32⟩
    result truncating false (run (step truncating) (fun _ => pins) (powerOn truncating) (0 + 15)) =
      truncating.add
        (truncating.mul
          (Packer.packer 22 (iterate shipped.angles 16
            (start shipped (Sdiv.fixedFractionalAngle 22 0x43000000#32))).x)
          (truncating.mul 0x43000000#32 0x43000000#32))
        (truncating.mul 0x43000000#32 0x3f000000#32) :=
  lanes_aligned truncating (fun _ => ⟨true, false, 0x43000000#32⟩) (powerOn truncating) 0
    (fun _ _ => rfl) (fun _ _ => rfl)

end DsdCordic.Term
