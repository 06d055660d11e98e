import DsdCordic.Generated.FpAcc0002
import DsdCordic.Generated.FpAdd0002
import DsdCordic.Generated.FpMult0002
import DsdCordic.Peripheral.Driver

/-! The peripheral with the generated cores in place, register by register. It refines the peripheral
over core interfaces whose functions are those that the cores compute, so what holds of the latter for
any cores holds of the hardware. -/
namespace DsdCordic.Elaborated
open Binary32 Clocked Cores DsdCordic.Top
set_option autoImplicit false

/-! ## The cores -/

/-- The functions of the generated cores, and what their clears leave. -/
def generated : FpCores (BitVec 179) where
  mul := FpMult0002.mul
  add := FpAdd0002.add
  v := FpAcc0002.v
  start := FpAcc0002.first
  enc := FpAcc0002.enc
  v_zero := by decide +kernel
  multClear := FpMult0002.view FpMult0002.cleared
  addClear := FpAdd0002.view FpAdd0002.cleared
  accClear := ⟨(0#32, false), (0#32, false), 0#179, FpAcc0002.rows FpAcc0002.cleared⟩

/-! ## The unit -/

@[ext] structure Lanes where
  fpMulSqr : FpMult0002.State
  x2DelayLine : Fin 2 → Word
  cordicCos : Cosine.State Cosine.shipped
  halfX : FpMult0002.State
  halfXDelayLine : Fin 6 → Word
  combineTopMid : FpMult0002.State
  finalAdder : FpAdd0002.State

namespace Lanes

def step (pins : Term.Pins) (s : Lanes) : Lanes where
  fpMulSqr := FpMult0002.step pins.reset pins.clkEn pins.x pins.x s.fpMulSqr
  x2DelayLine := advance true (FpMult0002.q pins.reset s.fpMulSqr) s.x2DelayLine
  cordicCos := Cosine.step Cosine.shipped ⟨pins.reset, pins.clkEn, pins.x⟩ s.cordicCos
  halfX := FpMult0002.step pins.reset pins.clkEn pins.x 0x3f000000#32 s.halfX
  halfXDelayLine := advance true (FpMult0002.q pins.reset s.halfX) s.halfXDelayLine
  combineTopMid := FpMult0002.step pins.reset pins.clkEn (Cosine.result Cosine.shipped s.cordicCos)
    (s.x2DelayLine (Fin.last 1)) s.combineTopMid
  finalAdder := FpAdd0002.step pins.reset pins.clkEn (FpMult0002.q pins.reset s.combineTopMid)
    (s.halfXDelayLine (Fin.last 5)) s.finalAdder

def result (reset : Bool) (s : Lanes) : Word := FpAdd0002.q reset s.finalAdder

def powerOn : Lanes where
  fpMulSqr := FpMult0002.cleared
  x2DelayLine _ := 0#32
  cordicCos := ⟨0#24, fun _ => Cosine.cleared Cosine.shipped⟩
  halfX := FpMult0002.cleared
  halfXDelayLine _ := 0#32
  combineTopMid := FpMult0002.cleared
  finalAdder := FpAdd0002.cleared

/-- The unit over interfaces that stands for this one. -/
def view (s : Lanes) : Term.State where
  fpMulSqr := FpMult0002.view s.fpMulSqr
  x2DelayLine := s.x2DelayLine
  cordicCos := s.cordicCos
  halfX := FpMult0002.view s.halfX
  halfXDelayLine := s.halfXDelayLine
  combineTopMid := FpMult0002.view s.combineTopMid
  finalAdder := FpAdd0002.view s.finalAdder

theorem view_step (pins : Term.Pins) (s : Lanes) :
    view (step pins s) = Term.step generated pins (view s) := by
  have hmul := FpMult0002.view_step generated rfl rfl pins.reset pins.clkEn
  have hadd := FpAdd0002.view_step generated rfl rfl pins.reset pins.clkEn
  have hq := FpMult0002.q_view generated rfl pins.reset
  simp only [view, step, Term.step, hmul, hadd, hq]
  rfl

theorem view_run (input : ℕ → Term.Pins) (s : Lanes) (c : ℕ) :
    view (run step input s c) = run (Term.step generated) input (view s) c :=
  run_project step (Term.step generated) input s view (fun pins _ => pins) view_step c

theorem result_view (reset : Bool) (s : Lanes) : result reset s = Term.result generated reset (view s) :=
  FpAdd0002.q_view generated rfl reset s.finalAdder

end Lanes

/-! ## The peripheral -/

@[ext] structure State where
  writereg : Word
  readreg : Word
  clkEnables : BitVec 16
  trm : Lanes
  accClkEnables : BitVec 8
  state : Phase
  fpAccer : FpAcc0002.State
  delayRead : BitVec 23

namespace State

def clkEn (s : State) : Bool := s.clkEnables != 0#16

def n (s : State) : Bool := s.state == Phase.waitForSet

def accEn (s : State) : Bool := s.accClkEnables.extractLsb' 0 7 != 0#7

def nextState (pins : Pins) (s : State) : Phase :=
  match s.state with
  | .idle => if pins.write1 then .waitForSet else .idle
  | .waitForSet => if s.accClkEnables.getLsbD 0 then .idle else .waitForSet

end State

def accIn (pins : Pins) (s : State) : Word :=
  if s.accClkEnables.getLsbD 0 && s.clkEn then s.trm.result (!pins.resetN) else 0#32

def q (pins : Pins) (s : State) : Word := FpAcc0002.r (!pins.resetN) s.fpAccer

def step (pins : Pins) (s : State) : State where
  writereg :=
    if !pins.resetN then 0#32 else if pins.write0 then pins.writedata else s.writereg
  readreg :=
    if !pins.resetN then 0#32
    else if pins.write1 then pins.writedata
    else if s.accClkEnables.getLsbD 7 then q pins s
    else s.readreg
  clkEnables := shiftIn pins.write0 (if !pins.resetN then 0#16 else s.clkEnables)
  trm := s.trm.step ⟨s.clkEn, !pins.resetN, s.writereg⟩
  accClkEnables :=
    shiftIn (s.clkEnables.getLsbD 14) (if !pins.resetN then 0#8 else s.accClkEnables)
  state := if !pins.resetN then .idle else s.nextState pins
  fpAccer := FpAcc0002.step (!pins.resetN) s.accEn (accIn pins s) s.n s.fpAccer
  delayRead := shiftIn pins.read (if !pins.resetN then 0#23 else s.delayRead)

def readdata (pins : Pins) (s : State) : Word :=
  if !pins.resetN then 0#32 else if s.delayRead.getLsbD 22 then s.readreg else 0#32

def powerOn : State where
  writereg := 0#32
  readreg := 0#32
  clkEnables := 0#16
  trm := Lanes.powerOn
  accClkEnables := 0#8
  state := .idle
  fpAccer := FpAcc0002.cleared
  delayRead := 0#23

/-- Without an access nobody looks at the address and the data. -/
theorem step_quiet (address : Bool) (writedata : Word) (s : State) :
    step (.quiet address writedata) s = step .idle s := rfl

theorem readdata_quiet (address : Bool) (writedata : Word) (s : State) :
    readdata (.quiet address writedata) s = readdata .idle s := rfl

/-! ## Refinement -/

structure Refines (g : State) (s : Top.State (BitVec 179)) : Prop where
  writereg : g.writereg = s.writereg
  readreg : g.readreg = s.readreg
  clkEnables : g.clkEnables = s.clkEnables
  trm : g.trm.view = s.trm
  accClkEnables : g.accClkEnables = s.accClkEnables
  state : g.state = s.state
  fpAccer : FpAcc0002.Refines generated g.fpAccer s.fpAccer
  delayRead : g.delayRead = s.delayRead

theorem powerOn_refines : Refines powerOn (Top.powerOn generated) :=
  ⟨rfl, rfl, rfl, rfl, rfl, rfl, FpAcc0002.cleared_refines rfl rfl rfl, rfl⟩

section refinement

variable {g : State} {s : Top.State (BitVec 179)} (h : Refines g s) (pins : Pins)
include h

theorem accIn_refines : accIn pins g = Top.accIn generated pins s := by
  rw [accIn, Top.accIn, State.clkEn, Top.State.clkEn, Top.result, h.clkEnables, h.accClkEnables,
    Lanes.result_view, h.trm]

theorem step_refines : Refines (step pins g) (Top.step generated pins s) := by
  have hin := accIn_refines h pins
  have hen : g.accEn = s.accEn := by rw [State.accEn, Top.State.accEn, h.accClkEnables]
  have hn : g.n = s.n := by rw [State.n, Top.State.n, h.state]
  have hq : q pins g = Top.q generated pins s := FpAcc0002.r_refines rfl h.fpAccer _
  have hclk : g.clkEn = s.clkEn := by rw [State.clkEn, Top.State.clkEn, h.clkEnables]
  have hnext : g.nextState pins = s.nextState pins := by
    cases hs : s.state <;>
      simp only [State.nextState, Top.State.nextState, h.state, h.accClkEnables, hs]
  refine ⟨?_, ?_, ?_, ?_, ?_, ?_, ?_, ?_⟩
  · simp only [step, Top.step, h.writereg]
  · simp only [step, Top.step, h.readreg, h.accClkEnables, hq]
  · simp only [step, Top.step, h.clkEnables]
  · simp only [step, Top.step, Lanes.view_step, hclk, h.writereg, h.trm]
  · simp only [step, Top.step, h.clkEnables, h.accClkEnables]
  · simp only [step, Top.step, hnext]
  · simp only [step, Top.step, hin, hen, hn]
    exact FpAcc0002.step_refines rfl rfl rfl rfl h.fpAccer _ _ _ _
  · simp only [step, Top.step, h.delayRead]

theorem readdata_refines : readdata pins g = Top.readdata pins s := by
  rw [readdata, Top.readdata, h.delayRead, h.readreg]

end refinement

/-- Over any run, with resets at any time. -/
theorem run_refines (input : ℕ → Pins) (c : ℕ) :
    Refines (run step input powerOn c) (run (Top.step generated) input (Top.powerOn generated) c) := by
  induction c with
  | zero => exact powerOn_refines
  | succ c ih => exact step_refines ih (input c)

/-- **The hardware is the peripheral over interfaces.** Over any run, with resets at any time: the
registers stand for those of the peripheral over the functions of the cores, and the bus carries the
same word in every cycle. -/
theorem bus_as_interface (input : ℕ → Pins) (c : ℕ) :
    Refines (run step input powerOn c) (run (Top.step generated) input (Top.powerOn generated) c) ∧
      readdata (input c) (run step input powerOn c) =
        Top.readdata (input c) (run (Top.step generated) input (Top.powerOn generated) c) :=
  ⟨run_refines input c, readdata_refines (run_refines input c) (input c)⟩

/-- The hardware answers the reads of disciplined traffic with the sums of its batches. -/
theorem readdata_batch {input : ℕ → Pins} (h : Driver.Disciplined input) {r : ℕ}
    (hr : reads input r = true)
    (hdrained : (Driver.batchAt input r).samples = [] → Driver.Drained input r) :
    readdata (input (r + 23)) (run step input powerOn (r + 23)) =
      (Driver.batchAt input r).answer generated := by
  rw [readdata_refines (run_refines input (r + 23))]
  exact h.readdata_batch hr hdrained

end DsdCordic.Elaborated
