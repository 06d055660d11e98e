import DsdCordic.Peripheral.Term

/-! The bus peripheral. Three shift registers follow each sample and each read through the unit and
the accumulator, a two-state machine holds a request for a new sum, and one register takes both the
sums and the data of the requests. The lemmas read every control signal off the accesses made so far,
for any run without a reset from cleared control registers. -/
namespace DsdCordic.Top
open Binary32 Clocked Cores
set_option autoImplicit false

inductive Phase
  | idle
  | waitForSet
deriving DecidableEq

structure State (A : Type) where
  writereg : Word
  readreg : Word
  clkEnables : BitVec 16
  trm : Term.State
  accClkEnables : BitVec 8
  state : Phase
  fpAccer : FpAcc A
  delayRead : BitVec 23

structure Pins where
  resetN : Bool
  read : Bool
  write : Bool
  address : Bool
  writedata : Word

/-- A sample: a write to address 0. -/
def Pins.write0 (pins : Pins) : Bool := pins.write && !pins.address

/-- A request for a new sum: a write to address 1. -/
def Pins.write1 (pins : Pins) : Bool := pins.write && pins.address

namespace Pins

def idle : Pins := ⟨true, false, false, false, 0#32⟩

def sample (x : Word) : Pins := ⟨true, false, true, false, x⟩

def request (data : Word) : Pins := ⟨true, false, true, true, data⟩

def poll : Pins := ⟨true, true, false, false, 0#32⟩

/-- No access, with anything on the lines for the address and the data. -/
def quiet (address : Bool) (writedata : Word) : Pins := ⟨true, false, false, address, writedata⟩

end Pins

variable {A : Type}

namespace State

def clkEn (s : State A) : Bool := s.clkEnables != 0#16

def n (s : State A) : Bool := s.state == Phase.waitForSet

def accEn (s : State A) : Bool := s.accClkEnables.extractLsb' 0 7 != 0#7

def nextState (pins : Pins) (s : State A) : Phase :=
  match s.state with
  | .idle => if pins.write1 then .waitForSet else .idle
  | .waitForSet => if s.accClkEnables.getLsbD 0 then .idle else .waitForSet

end State

variable [AddZeroClass A] (C : FpCores A)

def result (pins : Pins) (s : State A) : Word := Term.result C (!pins.resetN) s.trm

def accIn (pins : Pins) (s : State A) : Word :=
  if s.accClkEnables.getLsbD 0 && s.clkEn then result C pins s else 0#32

def q (pins : Pins) (s : State A) : Word := C.fpAccR (!pins.resetN) s.fpAccer

/-- In the three shift registers bit 0 is assigned after the reset branch, whatever `reset_n` is. -/
def step (pins : Pins) (s : State A) : State A where
  writereg :=
    if !pins.resetN then 0#32 else if pins.write0 then pins.writedata else s.writereg
  readreg :=
    if !pins.resetN then 0#32
    else if pins.write1 then pins.writedata
    else if s.accClkEnables.getLsbD 7 then q C pins s
    else s.readreg
  clkEnables := shiftIn pins.write0 (if !pins.resetN then 0#16 else s.clkEnables)
  trm := Term.step C ⟨s.clkEn, !pins.resetN, s.writereg⟩ s.trm
  accClkEnables :=
    shiftIn (s.clkEnables.getLsbD 14) (if !pins.resetN then 0#8 else s.accClkEnables)
  state := if !pins.resetN then .idle else s.nextState pins
  fpAccer := C.fpAcc (!pins.resetN) s.accEn (accIn C pins s) s.n s.fpAccer
  delayRead := shiftIn pins.read (if !pins.resetN then 0#23 else s.delayRead)

def readdata (pins : Pins) (s : State A) : Word :=
  if !pins.resetN then 0#32 else if s.delayRead.getLsbD 22 then s.readreg else 0#32

def powerOn : State A where
  writereg := 0#32
  readreg := 0#32
  clkEnables := 0#16
  trm := Term.powerOn C
  accClkEnables := 0#8
  state := .idle
  fpAccer := C.accClear
  delayRead := 0#23

/-- The control and bus registers have their power-on values. -/
structure Cleared (s : State A) : Prop where
  clkEnables : s.clkEnables = 0#16
  accClkEnables : s.accClkEnables = 0#8
  delayRead : s.delayRead = 0#23
  state : s.state = .idle
  writereg : s.writereg = 0#32
  readreg : s.readreg = 0#32

theorem powerOn_cleared : Cleared (powerOn C) := ⟨rfl, rfl, rfl, rfl, rfl, rfl⟩

/-! ## Enables -/

omit [AddZeroClass A] in
theorem clkEn_of_bit {s : State A} {k : ℕ} (h : s.clkEnables.getLsbD k = true) : s.clkEn = true := by
  rw [State.clkEn, bne_iff_ne]
  intro hzero
  rw [hzero, BitVec.getLsbD_zero] at h
  exact Bool.false_ne_true h

omit [AddZeroClass A] in
theorem accEn_iff (s : State A) : s.accEn = true ↔ ∃ k < 7, s.accClkEnables.getLsbD k = true := by
  rw [State.accEn, bne_iff_ne]
  constructor
  · intro hne
    by_contra hnone
    apply hne
    apply BitVec.eq_of_getLsbD_eq
    intro k hk
    rw [BitVec.getLsbD_extractLsb', BitVec.getLsbD_zero, Nat.zero_add]
    have hbit : s.accClkEnables.getLsbD k = false :=
      Bool.eq_false_iff.mpr (fun h => hnone ⟨k, hk, h⟩)
    rw [hbit, Bool.and_false]
  · rintro ⟨k, hk, hbit⟩ hzero
    have h := BitVec.getLsbD_extractLsb' 0 7 s.accClkEnables k
    rw [hzero, BitVec.getLsbD_zero, Nat.zero_add, hbit] at h
    simp [hk] at h

/-! ## Runs without a reset -/

def samples (input : ℕ → Pins) (c : ℕ) : Bool := (input c).write0

def requests (input : ℕ → Pins) (c : ℕ) : Bool := (input c).write1

def reads (input : ℕ → Pins) (c : ℕ) : Bool := (input c).read

theorem samples_not_requests {input : ℕ → Pins} {c : ℕ} (h : samples input c = true) :
    requests input c = false := by
  simp only [samples, requests, Pins.write0, Pins.write1, Bool.and_eq_true] at h ⊢
  simp_all

theorem requests_not_samples {input : ℕ → Pins} {c : ℕ} (h : requests input c = true) :
    samples input c = false := by
  cases hs : samples input c with
  | false => rfl
  | true => simp [samples_not_requests hs] at h

variable {C}

theorem step_resetN {pins : Pins} (h : pins.resetN = true) (s : State A) :
    step C pins s =
      { writereg := if pins.write0 then pins.writedata else s.writereg
        readreg :=
          if pins.write1 then pins.writedata
          else if s.accClkEnables.getLsbD 7 then C.fpAccR false s.fpAccer
          else s.readreg
        clkEnables := shiftIn pins.write0 s.clkEnables
        trm := Term.step C ⟨s.clkEn, false, s.writereg⟩ s.trm
        accClkEnables := shiftIn (s.clkEnables.getLsbD 14) s.accClkEnables
        state := s.nextState pins
        fpAccer := C.fpAcc false s.accEn (accIn C pins s) s.n s.fpAccer
        delayRead := shiftIn pins.read s.delayRead } := by
  simp only [step, q, h, Bool.not_true, Bool.false_eq_true, if_false]

/-- What the unit is fed with: its enable, its reset and the last sample. -/
def feed (C : FpCores A) (input : ℕ → Pins) (s0 : State A) (c : ℕ) : Term.Pins :=
  ⟨(run (step C) input s0 c).clkEn, !(input c).resetN, (run (step C) input s0 c).writereg⟩

theorem trm_run (input : ℕ → Pins) (s0 : State A) (c : ℕ) :
    (run (step C) input s0 c).trm = run (Term.step C) (feed C input s0) s0.trm c :=
  run_project (step C) (Term.step C) input s0 State.trm
    (fun pins s => ⟨s.clkEn, !pins.resetN, s.writereg⟩) (fun _ _ => rfl) c

section control

variable {input : ℕ → Pins} {s0 : State A} (h0 : Cleared s0) (hreset : ∀ c, (input c).resetN = true)
include hreset h0

theorem clkEnables_run (c : ℕ) {k : ℕ} (hk : k ≤ 15) :
    (run (step C) input s0 c).clkEnables.getLsbD k = tap (samples input) (k + 1) c := by
  refine shift_register (samples input) (fun c => (run (step C) input s0 c).clkEnables)
    h0.clkEnables (fun c => ?_) c hk
  rw [run_succ, step_resetN (hreset c)]
  rfl

theorem accClkEnables_run (c : ℕ) {k : ℕ} (hk : k ≤ 7) :
    (run (step C) input s0 c).accClkEnables.getLsbD k = tap (samples input) (k + 16) c := by
  have hshift := shift_register (tap (samples input) 15)
    (fun c => (run (step C) input s0 c).accClkEnables) h0.accClkEnables (fun c => ?_) c hk
  · rw [hshift, tap_tap]
    congr 1
    omega
  · rw [run_succ, step_resetN (hreset c), ← clkEnables_run h0 hreset c (show 14 ≤ 15 by omega)]

theorem arrival_run (c : ℕ) :
    (run (step C) input s0 c).accClkEnables.getLsbD 0 = tap (samples input) 16 c := by
  rw [accClkEnables_run h0 hreset c (Nat.zero_le 7), Nat.zero_add]

theorem delayRead_run (c : ℕ) {k : ℕ} (hk : k ≤ 22) :
    (run (step C) input s0 c).delayRead.getLsbD k = tap (reads input) (k + 1) c := by
  refine shift_register (reads input) (fun c => (run (step C) input s0 c).delayRead)
    h0.delayRead (fun c => ?_) c hk
  rw [run_succ, step_resetN (hreset c)]
  rfl

/-- A sample keeps the unit enabled for the next sixteen cycles. -/
theorem clkEn_run {s : ℕ} (hs : samples input s = true) {j : ℕ} (hj : j ≤ 15) :
    (run (step C) input s0 (s + 1 + j)).clkEn = true := by
  apply clkEn_of_bit (k := j)
  rw [clkEnables_run h0 hreset _ hj, Nat.add_assoc, Nat.add_comm 1 j, tap_at, hs]

theorem accEn_run_iff (c : ℕ) :
    (run (step C) input s0 c).accEn = true ↔ ∃ s j, j < 7 ∧ s + 16 + j = c ∧ samples input s = true := by
  rw [accEn_iff]
  constructor
  · rintro ⟨j, hj, hbit⟩
    rw [accClkEnables_run h0 hreset c (by omega), tap_iff] at hbit
    obtain ⟨s, hc, hs⟩ := hbit
    exact ⟨s, j, hj, by omega, hs⟩
  · rintro ⟨s, j, hj, hc, hs⟩
    refine ⟨j, hj, ?_⟩
    rw [accClkEnables_run h0 hreset c (by omega), tap_iff]
    exact ⟨s, by omega, hs⟩

/-- Sixteen cycles after a sample was written its own `f(x)` is at the output of the unit. -/
theorem result_run {s : ℕ} (hs : samples input s = true) :
    result C (input (s + 16)) (run (step C) input s0 (s + 16)) = Term.fx C (input s).writedata := by
  have hword : (run (step C) input s0 (s + 1)).writereg = (input s).writedata := by
    rw [run_succ, step_resetN (hreset s)]
    exact if_pos hs
  have hlow : ∀ j ≤ 15, (feed C input s0 (s + 1 + j)).reset = false := by
    intro j _
    rw [feed, hreset]
    rfl
  have hen : ∀ j ≤ 14, (feed C input s0 (s + 1 + j)).clkEn = true :=
    fun j hj => clkEn_run h0 hreset hs (by omega)
  have hterm := Term.result_run (C := C) (s := s0.trm) hlow hen
  rw [← trm_run] at hterm
  rw [result, ← hword]
  exact hterm

theorem accIn_sample {s : ℕ} (hs : samples input s = true) :
    accIn C (input (s + 16)) (run (step C) input s0 (s + 16)) = Term.fx C (input s).writedata := by
  have hen : (run (step C) input s0 (s + 16)).clkEn = true :=
    clkEn_run h0 hreset hs (j := 15) le_rfl
  simp only [accIn, arrival_run h0 hreset, tap_at, hs, hen, Bool.and_true, if_true]
  exact result_run h0 hreset hs

theorem accIn_idle {c : ℕ} (hc : ∀ s, s + 16 = c → samples input s = false) :
    accIn C (input c) (run (step C) input s0 c) = 0#32 := by
  rw [accIn, arrival_run h0 hreset, (tap_eq_false_iff _ _ _).mpr hc]
  rfl

end control

/-- Under any traffic a sample reaches the accumulator sixteen cycles later, as its own `f(x)`, stays
enabled until its sum is out, and is the only thing that ever does. -/
theorem sample_accumulated (C : FpCores A) (input : ℕ → Pins)
    (hreset : ∀ c, (input c).resetN = true) (c : ℕ) :
    (∀ s, s + 16 = c → samples input s = true →
      (run (step C) input (powerOn C) c).accClkEnables.getLsbD 0 = true ∧
      accIn C (input c) (run (step C) input (powerOn C) c) =
        C.add
          (C.mul (Cosine.cosv Cosine.shipped (input s).writedata)
            (C.mul (input s).writedata (input s).writedata))
          (C.mul (input s).writedata 0x3f000000#32) ∧
      (∀ j ≤ 6, (run (step C) input (powerOn C) (c + j)).accEn = true) ∧
      (run (step C) input (powerOn C) (c + 7)).accClkEnables.getLsbD 7 = true) ∧
    ((∀ s, s + 16 = c → samples input s = false) →
      accIn C (input c) (run (step C) input (powerOn C) c) = 0#32 ∧
      (run (step C) input (powerOn C) c).accClkEnables.getLsbD 0 = false) := by
  have h0 := powerOn_cleared C
  refine ⟨?_, fun hnone => ⟨accIn_idle h0 hreset hnone, ?_⟩⟩
  · rintro s rfl hs
    refine ⟨?_, accIn_sample h0 hreset hs, fun j hj => ?_, ?_⟩
    · rw [arrival_run h0 hreset, tap_at, hs]
    · exact (accEn_run_iff h0 hreset _).mpr ⟨s, j, by omega, rfl, hs⟩
    · rw [accClkEnables_run h0 hreset _ le_rfl, Nat.add_assoc, tap_at, hs]
  · rw [arrival_run h0 hreset]
    exact (tap_eq_false_iff _ _ _).mpr hnone

def oneSample (c : ℕ) : Pins := if c = 0 then .sample 0x43000000#32 else .idle

theorem oneSample_resetN (c : ℕ) : (oneSample c).resetN = true := by cases c <;> rfl

theorem sample_accumulated_at_128 :
    accIn truncating (oneSample 16) (run (step truncating) oneSample (powerOn truncating) 16) =
      truncating.add
        (truncating.mul (Cosine.cosv Cosine.shipped 0x43000000#32)
          (truncating.mul 0x43000000#32 0x43000000#32))
        (truncating.mul 0x43000000#32 0x3f000000#32) :=
  ((sample_accumulated truncating oneSample oneSample_resetN 16).1 0 rfl rfl).2.1

end DsdCordic.Top
