import DsdCordic.Generated.Elaborated

/-! Coming out of reset. Most registers are cleared by the first clock of a reset, the delay lines of
the unit only by as many clocks as they are long, and the angle register of the cosine follows the bus;
six clocks bring every state to one, from which the hardware runs as from power-on. -/
namespace DsdCordic.Restart
open Binary32 Clocked DsdCordic.Top Elaborated
set_option autoImplicit false

/-- What a reset leaves: the angle register holds the angle of the cleared word. -/
def restarted : State :=
  { powerOn with
    trm :=
      { Lanes.powerOn with
        cordicCos := ⟨Sdiv.fixedFractionalAngle 22 0#32, fun _ => Cosine.cleared Cosine.shipped⟩ } }

/-- The angle is overwritten before it is used. -/
theorem lanes_disabled (pins : Term.Pins) (h : pins.clkEn = false) :
    Lanes.step pins restarted.trm = Lanes.step pins Lanes.powerOn := by
  simp only [Lanes.step, restarted, Cosine.step, FpMult0002.step, h, Bool.not_false, Bool.or_true,
    if_true, Bool.false_eq_true, if_false]

theorem step_restarted (pins : Pins) : step pins restarted = step pins powerOn := by
  have hlanes := lanes_disabled ⟨powerOn.clkEn, !pins.resetN, 0#32⟩ rfl
  ext1
  case trm => exact hlanes
  all_goals rfl

theorem run_restarted (input : ℕ → Pins) (c : ℕ) :
    run step input restarted (c + 1) = run step input powerOn (c + 1) := by
  induction c with
  | zero => exact step_restarted (input 0)
  | succ c ih => rw [run_succ, ih, run_succ step input powerOn (c + 1)]

section reset

variable {g : State} {input : ℕ → Pins} {e : ℕ} (hreset : ∀ c ≤ e, (input c).resetN = false)
include hreset

theorem delay_lines_clear (he : 5 ≤ e) :
    (run step input g (e + 1)).trm.x2DelayLine = Lanes.powerOn.x2DelayLine ∧
      (run step input g (e + 1)).trm.halfXDelayLine = Lanes.powerOn.halfXDelayLine := by
  have hq : ∀ c ≤ e, ∀ s, FpMult0002.q (!(input c).resetN) s = 0#32 := by
    intro c hc s
    rw [hreset c hc]
    change FpMult0002.q true FpMult0002.cleared = 0#32
    decide
  exact ⟨advance_settles (fun c => FpMult0002.q (!(input c).resetN) (run step input g c).trm.fpMulSqr)
      (fun c => (run step input g c).trm.x2DelayLine) (fun _ => rfl) (t := 0) (by omega)
      (fun c _ hc => hq c (by omega) _),
    advance_settles (fun c => FpMult0002.q (!(input c).resetN) (run step input g c).trm.halfX)
      (fun c => (run step input g c).trm.halfXDelayLine) (fun _ => rfl) (t := 0) (by omega)
      (fun c _ hc => hq c (by omega) _)⟩

/-- Whatever the registers held. -/
theorem run_reset (he : 5 ≤ e) (hs : samples input e = false) (hr : reads input e = false) :
    run step input g (e + 1) = restarted := by
  obtain ⟨e, rfl⟩ : ∃ e', e = e' + 1 := ⟨e - 1, by omega⟩
  obtain ⟨hx2, hhalf⟩ := delay_lines_clear (g := g) hreset he
  have hlast := hreset (e + 1) le_rfl
  have hbefore := hreset e (by omega)
  have hrun : run step input g (e + 2) = step (input (e + 1)) (run step input g (e + 1)) := rfl
  have hprev : run step input g (e + 1) = step (input e) (run step input g e) := rfl
  -- after one clock the word is cleared and the enables hold one bit at most
  have hword : (run step input g (e + 1)).writereg = 0#32 := by
    simp only [hprev, Elaborated.step, hbefore, Bool.not_false, if_true]
  have hbit : (run step input g (e + 1)).clkEnables.getLsbD 14 = false := by
    simp only [hprev, Elaborated.step, hbefore, Bool.not_false, if_true]
    rw [shiftIn_succ _ _ (by norm_num)]
    exact BitVec.getLsbD_zero
  have hw : (input (e + 1)).write0 = false := hs
  have hr' : (input (e + 1)).read = false := hr
  have hlanes : (run step input g (e + 2)).trm =
      Lanes.step ⟨(run step input g (e + 1)).clkEn, true, 0#32⟩ (run step input g (e + 1)).trm := by
    rw [hrun]
    simp only [Elaborated.step, hlast, hword, Bool.not_false]
  apply State.ext
  case trm =>
    apply Lanes.ext
    case x2DelayLine => exact hx2
    case halfXDelayLine => exact hhalf
    all_goals rw [hlanes]
    case cordicCos => exact congrArg (Cosine.State.mk _) (funext fun _ => if_pos (Bool.true_or _))
    all_goals rfl
  all_goals rw [hrun]; simp only [Elaborated.step, hlast, hw, hr', hbit, Bool.not_false, if_true]; rfl

end reset

/-- **A reset restores the peripheral.** Whatever its registers hold (at power-up, or when a reset comes
in the middle of a batch): after six clocks of reset or more, the last of them without a sample or a
read, the bus carries in every later cycle, through any traffic and further resets, what it carries
from power-on. -/
theorem reset_restores (g : State) (input : ℕ → Pins) (e : ℕ) (he : 5 ≤ e)
    (hreset : ∀ c ≤ e, (input c).resetN = false) (hs : samples input e = false)
    (hr : reads input e = false) (c : ℕ) :
    readdata (input (e + 1 + c)) (run step input g (e + 1 + c)) =
      readdata (input (e + 1 + c)) (run step (fun k => input (e + 1 + k)) powerOn c) := by
  rw [run_add, run_reset hreset he hs hr]
  cases c with
  | zero => rfl
  | succ c => rw [run_restarted]

/-- A reset with a request and samples on their way. -/
theorem reset_restores_mid_batch :
    let input : ℕ → Pins := fun c => ⟨decide (5 < c), decide (5 < c), false, false, 0#32⟩
    let g : State := { powerOn with clkEnables := 0x7fff#16, state := .waitForSet, readreg := 1#32 }
    readdata (input (5 + 1 + 23)) (run step input g (5 + 1 + 23)) =
      readdata (input (5 + 1 + 23)) (run step (fun k => input (5 + 1 + k)) powerOn 23) := by
  intro input g
  refine reset_restores g input 5 le_rfl (fun c hc => ?_) rfl rfl 23
  exact decide_eq_false (by omega)

/-! ## Coming to rest -/

section rest

variable (g : State)

/-- The registers after `c` cycles without an access. -/
def idleAt (c : ℕ) : State := run step (fun _ => .idle) g c

theorem idleAt_succ (c : ℕ) : idleAt g (c + 1) = step .idle (idleAt g c) := rfl

theorem clkEnables_drained {c : ℕ} (hc : 16 ≤ c) : (idleAt g c).clkEnables = 0#16 :=
  shift_drains (fun _ => false) (fun c => (idleAt g c).clkEnables) (fun _ => rfl) (t := 0)
    (fun _ _ => rfl) (by omega)

theorem accClkEnables_drained {c : ℕ} (hc : 23 ≤ c) : (idleAt g c).accClkEnables = 0#8 := by
  refine shift_drains (fun c => (idleAt g c).clkEnables.getLsbD 14)
    (fun c => (idleAt g c).accClkEnables) (fun _ => rfl) (t := 15) (fun c hc => ?_) (by omega)
  have hbit := shift_reaches (fun _ => false) (fun c => (idleAt g c).clkEnables) (fun _ => rfl) (c - 15) 14
    (by norm_num)
  rwa [show c - 15 + 14 + 1 = c by omega] at hbit

theorem delayRead_drained {c : ℕ} (hc : 23 ≤ c) : (idleAt g c).delayRead = 0#23 :=
  shift_drains (fun _ => false) (fun c => (idleAt g c).delayRead) (fun _ => rfl) (t := 0)
    (fun _ _ => rfl) (by omega)

theorem writereg_held (c : ℕ) : (idleAt g c).writereg = g.writereg := by
  induction c with
  | zero => rfl
  | succ c ih => exact ih

theorem clkEn_low {c : ℕ} (hc : 16 ≤ c) : (idleAt g c).clkEn = false := by
  rw [Elaborated.State.clkEn, clkEnables_drained g hc]
  rfl

/-- The two multipliers that feed the delay lines hold their last product. -/
theorem multipliers_held {c : ℕ} (hc : 16 ≤ c) :
    (idleAt g c).trm.fpMulSqr = (idleAt g 16).trm.fpMulSqr ∧
      (idleAt g c).trm.halfX = (idleAt g 16).trm.halfX := by
  induction c with
  | zero => omega
  | succ c ih =>
    by_cases hlast : c + 1 = 16
    · rw [hlast]
      exact ⟨rfl, rfl⟩
    · have hlow := clkEn_low g (show 16 ≤ c by omega)
      have hstep : (idleAt g (c + 1)).trm.fpMulSqr = (idleAt g c).trm.fpMulSqr ∧
          (idleAt g (c + 1)).trm.halfX = (idleAt g c).trm.halfX := by
        simp only [idleAt_succ, Elaborated.step, Lanes.step, FpMult0002.step, hlow]
        exact ⟨rfl, rfl⟩
      rw [hstep.1, hstep.2]
      exact ih (by omega)

theorem lanes_fixed {c : ℕ} (hc : 23 ≤ c) : (idleAt g (c + 1)).trm = (idleAt g c).trm := by
  have hstep : (idleAt g (c + 1)).trm =
      (idleAt g c).trm.step ⟨(idleAt g c).clkEn, false, (idleAt g c).writereg⟩ := rfl
  rw [clkEn_low g (show 16 ≤ c by omega)] at hstep
  have hx2 : ∀ d, 18 ≤ d → (idleAt g d).trm.x2DelayLine =
      fun _ => FpMult0002.q false (idleAt g 16).trm.fpMulSqr := fun d hd =>
    advance_settles (fun c => FpMult0002.q false (idleAt g c).trm.fpMulSqr)
      (fun c => (idleAt g c).trm.x2DelayLine) (fun _ => rfl) (t := 16) (by omega)
      (fun j hj _ => by rw [(multipliers_held g hj).1])
  have hhalf : ∀ d, 22 ≤ d → (idleAt g d).trm.halfXDelayLine =
      fun _ => FpMult0002.q false (idleAt g 16).trm.halfX := fun d hd =>
    advance_settles (fun c => FpMult0002.q false (idleAt g c).trm.halfX)
      (fun c => (idleAt g c).trm.halfXDelayLine) (fun _ => rfl) (t := 16) (by omega)
      (fun j hj _ => by rw [(multipliers_held g hj).2])
  have hangle : ∀ d, 16 ≤ d → (idleAt g (d + 1)).trm.cordicCos =
      ⟨Sdiv.fixedFractionalAngle 22 g.writereg, fun _ => Cosine.cleared Cosine.shipped⟩ := by
    intro d hd
    rw [← writereg_held g d]
    have hcos : (idleAt g (d + 1)).trm.cordicCos = Cosine.step Cosine.shipped
        ⟨false, (idleAt g d).clkEn, (idleAt g d).writereg⟩ (idleAt g d).trm.cordicCos := rfl
    rw [hcos, clkEn_low g hd]
    rfl
  apply Lanes.ext
  case x2DelayLine => rw [hx2 (c + 1) (by omega), hx2 c (by omega)]
  case halfXDelayLine => rw [hhalf (c + 1) (by omega), hhalf c (by omega)]
  case cordicCos =>
    obtain ⟨d, rfl⟩ : ∃ d, c = d + 1 := ⟨c - 1, by omega⟩
    rw [hangle (d + 1) (by omega), hangle d (by omega)]
  all_goals rw [hstep]; rfl

theorem idle_fixed {c : ℕ} (hc : 23 ≤ c) : idleAt g (c + 1) = idleAt g c := by
  have hacc := accClkEnables_drained g hc
  have hlast := idleAt_succ g c
  apply State.ext
  case writereg => rw [writereg_held, writereg_held]
  case clkEnables => rw [clkEnables_drained g (by omega), clkEnables_drained g (by omega)]
  case accClkEnables => rw [accClkEnables_drained g (by omega), hacc]
  case delayRead => rw [delayRead_drained g (by omega), delayRead_drained g (by omega)]
  case readreg =>
    rw [hlast]
    simp only [Elaborated.step, hacc]
    rfl
  case state =>
    have hstep : (idleAt g (c + 1)).state = (idleAt g c).nextState .idle := rfl
    rw [hstep, Elaborated.State.nextState, hacc]
    cases (idleAt g c).state <;> rfl
  case fpAccer =>
    have hen : (idleAt g c).accEn = false := by
      rw [Elaborated.State.accEn, hacc]
      rfl
    rw [hlast]
    simp only [Elaborated.step, FpAcc0002.step, hen]
    rfl
  case trm => exact lanes_fixed g hc

theorem run_quiet (address : ℕ → Bool) (writedata : ℕ → Word) (c : ℕ) :
    run step (fun k => .quiet (address k) (writedata k)) g c = idleAt g c := by
  induction c with
  | zero => rfl
  | succ c ih => rw [run_succ, ih, step_quiet, idleAt_succ]

end rest

/-- **The hardware comes to rest.** Whatever it was doing, after 23 cycles without an access no register
changes any more until the next one, whatever is on the lines for the address and the data. -/
theorem comes_to_rest (g : State) (address : ℕ → Bool) (writedata : ℕ → Word) (c : ℕ) :
    run step (fun k => .quiet (address k) (writedata k)) g (23 + c) =
      run step (fun k => .quiet (address k) (writedata k)) g 23 := by
  rw [run_quiet, run_quiet]
  induction c with
  | zero => rfl
  | succ c ih => exact (idle_fixed g (Nat.le_add_right 23 c)).trans ih

end DsdCordic.Restart
