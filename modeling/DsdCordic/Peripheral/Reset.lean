import DsdCordic.Peripheral.Top

/-! What a reset pulse leaves. Bit 0 of each shift register is assigned outside the reset branch, so a
sample, a read or the end of `clk_enables` at the last edge of the pulse survives it. From cleared
control registers nothing that is left in the unit is ever seen on the bus, whatever the traffic and
the further resets: a result is taken only sixteen cycles after its word came to the unit, and by then
the unit has either worked on that word alone or been reset itself. -/
namespace DsdCordic.Reset
open Binary32 Clocked Cores DsdCordic.Top
set_option autoImplicit false

variable {A : Type} [AddZeroClass A] {C : FpCores A}

/-! ## The edge -/

/-- An edge under reset clears the control registers exactly when none of the three inputs of the
shift registers is high. -/
theorem step_cleared_iff {pins : Pins} (h : pins.resetN = false) (s : State A) :
    Cleared (step C pins s) ↔
      pins.write0 = false ∧ pins.read = false ∧ s.clkEnables.getLsbD 14 = false := by
  have hstep : (step C pins s).clkEnables = shiftIn pins.write0 0#16 ∧
      (step C pins s).accClkEnables = shiftIn (s.clkEnables.getLsbD 14) 0#8 ∧
      (step C pins s).delayRead = shiftIn pins.read 0#23 ∧ (step C pins s).state = .idle ∧
      (step C pins s).writereg = 0#32 ∧ (step C pins s).readreg = 0#32 := by
    simp only [step, h, Bool.not_false, if_true, and_self]
  obtain ⟨hclk, hacc, hread, hstate, hwrite, hreg⟩ := hstep
  constructor
  · intro hcleared
    refine ⟨?_, ?_, ?_⟩
    · rw [← shiftIn_eq_zero_iff (n := 15), ← hclk, hcleared.clkEnables]
    · rw [← shiftIn_eq_zero_iff (n := 22), ← hread, hcleared.delayRead]
    · rw [← shiftIn_eq_zero_iff (n := 7), ← hacc, hcleared.accClkEnables]
  · rintro ⟨hw, hr, hbit⟩
    refine ⟨?_, ?_, ?_, hstate, hwrite, hreg⟩
    · rw [hclk, (shiftIn_eq_zero_iff _).mpr hw]
    · rw [hacc, (shiftIn_eq_zero_iff _).mpr hbit]
    · rw [hread, (shiftIn_eq_zero_iff _).mpr hr]

theorem step_fpAccer {pins : Pins} (h : pins.resetN = false) (s : State A) :
    (step C pins s).fpAccer = C.accClear := by
  simp only [step, h, Bool.not_false, FpCores.fpAcc, if_true]

/-! ## After the edge -/

/-- Equal but for the unit. -/
structure Agree (s s' : State A) : Prop where
  writereg : s.writereg = s'.writereg
  readreg : s.readreg = s'.readreg
  clkEnables : s.clkEnables = s'.clkEnables
  accClkEnables : s.accClkEnables = s'.accClkEnables
  state : s.state = s'.state
  fpAccer : s.fpAccer = s'.fpAccer
  delayRead : s.delayRead = s'.delayRead

omit [AddZeroClass A] in
theorem Agree.clkEn {s s' : State A} (h : Agree s s') : s.clkEn = s'.clkEn := by
  rw [State.clkEn, State.clkEn, h.clkEnables]

theorem Agree.step {s s' : State A} (h : Agree s s') (pins : Pins)
    (hin : accIn C pins s = accIn C pins s') : Agree (step C pins s) (step C pins s') := by
  have hq : q C pins s = q C pins s' := by rw [q, q, h.fpAccer]
  have hen : s.accEn = s'.accEn := by rw [State.accEn, State.accEn, h.accClkEnables]
  have hn : s.n = s'.n := by rw [State.n, State.n, h.state]
  refine ⟨?_, ?_, ?_, ?_, ?_, ?_, ?_⟩
  · simp only [Top.step, h.writereg]
  · simp only [Top.step, h.readreg, h.accClkEnables, hq]
  · simp only [Top.step, h.clkEnables]
  · simp only [Top.step, h.clkEnables, h.accClkEnables]
  · simp only [Top.step, State.nextState, h.state, h.accClkEnables]
  · simp only [Top.step, hen, hn, hin, h.fpAccer]
  · simp only [Top.step, h.delayRead]

/-! ## What can reach the accumulator -/

section runs

variable {input : ℕ → Pins} {s0 s1 : State A}

/-- A bit of `clk_enables` has come all the way from bit 0, past no reset. -/
theorem clkEnables_history (h0 : s0.clkEnables = 0#16) {c k : ℕ} (hk : k ≤ 15)
    (hbit : (run (step C) input s0 c).clkEnables.getLsbD k = true) :
    ∃ t, c = t + k ∧ (∀ j ≤ k, (run (step C) input s0 (t + j)).clkEn = true) ∧
      ∀ j < k, (input (t + j)).resetN = true := by
  induction k generalizing c with
  | zero =>
    refine ⟨c, rfl, fun j hj => ?_, fun j hj => by omega⟩
    obtain rfl : j = 0 := by omega
    exact clkEn_of_bit hbit
  | succ k ih =>
    cases c with
    | zero => simp [h0] at hbit
    | succ c =>
      have hlast := clkEn_of_bit hbit
      rw [run_succ, step, shiftIn_succ _ _ (by omega)] at hbit
      cases hreset : (input c).resetN with
      | false => simp [hreset] at hbit
      | true =>
        rw [hreset] at hbit
        obtain ⟨t, rfl, hen, hlow⟩ := ih (by omega) hbit
        refine ⟨t, rfl, fun j hj => ?_, fun j hj => ?_⟩
        · by_cases hjk : j = k + 1
          · rw [hjk]
            exact hlast
          · exact hen j (by omega)
        · by_cases hjk : j = k
          · rw [hjk]
            exact hreset
          · exact hlow j (by omega)

/-- Fifteen cycles after a word came to the unit, with no reset before the last edge: its `f(x)`, or
what a reset at that edge or now leaves in the adder. -/
theorem result_of_word {t : ℕ} (hen : ∀ j ≤ 14, (run (step C) input s0 (t + j)).clkEn = true)
    (hlow : ∀ j < 14, (input (t + j)).resetN = true) :
    result C (input (t + 15)) (run (step C) input s0 (t + 15)) =
      if (input (t + 14)).resetN && (input (t + 15)).resetN then
        Term.fx C (run (step C) input s0 t).writereg
      else C.addClear (Fin.last 4) := by
  by_cases hlast : (input (t + 14)).resetN = true ∧ (input (t + 15)).resetN = true
  · rw [hlast.1, hlast.2, Bool.and_true, if_pos rfl]
    have hfree : ∀ j ≤ 15, (feed C input s0 (t + j)).reset = false := by
      intro j hj
      have hj' : (input (t + j)).resetN = true := by
        by_cases h14 : j < 14
        · exact hlow j h14
        · obtain rfl | rfl : j = 14 ∨ j = 15 := by omega
          · exact hlast.1
          · exact hlast.2
      rw [feed, hj']
      rfl
    have hterm := Term.result_run (C := C) (s := s0.trm) hfree hen
    rw [← trm_run] at hterm
    exact hterm
  · rw [if_neg (by simpa using hlast)]
    by_cases hnow : (input (t + 15)).resetN = true
    · -- the last edge was a reset
      have hedge : (input (t + 14)).resetN = false := by
        rw [Bool.eq_false_iff]
        exact fun h => hlast ⟨h, hnow⟩
      have hadder : (run (step C) input s0 (t + 15)).trm.finalAdder = C.addClear := by
        change (step C (input (t + 14)) _).trm.finalAdder = _
        rw [step, hedge]
        rfl
      rw [result, Term.result, hadder]
      exact pipeQ_clear C.addClear _
    · rw [result, Bool.eq_false_iff.mpr hnow]
      rfl

theorem accIn_agree (h0 : s0.clkEnables = 0#16) (hacc0 : s0.accClkEnables = 0#8) {c : ℕ}
    (hagree : ∀ k ≤ c, Agree (run (step C) input s0 k) (run (step C) input s1 k)) :
    accIn C (input c) (run (step C) input s0 c) = accIn C (input c) (run (step C) input s1 c) := by
  rw [accIn, accIn, ← (hagree c le_rfl).accClkEnables, ← (hagree c le_rfl).clkEn]
  cases hbit : (run (step C) input s0 c).accClkEnables.getLsbD 0 with
  | false => rfl
  | true =>
    cases c with
    | zero => simp [hacc0] at hbit
    | succ c =>
      rw [run_succ, step, shiftIn_zero] at hbit
      obtain ⟨t, rfl, hen, hlow⟩ := clkEnables_history h0 (by omega) hbit
      have hen' : ∀ j ≤ 14, (run (step C) input s1 (t + j)).clkEn = true := by
        intro j hj
        rw [← (hagree (t + j) (by omega)).clkEn]
        exact hen j hj
      have hres := result_of_word hen hlow
      have hres' := result_of_word hen' hlow
      rw [← (hagree t (by omega)).writereg, ← hres] at hres'
      rw [show t + 14 + 1 = t + 15 by omega, hres']

/-- Through any traffic and any further resets. -/
theorem run_agree (h0 : Cleared s0) (h1 : Cleared s1) (hacc : s0.fpAccer = s1.fpAccer) (c : ℕ) :
    Agree (run (step C) input s0 c) (run (step C) input s1 c) := by
  induction c using Nat.strong_induction_on with
  | h c ih =>
    cases c with
    | zero =>
      exact ⟨h0.writereg.trans h1.writereg.symm, h0.readreg.trans h1.readreg.symm,
        h0.clkEnables.trans h1.clkEnables.symm, h0.accClkEnables.trans h1.accClkEnables.symm,
        h0.state.trans h1.state.symm, hacc, h0.delayRead.trans h1.delayRead.symm⟩
    | succ c =>
      exact (ih c (Nat.lt_succ_self c)).step (input c)
        (accIn_agree h0.clkEnables h0.accClkEnables fun k hk => ih k (by omega))

theorem readdata_agree (h0 : Cleared s0) (h1 : Cleared s1) (hacc : s0.fpAccer = s1.fpAccer) (c : ℕ) :
    readdata (input c) (run (step C) input s0 c) = readdata (input c) (run (step C) input s1 c) := by
  have h : Agree (run (step C) input s0 c) (run (step C) input s1 c) := run_agree h0 h1 hacc c
  rw [readdata, readdata, h.delayRead, h.readreg]

end runs

/-! ## Pulses -/

/-- The control registers are those of power-on, and no later traffic, with resets of its own or
without, tells the two apart. -/
def LikePowerOn (C : FpCores A) (s : State A) : Prop :=
  Cleared s ∧ ∀ (later : ℕ → Pins) (c : ℕ),
    readdata (later c) (run (step C) later s c) =
      readdata (later c) (run (step C) later (powerOn C) c)

/-- One clock of reset fifteen cycles after a sample. -/
def shortPulse (c : ℕ) : Pins :=
  if c = 15 then ⟨false, false, false, false, 0#32⟩ else oneSample c

theorem short_pulse_leaves_enable :
    (shortPulse 15).resetN = false ∧
      ¬LikePowerOn truncating (run (step truncating) shortPulse (powerOn truncating) (15 + 1)) := by
  refine ⟨rfl, fun h => ?_⟩
  have hcleared := h.1
  rw [run_succ, step_cleared_iff rfl] at hcleared
  -- up to the pulse the run is that of the sample alone
  have hsame : run (step truncating) shortPulse (powerOn truncating) 15 =
      run (step truncating) oneSample (powerOn truncating) 15 :=
    run_congr _ _ (fun c hc => if_neg (by omega))
  have hbit : (run (step truncating) oneSample (powerOn truncating) 15).clkEnables.getLsbD 14 =
      tap (samples oneSample) 15 15 :=
    clkEnables_run (powerOn_cleared truncating) oneSample_resetN 15 (by omega)
  rw [← hsame, hcleared.2.2] at hbit
  exact absurd hbit (by decide)

/-- A reset leaves nothing behind exactly when at its last edge there is no sample, no read, and no
sample of fifteen cycles before. -/
theorem reset_like_powerOn_iff (C : FpCores A) (input : ℕ → Pins) (e : ℕ)
    (hreset : (input e).resetN = false) :
    LikePowerOn C (run (step C) input (powerOn C) (e + 1)) ↔
      samples input e = false ∧ reads input e = false ∧
        (run (step C) input (powerOn C) e).clkEnables.getLsbD 14 = false := by
  constructor
  · intro h
    exact (step_cleared_iff hreset _).mp h.1
  · intro h
    have hcleared : Cleared (run (step C) input (powerOn C) (e + 1)) :=
      (step_cleared_iff hreset _).mpr h
    refine ⟨hcleared, fun later c => ?_⟩
    exact readdata_agree hcleared (powerOn_cleared C) (step_fpAccer hreset _) c

/-- A reset in the middle of a batch, with its sample and its read on their way. -/
def midBatch (c : ℕ) : Pins :=
  if c = 5 then ⟨false, false, false, false, 0#32⟩
  else [.request 1#32, .sample 0x43000000#32, .poll].getD c .idle

theorem reset_like_powerOn_mid_batch :
    LikePowerOn truncating (run (step truncating) midBatch (powerOn truncating) (5 + 1)) := by
  refine (reset_like_powerOn_iff truncating midBatch 5 rfl).mpr ⟨rfl, rfl, ?_⟩
  rw [Bool.eq_false_iff]
  intro hbit
  obtain ⟨t, ht, -⟩ := clkEnables_history (powerOn_cleared truncating).clkEnables (by omega) hbit
  omega

end DsdCordic.Reset
