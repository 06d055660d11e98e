import DsdCordic.Cordic.Engine
import DsdCordic.Cordic.Packer
import DsdCordic.Cordic.Sdiv
import DsdCordic.Foundations.Clocked

/-! The pipelined cosine. Two nested generate loops cut the engines into stages by a flat schedule
and slice the flat angle table by the same indices; a register stands after each stage but the last.
However the engines are cut, a word that meets no stall leaves as the plain iteration leaves it. -/
namespace DsdCordic.Cosine
open Binary32 Clocked Engine
set_option autoImplicit false

/-- The parameters of `cosine` and the local ones that are retuned by hand with them. -/
structure Params where
  width : ℕ
  limit : BitVec (width + 2)
  angles : BitVec ((width + 2) * 32)
  pipelineStages : ℕ
  blocksPerStage : BitVec (32 * (pipelineStages + 1))

def shipped : Params where
  width := 22
  limit := 0x26dd3b#24
  angles := 0x0#24 ++ 0x1#24 ++ 0x1#24 ++ 0x1#24 ++ 0x1#24 ++ 0x1#24 ++ 0x1#24 ++ 0x1#24 ++
    0x1#24 ++ 0x1#24 ++ 0x2#24 ++ 0x4#24 ++ 0x7#24 ++ 0x10#24 ++ 0x1f#24 ++ 0x40#24 ++
    0x80#24 ++ 0xff#24 ++ 0x1ff#24 ++ 0x400#24 ++ 0x7ff#24 ++ 0xfff#24 ++ 0x1fff#24 ++ 0x3fff#24 ++
    0x7fff#24 ++ 0xfffa#24 ++ 0x1ffd5#24 ++ 0x3feab#24 ++ 0x7f56e#24 ++ 0xfadbb#24 ++ 0x1dac67#24 ++
    0x3243f6#24
  pipelineStages := 6
  blocksPerStage := 16#32 ++ 14#32 ++ 11#32 ++ 8#32 ++ 6#32 ++ 3#32 ++ 0#32

/-- `propagated i` is `(x_p[i+1], y_p[i+1], w_p[i+1])`; index 0 of these arrays is a wire. -/
@[ext] structure State (P : Params) where
  fixedFractionalAngle : BitVec (P.width + 2)
  propagated : Fin (P.pipelineStages - 1) → Xyw P.width

structure Pins where
  reset : Bool
  clkEn : Bool
  angle : Word

variable (P : Params)

def cleared : Xyw P.width := ⟨0#_, 0#_, 0#_⟩

/-- What the first stage works on: `(LIMIT, 0, angle)`. -/
def start (angle : BitVec (P.width + 2)) : Xyw P.width := ⟨P.limit, 0#_, angle⟩

/-- `(x_p[i], y_p[i], w_p[i])`. -/
def stageIn (s : State P) : ℕ → Xyw P.width
  | 0 => start P s.fixedFractionalAngle
  | i + 1 => if h : i < P.pipelineStages - 1 then s.propagated ⟨i, h⟩ else cleared P

def block (i : ℕ) : BitVec 32 := P.blocksPerStage.extractLsb' (i * 32) 32

/-- `(x_s[j], y_s[j], w_s[j])` of a stage that starts at iteration `currStage`: `en0` drives index 0
and `gen_cordic_engines` the others. -/
def stageWires (currStage : BitVec 32) (v : Xyw P.width) : ℕ → Xyw P.width
  | 0 => engine (currStage.setWidth 5) (angleEntry P.angles (currStage.setWidth 5).toNat) v
  | j + 1 =>
    let iter := BitVec.ofNat 32 (j + 1) + currStage
    engine (iter.setWidth 5) (angleEntry P.angles (iter.setWidth 5).toNat) (stageWires currStage v j)

def stageOut (i : ℕ) (v : Xyw P.width) : Xyw P.width :=
  stageWires P (block P i) v ((block P (i + 1) - block P i).toNat - 1)

def packerInput (s : State P) : BitVec (P.width + 2) :=
  (stageOut P (P.pipelineStages - 1) (stageIn P s (P.pipelineStages - 1))).x

def result (s : State P) : Word := Packer.packer P.width (packerInput P s)

def step (pins : Pins) (s : State P) : State P where
  fixedFractionalAngle := Sdiv.fixedFractionalAngle P.width pins.angle
  propagated i := if pins.reset || !pins.clkEn then cleared P else stageOut P i (stageIn P s i)

/-- A strictly increasing cumulative schedule from 0 to at most 32 over at least one stage. -/
structure Scheduled : Prop where
  stages : 1 ≤ P.pipelineStages
  first : block P 0 = 0#32
  increasing : ∀ i < P.pipelineStages, (block P i).toNat < (block P (i + 1)).toNat
  bounded : (block P P.pipelineStages).toNat ≤ 32

/-! ## Stages are runs of engines -/

variable {P}

theorem Scheduled.le {hi : ℕ} (hP : Scheduled P) (h : hi ≤ P.pipelineStages) :
    ∀ lo ≤ hi, (block P lo).toNat ≤ (block P hi).toNat := by
  intro lo hlo
  induction hi with
  | zero => rw [Nat.le_zero.mp hlo]
  | succ hi ih =>
    rcases Nat.le_succ_iff.mp hlo with hle | rfl
    · exact (ih (by omega) hle).trans (hP.increasing hi (by omega)).le
    · exact le_rfl

/-- Wire `j` of a stage that starts at iteration `b` has seen the iterations up to `b + j`, the
table entry of each being the one at its own index. -/
theorem stageWires_eq (b : BitVec 32) (v : Xyw P.width) (j : ℕ) (h : b.toNat + j < 32) :
    stageWires P b (iterate P.angles b.toNat v) j = iterate P.angles (b.toNat + j + 1) v := by
  induction j with
  | zero =>
    have hb : (b.setWidth 5).toNat = b.toNat := by
      rw [BitVec.toNat_setWidth, Nat.mod_eq_of_lt (by omega)]
    have hi : b.setWidth 5 = BitVec.ofNat 5 b.toNat := by
      apply BitVec.eq_of_toNat_eq
      rw [hb, BitVec.toNat_ofNat, Nat.mod_eq_of_lt (by omega)]
    rw [stageWires, hb, hi]
    rfl
  | succ j ih =>
    have hb : ((BitVec.ofNat 32 (j + 1) + b).setWidth 5).toNat = b.toNat + (j + 1) := by
      rw [BitVec.toNat_setWidth, BitVec.toNat_add, BitVec.toNat_ofNat]
      omega
    have hi : (BitVec.ofNat 32 (j + 1) + b).setWidth 5 = BitVec.ofNat 5 (b.toNat + (j + 1)) := by
      apply BitVec.eq_of_toNat_eq
      rw [hb, BitVec.toNat_ofNat, Nat.mod_eq_of_lt (by omega)]
    rw [stageWires, ih (by omega), hb, hi]
    rfl

theorem iterate_eq_foldl (angles : BitVec ((P.width + 2) * 32)) (n : ℕ) (v : Xyw P.width) :
    iterate angles n v = (List.range n).foldl
      (fun v i => engine (BitVec.ofNat 5 i) (angleEntry angles i) v) v := by
  induction n with
  | zero => rfl
  | succ n ih => rw [List.range_succ, List.foldl_append, ← ih]; rfl

theorem stageOut_eq (hP : Scheduled P) (v : Xyw P.width) {i : ℕ} (hi : i < P.pipelineStages) :
    stageOut P i (iterate P.angles (block P i).toNat v) =
      iterate P.angles (block P (i + 1)).toNat v := by
  have hinc := hP.increasing i hi
  have hle := (hP.le le_rfl (i + 1) hi).trans hP.bounded
  have hsub : (block P (i + 1) - block P i).toNat = (block P (i + 1)).toNat - (block P i).toNat :=
    BitVec.toNat_sub_of_le (BitVec.le_def.mpr hinc.le)
  rw [stageOut, hsub, stageWires_eq _ _ _ (by omega)]
  congr 1
  omega

/-! ## Cycles -/

/-- The wave front: `k` cycles after the angle was registered, stage `k` works on what the first
`block k` iterations make of it. -/
theorem stageIn_run (hP : Scheduled P) (input : ℕ → Pins) (s : State P) (t k : ℕ)
    (hk : k < P.pipelineStages)
    (hen : ∀ j, 1 ≤ j → j ≤ k → (input (t + j)).reset = false ∧ (input (t + j)).clkEn = true) :
    stageIn P (run (step P) input s (t + k + 1)) k = iterate P.angles (block P k).toNat
      (start P (Sdiv.fixedFractionalAngle P.width (input t).angle)) := by
  induction k with
  | zero =>
    rw [hP.first]
    rfl
  | succ k ih =>
    obtain ⟨hreset, hclk⟩ := hen (k + 1) (by omega) le_rfl
    have hprev := ih (by omega) (fun j h1 hj => hen j h1 (by omega))
    have hidx : k < P.pipelineStages - 1 := by omega
    rw [run_succ, stageIn, dif_pos hidx]
    have hgate : ((input (t + (k + 1))).reset || !(input (t + (k + 1))).clkEn) = false := by
      rw [hreset, hclk]
      rfl
    have hcycle : t + (k + 1) = t + k + 1 := rfl
    rw [← hcycle] at hprev
    simp only [step, hgate, Bool.false_eq_true, if_false]
    rw [hprev, stageOut_eq hP _ (by omega)]

/-- **The pipeline is the iteration.** -/
theorem packerInput_run (hP : Scheduled P) (input : ℕ → Pins) (s : State P) (t : ℕ)
    (hen : ∀ j, 1 ≤ j → j ≤ P.pipelineStages - 1 →
      (input (t + j)).reset = false ∧ (input (t + j)).clkEn = true) :
    packerInput P (run (step P) input s (t + P.pipelineStages)) =
      (iterate P.angles (block P P.pipelineStages).toNat
        (start P (Sdiv.fixedFractionalAngle P.width (input t).angle))).x := by
  have h1 := hP.stages
  have hin := stageIn_run hP input s t (P.pipelineStages - 1) (by omega) hen
  have hcycle : t + (P.pipelineStages - 1) + 1 = t + P.pipelineStages := by omega
  have hlast : P.pipelineStages - 1 + 1 = P.pipelineStages := by omega
  rw [hcycle] at hin
  rw [packerInput, hin, stageOut_eq hP _ (by omega), hlast]

/-- What the unit computes of an input word: the packed result of the plain iteration. -/
def cosv (P : Params) (x : Word) : Word :=
  Packer.packer P.width (iterate P.angles (block P P.pipelineStages).toNat
    (start P (Sdiv.fixedFractionalAngle P.width x))).x

theorem result_run (hP : Scheduled P) (input : ℕ → Pins) (s : State P) (t : ℕ)
    (hen : ∀ j, 1 ≤ j → j ≤ P.pipelineStages - 1 →
      (input (t + j)).reset = false ∧ (input (t + j)).clkEn = true) :
    result P (run (step P) input s (t + P.pipelineStages)) = cosv P (input t).angle := by
  rw [result, packerInput_run hP input s t hen, cosv]

/-- However a schedule `b` cuts the engines into stages, a word that meets `pipelineStages - 1`
enabled edges is what the engines `0, …, b p - 1` make of it one after the other. -/
theorem pipeline_refines_iteration (P : Params) (b : ℕ → ℕ) (hstages : 1 ≤ P.pipelineStages)
    (hfirst : b 0 = 0) (hincreasing : ∀ i < P.pipelineStages, b i < b (i + 1))
    (hbounded : b P.pipelineStages ≤ 32)
    (hblocks : ∀ i ≤ P.pipelineStages, block P i = BitVec.ofNat 32 (b i))
    (input : ℕ → Pins) (s : State P) (t : ℕ)
    (hen : ∀ j, 1 ≤ j → j ≤ P.pipelineStages - 1 →
      (input (t + j)).reset = false ∧ (input (t + j)).clkEn = true) :
    packerInput P (run (step P) input s (t + P.pipelineStages)) =
      ((List.range (b P.pipelineStages)).foldl
        (fun v i => engine (BitVec.ofNat 5 i) (angleEntry P.angles i) v)
        (start P (Sdiv.fixedFractionalAngle P.width (input t).angle))).x := by
  have hle : ∀ i ≤ P.pipelineStages, b i ≤ 32 := by
    intro i hi
    induction hi using Nat.decreasingInduction with
    | self => exact hbounded
    | of_succ k hk ih => exact (hincreasing k hk).le.trans ih
  have hval : ∀ i ≤ P.pipelineStages, (block P i).toNat = b i := by
    intro i hi
    have := hle i hi
    rw [hblocks i hi, BitVec.toNat_ofNat, Nat.mod_eq_of_lt (by omega)]
  have hP : Scheduled P := by
    refine ⟨hstages, ?_, ?_, ?_⟩
    · rw [hblocks 0 (Nat.zero_le _), hfirst]
    · intro i hi
      rw [hval i hi.le, hval (i + 1) hi]
      exact hincreasing i hi
    · rw [hval _ le_rfl]
      exact hbounded
  rw [packerInput_run hP input s t hen, hval _ le_rfl, iterate_eq_foldl]

theorem shipped_scheduled : Scheduled shipped where
  stages := by decide
  first := by decide
  increasing := by decide
  bounded := by decide

theorem cosv_shipped (x : Word) : cosv shipped x = Packer.packer 22
    (iterate shipped.angles 16 (start shipped (Sdiv.fixedFractionalAngle 22 x))).x := rfl

theorem pipeline_refines_iteration_shipped :
    let pins : Pins := ⟨false, true, 0x43000000#32⟩
    let s : State shipped := ⟨0#24, fun _ => cleared shipped⟩
    packerInput shipped (run (step shipped) (fun _ => pins) s (0 + 6)) =
      ((List.range 16).foldl
        (fun v i => engine (BitVec.ofNat 5 i) (angleEntry shipped.angles i) v)
        (start shipped (Sdiv.fixedFractionalAngle 22 0x43000000#32))).x :=
  pipeline_refines_iteration shipped (fun i => [0, 3, 6, 8, 11, 14, 16].getD i 0) (by decide) rfl
    (by decide) (by decide) (by decide) _ _ 0 (fun _ _ _ => ⟨rfl, rfl⟩)

end DsdCordic.Cosine
