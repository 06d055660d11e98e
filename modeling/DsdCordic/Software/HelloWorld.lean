import DsdCordic.Foundations.Encoding
import DsdCordic.Generated.Precision
import DsdCordic.Software.Session
import Mathlib.Data.List.Iterate

/-! The program that drives the peripheral. It fills a vector by repeated addition, has each vector
summed ten times word by word, and the last one once more by the DMA controller, of which no more is
known than what its channel puts on the bus. The vectors are exact, and so every word that the program
prints is within the error of the hardware. -/
namespace DsdCordic.HelloWorld
open Binary32 Encoding Driver Elaborated Precision Session
set_option autoImplicit false

/-! ## The vectors -/

def step1 : Word := 0x40a00000#32

def N1 : ℕ := 52

def step2 : Word := 0x3e000000#32

def N2 : ℕ := 2041

def step3 : Word := 0x3a800000#32

def N3 : ℕ := 261121

theorem step1_value : value step1 = some (((5 : ℕ) : ℚ) * 2 ^ (0 : ℤ)) :=
  value_normal rfl (by decide : exponent step1 = 129) (by decide : fraction step1 = 2 ^ 21)
    (by norm_num) (by norm_num) (by norm_num)

theorem step2_value : value step2 = some (((1 : ℕ) : ℚ) * 2 ^ (-3 : ℤ)) :=
  value_normal rfl (by decide : exponent step2 = 124) (by decide : fraction step2 = 0)
    (by norm_num) (by norm_num) (by norm_num)

theorem step3_value : value step3 = some (((1 : ℕ) : ℚ) * 2 ^ (-10 : ℤ)) :=
  value_normal rfl (by decide : exponent step3 = 117) (by decide : fraction step3 = 0)
    (by norm_num) (by norm_num) (by norm_num)

def generateVector (step : Word) (N : ℕ) : List Word := List.iterate (fun x => add x step) 0#32 N

/-- No addition rounds as long as the multiples of the step have at most 24 digits. -/
theorem iterate_value {step : Word} {m : ℕ} {k : ℤ} (hstep : value step = some ((m : ℚ) * 2 ^ k))
    (hlo : -149 ≤ k) (hhi : k ≤ 104) (i : ℕ) (hi : i * m < 2 ^ 24) :
    value ((fun x => add x step)^[i] 0#32) = some (i * ((m : ℚ) * 2 ^ k)) := by
  induction i with
  | zero => simp [value_zero]
  | succ i ih =>
    have hle : i * m ≤ (i + 1) * m := Nat.mul_le_mul_right m (Nat.le_succ i)
    have hsum : (i * (m * 2 ^ k) + m * 2 ^ k : ℚ) = ((i + 1) * m : ℕ) * 2 ^ k := by
      push_cast
      ring
    have hexact : Exact |(i * (m * 2 ^ k) + m * 2 ^ k : ℚ)| := by
      rw [hsum, abs_of_nonneg (by positivity)]
      exact ⟨(i + 1) * m, k, hi, hlo, hhi, rfl⟩
    rw [Function.iterate_succ_apply', add_exact (ih (by omega)) hstep hexact]
    push_cast
    congr 1
    ring

theorem vector_value {step : Word} {m : ℕ} {k : ℤ} (hstep : value step = some ((m : ℚ) * 2 ^ k))
    (hlo : -149 ≤ k) (hhi : k ≤ 104) {N : ℕ} (hN : (N - 1) * m < 2 ^ 24) :
    (generateVector step N).map value = (List.range N).map fun i : ℕ => some (i * ((m : ℚ) * 2 ^ k)) := by
  rw [generateVector, ← List.range_map_iterate, List.map_map]
  apply List.map_congr_left
  intro i hi
  have hle : i * m ≤ (N - 1) * m := Nat.mul_le_mul_right m (by have := List.mem_range.mp hi; omega)
  exact iterate_value hstep hlo hhi i (by omega)

/-- **The vectors are exact.** Element `i` is `i` times the step, whatever the length of the vector, as
long as the last element has at most 24 digits. -/
theorem generateVector_exact (step : Word) (m : ℕ) (k : ℤ) (hstep : value step = some ((m : ℚ) * 2 ^ k))
    (hlo : -149 ≤ k) (hhi : k ≤ 104) (N : ℕ) (hN : (N - 1) * m < 2 ^ 24) (i : ℕ) (hi : i < N) :
    (generateVector step N)[i]?.bind value = some (i * ((m : ℚ) * 2 ^ k)) := by
  have hle : i * m ≤ (N - 1) * m := Nat.mul_le_mul_right m (by omega)
  rw [generateVector, List.getElem?_iterate _ _ _ _ hi]
  exact iterate_value hstep hlo hhi i (by omega)

theorem generateVector_exact_step3 :
    (generateVector step3 N3)[261120]?.bind value = some ((261120 : ℕ) * (((1 : ℕ) : ℚ) * 2 ^ (-10 : ℤ))) :=
  generateVector_exact step3 1 (-10) step3_value (by norm_num) (by norm_num) N3 (by norm_num [N3])
    261120 (by norm_num [N3])

/-! ## The accesses -/

def trigSum (x : List Word) : List Access := .iowr true 0#32 :: x.map (.iowr false) ++ [.iord true]

def runTest (N : ℕ) (step : Word) : List Access :=
  (List.replicate 10 (trigSum (generateVector step N))).flatten

/-- A DMA channel with its controller and driver: the accesses that come of sending a buffer, with the
handler that is called at the end. -/
abbrev Txchan := List Word → List Access → List Access

/-- What the program relies on: in 32-bit mode with a fixed address, every word of the buffer is written
once and in order to address 0, and then the handler is called. -/
def SendsInOrder (txchan : Txchan) : Prop :=
  ∀ x dmaISR, txchan x dmaISR = x.map (.iowr false) ++ dmaISR

def dmaISR : List Access := [.iord true]

/-- The third vector goes out once more; without a channel the program ends before. -/
def transfer : Option Txchan → List Access
  | none => []
  | some send => .iowr true 0#32 :: .iord true :: send (generateVector step3 N3) dmaISR

def main (txchan : Option Txchan) : List Access :=
  runTest N1 step1 ++ (runTest N2 step2 ++ (runTest N3 step3 ++ transfer txchan))

section answers

variable {A : Type} [AddZeroClass A] (C : Cores.FpCores A)

theorem answers_samples (x : List Word) (rest : List Access) (b : Batch) :
    answers C (x.map (.iowr false) ++ rest) b = answers C rest ⟨b.data, b.samples ++ x⟩ := by
  induction x generalizing b with
  | nil => simp
  | cons y x ih =>
    have hstep : b.step (Access.iowr false y).pins = ⟨b.data, b.samples ++ [y]⟩ := rfl
    rw [List.map_cons, List.cons_append, answers, hstep, ih]
    simp

theorem answers_trigSum (x : List Word) (rest : List Access) (b : Batch) :
    answers C (trigSum x ++ rest) b = Batch.answer C ⟨0#32, x⟩ :: answers C rest ⟨0#32, x⟩ := by
  have hstep : b.step (Access.iowr true 0#32).pins = ⟨0#32, []⟩ := rfl
  rw [trigSum, List.cons_append, List.cons_append, List.append_assoc, answers, hstep, answers_samples]
  rfl

theorem answers_calls (n : ℕ) (x : List Word) (rest : List Access) (b : Batch) : ∃ b' : Batch,
    answers C ((List.replicate n (trigSum x)).flatten ++ rest) b =
      List.replicate n (Batch.answer C ⟨0#32, x⟩) ++ answers C rest b' := by
  induction n generalizing b with
  | zero => exact ⟨b, rfl⟩
  | succ n ih =>
    obtain ⟨b', h⟩ := ih ⟨0#32, x⟩
    refine ⟨b', ?_⟩
    rw [List.replicate_succ, List.flatten_cons, List.append_assoc, answers_trigSum, h]
    rfl

/-- The read before the samples finds an empty batch. -/
theorem answers_sent (x : List Word) (b : Batch) :
    answers C (.iowr true 0#32 :: .iord true :: (x.map (.iowr false) ++ dmaISR)) b =
      [0#32, Batch.answer C ⟨0#32, x⟩] :=
  congrArg (0#32 :: ·) (answers_samples C x dmaISR ⟨0#32, []⟩)

end answers

/-! ## Every batch is read before the next one -/

theorem readOut_samples (x : List Word) (unread regnum : Bool) (rest : List Access) :
    readOut true unread (x.map (.iowr false) ++ .iord regnum :: rest) = readOut true false rest := by
  induction x generalizing unread with
  | nil => rfl
  | cons y x ih => exact ih true

theorem readOut_trigSum (begun : Bool) (x : List Word) (rest : List Access) :
    readOut begun false (trigSum x ++ rest) = readOut true false rest := by
  rw [trigSum, List.cons_append, List.cons_append, List.append_assoc, readOut]
  exact readOut_samples x false true rest

theorem readOut_calls (n : ℕ) (x : List Word) (rest : List Access) :
    readOut true false ((List.replicate n (trigSum x)).flatten ++ rest) = readOut true false rest := by
  induction n with
  | zero => rfl
  | succ n ih => rw [List.replicate_succ, List.flatten_cons, List.append_assoc, readOut_trigSum, ih]

theorem readOut_sent (x : List Word) :
    readOut true false (.iowr true 0#32 :: .iord true :: (x.map (.iowr false) ++ dmaISR)) = true :=
  readOut_samples x false true []

section transfer

variable {txchan : Option Txchan} (hsend : ∀ send ∈ txchan, SendsInOrder send)
include hsend

theorem readOut_transfer : readOut true false (transfer txchan) = true := by
  cases txchan with
  | none => rfl
  | some send =>
    rw [transfer, hsend send rfl]
    exact readOut_sent _

theorem main_readOut : readOut false false (main txchan) = true := by
  rw [main, runTest, List.replicate_succ, List.flatten_cons, List.append_assoc, readOut_trigSum,
    readOut_calls, runTest, readOut_calls, runTest, readOut_calls, readOut_transfer hsend]

variable {A : Type} [AddZeroClass A] (C : Cores.FpCores A)

theorem answers_transfer (b : Batch) : answers C (transfer txchan) b =
    txchan.elim [] fun _ => [0#32, Batch.answer C ⟨0#32, generateVector step3 N3⟩] := by
  cases txchan with
  | none => rfl
  | some send =>
    rw [transfer, hsend send rfl]
    exact answers_sent C _ b

theorem main_answers : answers C (main txchan) ⟨0#32, []⟩ =
    List.replicate 10 (Batch.answer C ⟨0#32, generateVector step1 N1⟩) ++
      (List.replicate 10 (Batch.answer C ⟨0#32, generateVector step2 N2⟩) ++
        (List.replicate 10 (Batch.answer C ⟨0#32, generateVector step3 N3⟩) ++
          txchan.elim [] fun _ => [0#32, Batch.answer C ⟨0#32, generateVector step3 N3⟩])) := by
  obtain ⟨b1, h1⟩ := answers_calls C 10 (generateVector step1 N1)
    (runTest N2 step2 ++ (runTest N3 step3 ++ transfer txchan)) ⟨0#32, []⟩
  obtain ⟨b2, h2⟩ := answers_calls C 10 (generateVector step2 N2) (runTest N3 step3 ++ transfer txchan) b1
  obtain ⟨b3, h3⟩ := answers_calls C 10 (generateVector step3 N3) (transfer txchan) b2
  rw [answers_transfer hsend C] at h3
  rw [← runTest] at h1 h2 h3
  rw [main, h1, h2, h3]

end transfer

/-! ## The sums -/

def multiples (step : ℚ) (N : ℕ) : List ℚ := (List.range N).map fun i : ℕ => i * step

/-- The word stands for the sum of `f` over some points, but for a relative error of `2^-13` and an
absolute one of `2^-114` for each point. -/
def Accurate (points : List ℚ) (y : Word) : Prop :=
  ∃ v : ℚ, value y = some v ∧ |(v : ℝ) - (points.map f).sum| ≤
    ((2 ^ (-13 : ℤ) : ℚ) : ℝ) * (points.map f).sum + ((points.length * 2 ^ (-114 : ℤ) : ℚ) : ℝ)

section vectors

variable {step : Word} {m : ℕ} {k : ℤ} (hstep : value step = some ((m : ℚ) * 2 ^ k))
  (hlo : -149 ≤ k) (hhi : k ≤ 104) {N : ℕ} (hN : (N - 1) * m < 2 ^ 24)
  (h256 : ((N - 1 : ℕ) : ℚ) * (m * 2 ^ k) < 256)
include hstep hlo hhi hN

theorem vector_f : (generateVector step N).map fOf = (multiples (m * 2 ^ k) N).map f := by
  have h := congrArg (List.map fun q : Option ℚ => f (q.getD 0)) (vector_value hstep hlo hhi hN)
  rw [List.map_map, List.map_map] at h
  rw [multiples, List.map_map]
  exact h

include h256

theorem vector_inRange : ∀ x ∈ generateVector step N, InRange x := by
  intro x hx
  have hmem := List.mem_map_of_mem (f := value) hx
  rw [vector_value hstep hlo hhi hN, List.mem_map] at hmem
  obtain ⟨i, hi, hvalue⟩ := hmem
  have hle : (i : ℚ) ≤ (N - 1 : ℕ) := by
    have := List.mem_range.mp hi
    exact_mod_cast (by omega : i ≤ N - 1)
  have hpos : (0 : ℚ) ≤ m * 2 ^ k := by positivity
  exact ⟨_, hvalue.symm, by positivity, (mul_le_mul_of_nonneg_right hle hpos).trans_lt h256⟩

theorem vector_accurate (hlen : N ≤ 2 ^ 34) (hne : N ≠ 0) :
    Accurate (multiples (m * 2 ^ k) N) (Batch.answer generated ⟨0#32, generateVector step N⟩) := by
  have hcount : (generateVector step N).length = N := List.length_iterate _ _ _
  have hnotEmpty : generateVector step N ≠ [] := by rwa [generateVector, ne_eq, List.iterate_eq_nil]
  obtain ⟨v, hv, herr⟩ := enc_error (generateVector step N) (by omega)
    (vector_inRange hstep hlo hhi hN h256)
  rw [vector_f hstep hlo hhi hN, hcount] at herr
  refine ⟨v, ?_, ?_⟩
  · rw [Batch.answer, if_neg hnotEmpty]
    exact hv
  · rw [multiples, List.length_map, List.length_range]
    push_cast
    exact herr

end vectors

/-- **What the program prints.** However its accesses are spread over the cycles, with the generated
cores in place: the ten reads of each test return one word, which is off the exact sum of `f` over the
multiples of the step by at most `2^-13` of it and `2^-114` for each of them. If there is a DMA channel,
and it sends in order, the read before the transfer returns zero and the one after it the very word of
the third test. -/
theorem main_reads (txchan : Option Txchan) (hsend : ∀ send ∈ txchan, SendsInOrder send)
    (lines : ℕ → Bool × Word) (program : List (ℕ × Access))
    (hprogram : program.map Prod.snd = main txchan) :
    ∃ y1 y2 y3 : Word,
      returned Elaborated.step Elaborated.readdata lines 0 program Elaborated.powerOn =
        List.replicate 10 y1 ++ (List.replicate 10 y2 ++ (List.replicate 10 y3 ++
          txchan.elim [] fun _ => [0#32, y3])) ∧
      Accurate (multiples 5 N1) y1 ∧ Accurate (multiples (1 / 8) N2) y2 ∧
      Accurate (multiples (1 / 1024) N3) y3 := by
  have hok : readOut false false (program.map Prod.snd) = true := by
    rw [hprogram, main_readOut hsend]
  have hreturned := returned_from elaborated_serves lines program settled_start hok
  rw [hprogram] at hreturned
  have hacc1 := vector_accurate step1_value (by norm_num) (by norm_num) (N := N1) (by norm_num [N1])
    (by norm_num [N1]) (by norm_num [N1]) (by norm_num [N1])
  have hacc2 := vector_accurate step2_value (by norm_num) (by norm_num) (N := N2) (by norm_num [N2])
    (by norm_num [N2]) (by norm_num [N2]) (by norm_num [N2])
  have hacc3 := vector_accurate step3_value (by norm_num) (by norm_num) (N := N3) (by norm_num [N3])
    (by norm_num [N3]) (by norm_num [N3]) (by norm_num [N3])
  have h5 : ((5 : ℕ) : ℚ) * 2 ^ (0 : ℤ) = 5 := by norm_num
  have h8 : ((1 : ℕ) : ℚ) * 2 ^ (-3 : ℤ) = 1 / 8 := by norm_num
  have h1024 : ((1 : ℕ) : ℚ) * 2 ^ (-10 : ℤ) = 1 / 1024 := by norm_num
  rw [h5] at hacc1
  rw [h8] at hacc2
  rw [h1024] at hacc3
  exact ⟨_, _, _, hreturned.trans (main_answers hsend generated), hacc1, hacc2, hacc3⟩

/-- The accesses may follow one another at once. -/
theorem main_reads_at_once :
    let txchan : Option Txchan := some fun x dmaISR => x.map (.iowr false) ++ dmaISR
    ∃ y1 y2 y3 : Word,
      returned Elaborated.step Elaborated.readdata (fun _ => (true, 0#32)) 0
          ((main txchan).map (Prod.mk 0)) Elaborated.powerOn =
        List.replicate 10 y1 ++ (List.replicate 10 y2 ++ (List.replicate 10 y3 ++ [0#32, y3])) ∧
      Accurate (multiples 5 N1) y1 ∧ Accurate (multiples (1 / 8) N2) y2 ∧
      Accurate (multiples (1 / 1024) N3) y3 := by
  intro txchan
  apply main_reads txchan
  · intro send hmem x dmaISR
    rw [← Option.some.inj hmem]
  · rw [List.map_map]
    exact List.map_id' _

end DsdCordic.HelloWorld
