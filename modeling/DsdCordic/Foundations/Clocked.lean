import Mathlib.Data.Fin.Tuple.Basic
import Mathlib.Data.Fin.VecNotation
import Mathlib.Data.List.Induction
import Mathlib.Tactic.Ring

/-! Runs of synchronous machines, one cycle at a time. A machine is a step function on the
contents of its registers; the input stream gives what its pins carry in each cycle, and
`run step input s c` is what the registers hold during cycle `c`. Nothing here names a circuit. -/
namespace DsdCordic.Clocked
set_option autoImplicit false

variable {σ τ ι κ α : Type}

def run (step : ι → σ → σ) (input : ℕ → ι) (s : σ) : ℕ → σ
  | 0 => s
  | c + 1 => step (input c) (run step input s c)

@[simp] theorem run_zero (step : ι → σ → σ) (input : ℕ → ι) (s : σ) : run step input s 0 = s := rfl

theorem run_succ (step : ι → σ → σ) (input : ℕ → ι) (s : σ) (c : ℕ) :
    run step input s (c + 1) = step (input c) (run step input s c) := rfl

theorem run_congr (step : ι → σ → σ) {input input' : ℕ → ι} (s : σ) {n : ℕ}
    (h : ∀ c < n, input c = input' c) : run step input s n = run step input' s n := by
  induction n with
  | zero => rfl
  | succ n ih =>
    rw [run_succ, run_succ, h n (Nat.lt_succ_self n), ih (fun c hc => h c (by omega))]

theorem run_add (step : ι → σ → σ) (input : ℕ → ι) (s : σ) (t n : ℕ) :
    run step input s (t + n) = run step (fun c => input (t + c)) (run step input s t) n := by
  induction n with
  | zero => rfl
  | succ n ih => rw [run_succ, ← ih, ← Nat.add_assoc, run_succ]

/-- A part of a machine that steps on its own, from inputs that the rest computes, runs as a
machine of its own. -/
theorem run_project (step : ι → σ → σ) (part : κ → τ → τ) (input : ℕ → ι) (s : σ)
    (view : σ → τ) (feed : ι → σ → κ) (h : ∀ i t, view (step i t) = part (feed i t) (view t)) (c : ℕ) :
    view (run step input s c) =
      run part (fun c => feed (input c) (run step input s c)) (view s) c := by
  induction c with
  | zero => rfl
  | succ c ih => rw [run_succ, run_succ, h, ih]

/-! ## Looking back along a stream -/

/-- What `b` was `d` cycles before cycle `c`, `false` if that is before the first cycle. -/
def tap (b : ℕ → Bool) (d c : ℕ) : Bool := decide (d ≤ c) && b (c - d)

@[simp] theorem tap_at (b : ℕ → Bool) (d s : ℕ) : tap b d (s + d) = b s := by
  simp [tap]

@[simp] theorem tap_succ_zero (b : ℕ → Bool) (d : ℕ) : tap b (d + 1) 0 = false := by
  simp [tap]

theorem tap_succ_succ (b : ℕ → Bool) (d c : ℕ) : tap b (d + 1) (c + 1) = tap b d c := by
  simp [tap]

theorem tap_iff (b : ℕ → Bool) (d c : ℕ) : tap b d c = true ↔ ∃ s, s + d = c ∧ b s = true := by
  constructor
  · intro h
    simp only [tap, Bool.and_eq_true, decide_eq_true_eq] at h
    exact ⟨c - d, by omega, h.2⟩
  · rintro ⟨s, rfl, hs⟩
    rw [tap_at, hs]

theorem tap_eq_false_iff (b : ℕ → Bool) (d c : ℕ) :
    tap b d c = false ↔ ∀ s, s + d = c → b s = false := by
  rw [Bool.eq_false_iff, ne_eq, tap_iff]
  simp

theorem tap_cases (b : ℕ → Bool) (d c : ℕ) :
    (∃ s, s + d = c ∧ b s = true) ∨ ∀ s, s + d = c → b s = false := by
  cases h : tap b d c with
  | false => exact Or.inr ((tap_eq_false_iff b d c).mp h)
  | true => exact Or.inl ((tap_iff b d c).mp h)

theorem tap_early (b : ℕ → Bool) {d c : ℕ} (h : c < d) : tap b d c = false := by
  have hd : ¬d ≤ c := by omega
  simp [tap, hd]

theorem tap_congr {b b' : ℕ → Bool} {d c : ℕ} (h : ∀ s, s + d = c → b s = b' s) :
    tap b d c = tap b' d c := by
  by_cases hd : d ≤ c
  · obtain ⟨s, rfl⟩ : ∃ s, c = s + d := ⟨c - d, by omega⟩
    rw [tap_at, tap_at, h s rfl]
  · rw [tap_early b (by omega), tap_early b' (by omega)]

theorem tap_tap (b : ℕ → Bool) (d e c : ℕ) : tap (tap b d) e c = tap b (d + e) c := by
  by_cases h : d + e ≤ c
  · obtain ⟨s, rfl⟩ : ∃ s, c = s + (d + e) := ⟨c - (d + e), by omega⟩
    rw [tap_at, ← Nat.add_assoc, tap_at, tap_at]
  · rw [tap_early b (by omega)]
    by_cases he : e ≤ c
    · obtain ⟨s, rfl⟩ : ∃ s, c = s + e := ⟨c - e, by omega⟩
      rw [tap_at, tap_early b (by omega)]
    · exact tap_early _ (by omega)

/-! ## Shift registers -/

/-- One clock of a shift register: `{v[n-1:0], b}`. -/
def shiftIn {n : ℕ} (b : Bool) (v : BitVec (n + 1)) : BitVec (n + 1) :=
  (v.setWidth n).concat b

theorem shiftIn_zero {n : ℕ} (b : Bool) (v : BitVec (n + 1)) : (shiftIn b v).getLsbD 0 = b := by
  simp [shiftIn]

theorem shiftIn_succ {n : ℕ} (b : Bool) (v : BitVec (n + 1)) {k : ℕ} (hk : k < n) :
    (shiftIn b v).getLsbD (k + 1) = v.getLsbD k := by
  simp [shiftIn, hk]

theorem shiftIn_eq_zero_iff {n : ℕ} (b : Bool) :
    shiftIn b (0#(n + 1)) = 0#(n + 1) ↔ b = false := by
  constructor
  · intro h
    rw [← shiftIn_zero b (0#(n + 1)), h]
    simp
  · rintro rfl
    apply BitVec.eq_of_getLsbD_eq
    intro k hk
    cases k with
    | zero => rw [shiftIn_zero]; simp
    | succ k => rw [shiftIn_succ _ _ (by omega)]; simp

/-- Bit `k` of a shift register that starts clear is its input `k + 1` cycles ago. -/
theorem shift_register {n : ℕ} (b : ℕ → Bool) (v : ℕ → BitVec (n + 1)) (h0 : v 0 = 0#(n + 1))
    (hv : ∀ c, v (c + 1) = shiftIn (b c) (v c)) (c : ℕ) {k : ℕ} (hk : k ≤ n) :
    (v c).getLsbD k = tap b (k + 1) c := by
  induction c generalizing k with
  | zero => simp [h0]
  | succ c ih =>
    rw [hv c, tap_succ_succ]
    cases k with
    | zero => rw [shiftIn_zero]; exact (tap_at b 0 c).symm
    | succ k => rw [shiftIn_succ _ _ (by omega), ih (by omega)]

/-- The same from any contents, once the bit has been shifted there. -/
theorem shift_reaches {n : ℕ} (b : ℕ → Bool) (v : ℕ → BitVec (n + 1))
    (hv : ∀ c, v (c + 1) = shiftIn (b c) (v c)) (t k : ℕ) (hk : k ≤ n) :
    (v (t + k + 1)).getLsbD k = b t := by
  induction k with
  | zero => rw [hv, shiftIn_zero]
  | succ k ih => rw [hv, shiftIn_succ _ _ (by omega), ← Nat.add_assoc, ih (by omega)]

theorem shift_drains {n t : ℕ} (b : ℕ → Bool) (v : ℕ → BitVec (n + 1))
    (hv : ∀ c, v (c + 1) = shiftIn (b c) (v c)) (hb : ∀ c, t ≤ c → b c = false) {c : ℕ}
    (hc : t + n + 1 ≤ c) : v c = 0#(n + 1) := by
  apply BitVec.eq_of_getLsbD_eq
  intro k hk
  have hbit := shift_reaches b v hv (c - k - 1) k (by omega)
  rw [show c - k - 1 + k + 1 = c by omega, hb _ (by omega)] at hbit
  rw [hbit, BitVec.getLsbD_zero]

/-! ## Pipelines whose stages share one enable -/

/-- One clock of `n + 1` registers in a row: with the enable high the new value enters at the
first one and the rest move on, with the enable low all of them hold. -/
def advance {n : ℕ} (en : Bool) (a : α) (p : Fin (n + 1) → α) : Fin (n + 1) → α :=
  if en then Fin.cons a (Fin.init p) else p

theorem advance_zero {n : ℕ} (a : α) (p : Fin (n + 1) → α) : advance true a p 0 = a := rfl

theorem advance_succ {n : ℕ} (a : α) (p : Fin (n + 1) → α) (k : ℕ) (hk : k + 1 < n + 1) :
    advance true a p ⟨k + 1, hk⟩ = p ⟨k, by omega⟩ := rfl

theorem advance_single (x a : α) : advance true x ![a] = ![x] :=
  funext fun
    | 0 => rfl

theorem advance_cons {n : ℕ} (x a : α) (p : Fin (n + 1) → α) :
    advance true x (Matrix.vecCons a p) = Matrix.vecCons x (advance true a p) := by
  funext ⟨k, hk⟩
  rcases k with _ | _ | k <;> rfl

/-- A value that enters a pipeline at the edge that ends cycle `t` is in register `k` during cycle
`t + k + 1`, whatever the registers held before, if the enable is high at the `k + 1` edges between. -/
theorem advance_reaches {n : ℕ} (en : ℕ → Bool) (a : ℕ → α) (p : ℕ → Fin (n + 1) → α) (t k : ℕ)
    (hk : k < n + 1) (hp : ∀ j ≤ k, p (t + j + 1) = advance (en (t + j)) (a (t + j)) (p (t + j)))
    (hen : ∀ j ≤ k, en (t + j) = true) : p (t + k + 1) ⟨k, hk⟩ = a t := by
  induction k with
  | zero =>
    rw [hp 0 le_rfl, hen 0 le_rfl]
    exact advance_zero (a t) (p t)
  | succ k ih =>
    rw [hp (k + 1) le_rfl, hen (k + 1) le_rfl, advance_succ]
    exact ih (by omega) (fun j hj => hp j (by omega)) (fun j hj => hen j (by omega))

/-- A row that is fed one value for as many cycles as it is long holds nothing else. -/
theorem advance_settles {n : ℕ} (a : ℕ → α) (p : ℕ → Fin (n + 1) → α)
    (hp : ∀ c, p (c + 1) = advance true (a c) (p c)) {t c : ℕ} {v : α} (hc : t + n + 1 ≤ c)
    (ha : ∀ j, t ≤ j → j < c → a j = v) : p c = fun _ => v := by
  funext ⟨k, hk⟩
  have hrow := advance_reaches (fun _ => true) a p (c - k - 1) k hk (fun _ _ => hp _) (fun _ _ => rfl)
  rw [show c - k - 1 + k + 1 = c by omega] at hrow
  rw [hrow, ha _ (by omega) (by omega)]

/-! ## Gated machines on lists of cycles -/

/-- Cycles in which nothing moves leave no trace. -/
theorem foldl_gated (step : ι → σ → σ) (en : ι → Bool) (hhold : ∀ i s, en i = false → step i s = s)
    (s : σ) (cycles : List ι) :
    cycles.foldl (fun s i => step i s) s = (cycles.filter en).foldl (fun s i => step i s) s := by
  induction cycles generalizing s with
  | nil => rfl
  | cons i rest ih =>
    cases hen : en i with
    | false => rw [List.filter_cons_of_neg (by simp [hen]), List.foldl_cons, hhold i s hen, ih]
    | true => rw [List.filter_cons_of_pos hen, List.foldl_cons, List.foldl_cons, ih]

theorem foldl_advance {n : ℕ} (p : Fin (n + 1) → α) (before after : List α) (a : α)
    (h : after.length < n + 1) :
    (before ++ a :: after).foldl (fun p a => advance true a p) p ⟨after.length, h⟩ = a := by
  induction after using List.reverseRecOn with
  | nil =>
    rw [List.foldl_append]
    rfl
  | append_singleton after b ih =>
    rw [List.length_append, List.length_singleton] at h
    rw [← List.cons_append, ← List.append_assoc, List.foldl_append]
    simp only [List.length_append, List.length_singleton, List.foldl_cons, List.foldl_nil]
    rw [advance_succ b _ after.length h]
    exact ih (by omega)

/-- Every row of a gated pipeline holds what as many enabled cycles ago was fed in. -/
theorem gated_pipeline {n : ℕ} (step : ι → σ → σ) (en : ι → Bool) (view : σ → Fin (n + 1) → α)
    (f : ι → α) (hhold : ∀ i s, en i = false → step i s = s)
    (hmove : ∀ i s, en i = true → view (step i s) = advance true (f i) (view s)) (s : σ)
    (cycles before after : List ι) (i : ι) (hcycles : cycles.filter en = before ++ i :: after)
    (h : after.length < n + 1) :
    view (cycles.foldl (fun s i => step i s) s) ⟨after.length, h⟩ = f i := by
  have hall : ∀ enabled : List ι, (∀ j ∈ enabled, en j = true) → ∀ s,
      view (enabled.foldl (fun s i => step i s) s) =
        (enabled.map f).foldl (fun p a => advance true a p) (view s) := by
    intro enabled
    induction enabled with
    | nil => exact fun _ _ => rfl
    | cons j rest ih =>
      intro hen s
      rw [List.foldl_cons, List.map_cons, List.foldl_cons, ← hmove j s (hen j List.mem_cons_self)]
      exact ih (fun k hk => hen k (List.mem_cons_of_mem j hk)) _
  have hen : ∀ j ∈ before ++ i :: after, en j = true := by
    intro j hj
    rw [← hcycles, List.mem_filter] at hj
    exact hj.2
  have hlen : (after.map f).length < n + 1 := by rwa [List.length_map]
  have hlast := foldl_advance (view s) (before.map f) (after.map f) (f i) hlen
  simp only [List.length_map] at hlast
  rw [foldl_gated step en hhold, hcycles, hall _ hen, List.map_append, List.map_cons]
  exact hlast

/-! ## Asynchronous clears -/

/-- Registers with an asynchronous reset hold their cleared contents while it is high. -/
def clearOr {n : ℕ} (areset : Bool) (clear p : Fin (n + 1) → α) : Fin (n + 1) → α :=
  if areset then clear else p

theorem clearOr_low {n : ℕ} (clear p : Fin (n + 1) → α) : clearOr false clear p = p := rfl

/-- One clock of a pipeline with an asynchronous reset. -/
def pipe {n : ℕ} (clear : Fin (n + 1) → α) (areset en : Bool) (a : α) (p : Fin (n + 1) → α) :
    Fin (n + 1) → α :=
  clearOr areset clear (advance en a p)

def pipeQ {n : ℕ} (clear : Fin (n + 1) → α) (areset : Bool) (p : Fin (n + 1) → α) : α :=
  clearOr areset clear p (Fin.last n)

theorem pipeQ_clear {n : ℕ} (clear : Fin (n + 1) → α) (areset : Bool) :
    pipeQ clear areset clear = clear (Fin.last n) := by
  cases areset <;> rfl

/-- What enters a pipeline leaves it after as many enabled edges as it has stages. -/
theorem pipe_run {n : ℕ} (clear : Fin (n + 1) → α) (areset en : ℕ → Bool) (a : ℕ → α)
    (p : ℕ → Fin (n + 1) → α) (t : ℕ)
    (hp : ∀ c, p (c + 1) = pipe clear (areset c) (en c) (a c) (p c))
    (hreset : ∀ j ≤ n + 1, areset (t + j) = false) (hen : ∀ j ≤ n, en (t + j) = true) :
    pipeQ clear (areset (t + (n + 1))) (p (t + (n + 1))) = a t := by
  rw [pipeQ, hreset (n + 1) le_rfl, clearOr_low]
  refine advance_reaches en a p t n (by omega) (fun j hj => ?_) hen
  rw [hp, pipe, hreset j (by omega), clearOr_low]

section rows

variable {n : ℕ} (view : σ → Fin (n + 1) → α) (cleared s : σ)

/-- Registers that are cleared, enabled or kept behave as a pipeline if they do when enabled. -/
theorem pipe_of_enabled {next : σ} {a : α} (h : view next = advance true a (view s)) (areset en : Bool) :
    view (if areset then cleared else if en then next else s) =
      pipe (view cleared) areset en a (view s) := by
  cases areset with
  | true => rfl
  | false =>
    cases en with
    | false => rfl
    | true => exact h

theorem pipeQ_view (areset : Bool) :
    view (if areset then cleared else s) (Fin.last n) = pipeQ (view cleared) areset (view s) := by
  cases areset <;> rfl

end rows

end DsdCordic.Clocked
