import DsdCordic.Generated.Elaborated
import DsdCordic.Peripheral.Driver

/-! The peripheral as a program on the processor sees it. The program reaches it through two macros;
a write takes one cycle of the bus, and a read stalls the processor until its word is back. Whatever
the program does between two accesses, and whatever the idle bus carries, its reads return what an
object without any latency would return. -/
namespace DsdCordic.Session
open Binary32 Clocked Cores DsdCordic.Top Driver Elaborated
set_option autoImplicit false

/-! ## Accesses -/

/-- `IOWR` and `IORD` on the base of the peripheral. -/
inductive Access
  | iowr (regnum : Bool) (data : Word)
  | iord (regnum : Bool)

def Access.pins : Access → Pins
  | iowr regnum data => ⟨true, false, true, regnum, data⟩
  | iord regnum => ⟨true, true, false, regnum, 0#32⟩

def readWaitTime : ℕ := 1

def readLatency : ℕ := 23

def writeWaitTime : ℕ := 0

section machine

variable {σ : Type} (step : Pins → σ → σ) (readdata : Pins → σ → Word)

/-- The same pins for `n` cycles. -/
def held (pins : Pins) (n : ℕ) (s : σ) : σ := run step (fun _ => pins) s n

variable (lines : ℕ → Bool × Word)

/-- The bus in cycle `t` without an access: `lines` tells what the address and the data carry then. -/
def undriven (t : ℕ) : Pins := .quiet (lines t).1 (lines t).2

/-- No access for the `n` cycles from `t` on. -/
def idled (t n : ℕ) (s : σ) : σ := run step (fun c => undriven lines (t + c)) s n

/-- The words that the reads of a program return from cycle `t` on, each access coming after some
cycles in which the bus is idle. -/
def returned : ℕ → List (ℕ × Access) → σ → List Word
  | _, [], _ => []
  | t, (gap, .iowr regnum data) :: rest, s =>
    returned (t + gap + (writeWaitTime + 1)) rest
      (held step (Access.iowr regnum data).pins (writeWaitTime + 1) (idled step lines t gap s))
  | t, (gap, .iord regnum) :: rest, s =>
    let t' := t + gap + (readWaitTime + 1)
    let asked := held step (Access.iord regnum).pins (readWaitTime + 1) (idled step lines t gap s)
    let answered := idled step lines t' (readLatency - 1) asked
    let pins := undriven lines (t' + (readLatency - 1))
    readdata pins answered :: returned (t' + readLatency) rest (step pins answered)

end machine

/-! ## Programs -/

section programs

variable {A : Type} [AddZeroClass A] (C : FpCores A)

/-- What the reads return of a batch that every write reaches at once. -/
def answers : List Access → Batch → List Word
  | [], _ => []
  | .iowr regnum data :: rest, b => answers rest (b.step (Access.iowr regnum data).pins)
  | .iord _ :: rest, b => b.answer C :: answers rest b

end programs

/-- No sample comes before the first request, and between a sample and the next request there is a
read. The two flags tell whether a batch was begun and whether it has samples that were not read. -/
def readOut : Bool → Bool → List Access → Bool
  | _, _, [] => true
  | begun, _, .iowr false _ :: rest => begun && readOut true true rest
  | _, unread, .iowr true _ :: rest => !unread && readOut true false rest
  | begun, _, .iord _ :: rest => readOut begun false rest

/-! ## Traffic -/

/-- One access more, which the bus carries for `n` cycles from cycle `t` on. -/
def issue (input : ℕ → Pins) (t n : ℕ) (pins : Pins) (c : ℕ) : Pins :=
  if t ≤ c ∧ c < t + n then pins else input c

section traffic

variable {σ : Type} (step : Pins → σ → σ) (s0 : σ)

theorem run_quiet {input : ℕ → Pins} {t : ℕ} (hquiet : ∀ c, t ≤ c → input c = .idle) (n : ℕ) :
    run step input s0 (t + n) = held step .idle n (run step input s0 t) := by
  rw [run_add]
  exact run_congr step _ fun c _ => hquiet (t + c) (by omega)

variable (input : ℕ → Pins) (t : ℕ) {n : ℕ} (pins : Pins)

theorem run_issue {k : ℕ} (hk : k ≤ n) :
    run step (issue input t n pins) s0 (t + k) = held step pins k (run step input s0 t) := by
  have hbefore : run step (issue input t n pins) s0 t = run step input s0 t :=
    run_congr step s0 fun c hc => if_neg (by omega)
  rw [run_add, hbefore]
  exact run_congr step _ fun c hc => if_pos (by omega)

theorem issue_cases (n c : ℕ) :
    t ≤ c ∧ c < t + n ∧ issue input t n pins c = pins ∨ issue input t n pins c = input c := by
  by_cases hc : t ≤ c ∧ c < t + n
  · exact Or.inl ⟨hc.1, hc.2, if_pos hc⟩
  · exact Or.inr (if_neg hc)

variable {input t pins}

theorem issue_event (event : Pins → Bool) {c : ℕ} (h : event (issue input t n pins c) = true) :
    t ≤ c ∧ c < t + n ∧ event pins = true ∨ event (input c) = true := by
  rcases issue_cases input t pins n c with ⟨h1, h2, h3⟩ | hold
  · exact Or.inl ⟨h1, h2, by rwa [h3] at h⟩
  · exact Or.inr (by rwa [hold] at h)

theorem issue_early {c : ℕ} (hc : c < t) : issue input t n pins c = input c := if_neg (by omega)

end traffic

/-- The bus after some accesses: it has been idle since cycle `t`, and nothing is on its way that a
further access could meet. -/
structure Settled (input : ℕ → Pins) (t : ℕ) (begun unread : Bool) : Prop where
  disciplined : Disciplined input
  quiet : ∀ c, t ≤ c → input c = .idle
  back : ∀ r, reads input r = true → r + 24 ≤ t
  requested : begun = true → ∃ r < t, requests input r = true
  drained : ∀ s r, samples input s = true → requests input r = true → s < r → s + 23 ≤ r
  taken : unread = false → ∀ s, samples input s = true → s + 24 ≤ t

theorem settled_start : Settled (fun _ => .idle) 0 false false where
  disciplined :=
    ⟨fun _ => rfl, fun _ _ => rfl, fun _ h => absurd h Bool.false_ne_true,
      fun _ _ h => absurd h Bool.false_ne_true, fun _ _ h => absurd h Bool.false_ne_true⟩
  quiet _ _ := rfl
  back _ h := absurd h Bool.false_ne_true
  requested h := absurd h Bool.false_ne_true
  drained _ _ h := absurd h Bool.false_ne_true
  taken _ _ h := absurd h Bool.false_ne_true

namespace Settled

variable {input : ℕ → Pins} {t : ℕ} {begun unread : Bool}

theorem later (h : Settled input t begun unread) {t' : ℕ} (ht : t ≤ t') :
    Settled input t' begun unread where
  disciplined := h.disciplined
  quiet c hc := h.quiet c (ht.trans hc)
  back r hr := (h.back r hr).trans ht
  requested hbegun := by
    obtain ⟨r, hr, hreq⟩ := h.requested hbegun
    exact ⟨r, by omega, hreq⟩
  drained := h.drained
  taken hunread s hs := (h.taken hunread s hs).trans ht

theorem sample_early (h : Settled input t begun unread) {s : ℕ} (hs : samples input s = true) :
    s < t := by
  by_contra hc
  rw [samples, h.quiet s (by omega)] at hs
  exact Bool.false_ne_true hs

theorem request_early (h : Settled input t begun unread) {r : ℕ} (hr : requests input r = true) :
    r < t := by
  by_contra hc
  rw [requests, h.quiet r (by omega)] at hr
  exact Bool.false_ne_true hr

section issue

variable {pins : Pins} {n : ℕ} (h : Settled input t begun unread)
include h

theorem issue_drained (hrequest : pins.write1 = true → unread = false) {s r : ℕ}
    (hs : samples (Session.issue input t n pins) s = true)
    (hr : requests (Session.issue input t n pins) r = true) (hlt : s < r) : s + 23 ≤ r := by
  rcases issue_event Pins.write1 hr with ⟨htr, -, hnew⟩ | hr
  · rcases issue_event Pins.write0 hs with ⟨-, -, hs⟩ | hs
    · -- one access is not both a sample and a request
      simp only [Pins.write0, Pins.write1, Bool.and_eq_true] at hs hnew
      simp [hnew.2] at hs
    · have := h.taken (hrequest hnew) s hs
      omega
  · have htr := h.request_early hr
    rcases issue_event Pins.write0 hs with ⟨hts, -, -⟩ | hs
    · omega
    · exact h.drained s r hs hr hlt

theorem issue_disciplined (hreset : pins.resetN = true) (hone : pins.read = true → pins.write = false)
    (hsample : pins.write0 = true → begun = true) (hrequest : pins.write1 = true → unread = false) :
    Disciplined (Session.issue input t n pins) where
  resetN c := by
    rcases issue_cases input t pins n c with ⟨-, -, hc⟩ | hc
    · rwa [hc]
    · rw [hc]
      exact h.disciplined.resetN c
  oneAccess c hread := by
    rcases issue_cases input t pins n c with ⟨-, -, hc⟩ | hc
    · rw [reads, hc] at hread
      rw [hc, hone hread]
    · rw [reads, hc] at hread
      rw [hc]
      exact h.disciplined.oneAccess c hread
  begun s hs := by
    rcases issue_event Pins.write0 hs with ⟨hts, -, hnew⟩ | hs
    · obtain ⟨r, hr, hreq⟩ := h.requested (hsample hnew)
      exact ⟨r, by omega, by rwa [requests, issue_early hr]⟩
    · obtain ⟨r, hr, hreq⟩ := h.disciplined.begun s hs
      exact ⟨r, hr, by rwa [requests, issue_early (h.request_early hreq)]⟩
  readsReturned r0 r hr0 hr hlt := by
    rcases issue_event Pins.write1 hr with ⟨htr, -, hnew⟩ | hr
    · rcases issue_event Pins.read hr0 with ⟨-, -, hr0⟩ | hr0
      · rw [Pins.write1, hone hr0] at hnew
        exact absurd hnew Bool.false_ne_true
      · have := h.back r0 hr0
        omega
    · have htr := h.request_early hr
      rcases issue_event Pins.read hr0 with ⟨hr0, -, -⟩ | hr0
      · omega
      · exact h.disciplined.readsReturned r0 r hr0 hr hlt
  samplesTaken s r hs hr hlt := by
    have := h.issue_drained hrequest hs hr hlt
    omega

/-- One access more. -/
theorem issue {t' : ℕ} {begun' unread' : Bool} (hreset : pins.resetN = true)
    (hone : pins.read = true → pins.write = false) (hsample : pins.write0 = true → begun = true)
    (hrequest : pins.write1 = true → unread = false) (ht : t + n ≤ t')
    (hread : pins.read = true → t + n + 23 ≤ t')
    (hbegun : begun' = true → begun = true ∨ pins.write1 = true ∧ 0 < n)
    (hunread : unread' = false → pins.write0 = false ∧ (unread = true → t + 24 ≤ t')) :
    Settled (Session.issue input t n pins) t' begun' unread' where
  disciplined := h.issue_disciplined hreset hone hsample hrequest
  quiet c hc := by
    rw [Session.issue, if_neg (by omega)]
    exact h.quiet c (by omega)
  back r hr := by
    rcases issue_event Pins.read hr with ⟨-, hr', hnew⟩ | hr
    · have := hread hnew
      omega
    · have := h.back r hr
      omega
  requested hb := by
    rcases hbegun hb with hb | ⟨hreq, hn⟩
    · obtain ⟨r, hr, hreq⟩ := h.requested hb
      exact ⟨r, by omega, by rwa [requests, issue_early hr]⟩
    · exact ⟨t, by omega, by rwa [requests, Session.issue, if_pos (by omega)]⟩
  drained s r hs hr hlt := h.issue_drained hrequest hs hr hlt
  taken hu s hs := by
    obtain ⟨hnone, hlate⟩ := hunread hu
    rcases issue_event Pins.write0 hs with ⟨-, -, hs⟩ | hs
    · simp [hnone] at hs
    · have hs' := h.sample_early hs
      cases unread with
      | false =>
        have := h.taken rfl s hs
        omega
      | true =>
        have := hlate rfl
        omega

end issue

theorem sample (h : Settled input t true unread) (data : Word) :
    Settled (Session.issue input t 1 (Access.iowr false data).pins) (t + 1) true true := by
  refine h.issue rfl ?_ ?_ ?_ le_rfl ?_ ?_ ?_ <;> simp [Access.pins, Pins.write0, Pins.write1]

theorem request (h : Settled input t begun false) (data : Word) :
    Settled (Session.issue input t 1 (Access.iowr true data).pins) (t + 1) true false := by
  refine h.issue rfl ?_ ?_ ?_ le_rfl ?_ ?_ ?_ <;> simp [Access.pins, Pins.write0, Pins.write1]

theorem read (h : Settled input t begun unread) (regnum : Bool) :
    Settled (Session.issue input t 2 (Access.iord regnum).pins) (t + 25) begun false := by
  refine h.issue rfl ?_ ?_ ?_ (by omega) ?_ ?_ ?_ <;> simp [Access.pins, Pins.write0, Pins.write1]

end Settled

/-! ## What the reads return -/

section returned

variable {A : Type} [AddZeroClass A] {C : FpCores A} {σ : Type} {step : Pins → σ → σ}
  {readdata : Pins → σ → Word} {s0 : σ}

/-- A machine that looks at the address and the data of an access only, and that answers the reads of
disciplined traffic as `C` does. -/
structure Serves (C : FpCores A) (step : Pins → σ → σ) (readdata : Pins → σ → Word) (s0 : σ) : Prop where
  step_quiet : ∀ address writedata s, step (.quiet address writedata) s = step .idle s
  readdata_quiet : ∀ address writedata s, readdata (.quiet address writedata) s = readdata .idle s
  answers : ∀ input : ℕ → Pins, Disciplined input → ∀ r, reads input r = true → Drained input r →
    readdata (input (r + 23)) (run step input s0 (r + 23)) = (batchAt input r).answer C

theorem Serves.idled (h : Serves C step readdata s0) (lines : ℕ → Bool × Word) (t n : ℕ) (s : σ) :
    idled step lines t n s = held step .idle n s := by
  induction n with
  | zero => rfl
  | succ n ih =>
    rw [Session.idled, run_succ, ← Session.idled, ih, undriven, h.step_quiet]
    rfl

theorem batch_held {pins : Pins} (h1 : pins.write1 = false) (h0 : pins.write0 = false) (n : ℕ)
    (b : Batch) : held Batch.step pins n b = b := by
  induction n with
  | zero => rfl
  | succ n ih =>
    have hstep : Batch.step pins b = b := by
      rw [Batch.step, h1, h0]
      rfl
    rw [held, run_succ, ← held, ih, hstep]

theorem batchAt_quiet {input : ℕ → Pins} {t : ℕ} (hquiet : ∀ c, t ≤ c → input c = .idle) (n : ℕ) :
    batchAt input (t + n) = batchAt input t := by
  rw [batchAt, run_quiet Batch.step _ hquiet, batch_held rfl rfl]
  rfl

/-- A read held for two cycles: the word that comes back, and what the bus and the batch are then. -/
theorem read_answered (hserves : Serves C step readdata s0) {input : ℕ → Pins} {t : ℕ}
    {begun unread : Bool} (h : Settled input t begun unread) (regnum : Bool) :
    let asked := held step (Access.iord regnum).pins 2 (run step input s0 t)
    let input' := issue input t 2 (Access.iord regnum).pins
    readdata .idle (held step .idle 22 asked) = (batchAt input t).answer C ∧
      step .idle (held step .idle 22 asked) = run step input' s0 (t + 25) ∧
      batchAt input' (t + 25) = batchAt input t := by
  intro asked input'
  have hread : Settled input' (t + 25) begun false := h.read regnum
  have hquiet : ∀ c, t + 2 ≤ c → input' c = .idle := by
    intro c hc
    exact (if_neg (by omega)).trans (h.quiet c (by omega))
  have hbatch : ∀ k ≤ 2, batchAt input' (t + k) = batchAt input t := by
    intro k hk
    rw [batchAt, run_issue Batch.step _ input t _ hk, batch_held rfl rfl]
    rfl
  have hreads : reads input' (t + 1) = true := by
    rw [reads, show input' (t + 1) = (Access.iord regnum).pins from if_pos (by omega)]
    rfl
  have hasked : run step input' s0 (t + 2) = asked := run_issue step s0 input t _ le_rfl
  have hanswered := run_quiet step s0 hquiet 22
  rw [hasked] at hanswered
  have hword := hserves.answers input' hread.disciplined (t + 1) hreads
    fun s r hs hreq hlt _ => hread.drained s r hs hreq hlt
  rw [hquiet _ (by omega), hbatch 1 (by omega), show t + 1 + 23 = t + 2 + 22 by omega, hanswered] at hword
  refine ⟨hword, ?_, ?_⟩
  · rw [← hanswered, ← hquiet (t + 2 + 22) (by omega)]
    rfl
  · have hkept := batchAt_quiet hquiet 23
    rw [hbatch 2 le_rfl] at hkept
    exact hkept

/-- The rest of a program, from what the accesses before it have left. -/
theorem returned_from (hserves : Serves C step readdata s0) (lines : ℕ → Bool × Word)
    (program : List (ℕ × Access)) {input : ℕ → Pins} {t : ℕ} {begun unread : Bool}
    (h : Settled input t begun unread) (hok : readOut begun unread (program.map Prod.snd) = true) :
    returned step readdata lines t program (run step input s0 t) =
      answers C (program.map Prod.snd) (batchAt input t) := by
  induction program generalizing input t begun unread with
  | nil => rfl
  | cons head rest ih =>
    obtain ⟨gap, access⟩ := head
    have hlater := h.later (Nat.le_add_right t gap)
    have hidle := run_quiet step s0 h.quiet gap
    have hbatch := batchAt_quiet h.quiet gap
    rw [← hserves.idled lines t] at hidle
    cases access with
    | iowr regnum data =>
      have hrun := run_issue step s0 input (t + gap) (Access.iowr regnum data).pins (le_refl 1)
      have hnext := run_issue Batch.step ⟨0#32, []⟩ input (t + gap) (Access.iowr regnum data).pins
        (le_refl 1)
      rw [hidle] at hrun
      change batchAt _ _ = held _ _ _ (batchAt input (t + gap)) at hnext
      rw [hbatch] at hnext
      cases regnum with
      | false =>
        simp only [List.map_cons, readOut, Bool.and_eq_true] at hok
        obtain ⟨rfl, hok⟩ := hok
        have hstep := ih (hlater.sample data) hok
        rw [hrun, hnext] at hstep
        exact hstep
      | true =>
        simp only [List.map_cons, readOut, Bool.and_eq_true, Bool.not_eq_true'] at hok
        obtain ⟨rfl, hok⟩ := hok
        have hstep := ih (hlater.request data) hok
        rw [hrun, hnext] at hstep
        exact hstep
    | iord regnum =>
      obtain ⟨hword, hlast, hkept⟩ := read_answered hserves hlater regnum
      have hstep := ih (hlater.read regnum) hok
      rw [← hlast, hkept, hbatch, hidle, ← hserves.idled lines (t + gap + 2),
        ← hserves.step_quiet (lines (t + gap + 2 + 22)).1 (lines (t + gap + 2 + 22)).2] at hstep
      rw [hbatch, hidle, ← hserves.idled lines (t + gap + 2),
        ← hserves.readdata_quiet (lines (t + gap + 2 + 22)).1 (lines (t + gap + 2 + 22)).2] at hword
      rw [List.map_cons, Session.answers, ← hword, ← hstep]
      rfl

end returned

theorem elaborated_serves : Serves generated Elaborated.step Elaborated.readdata Elaborated.powerOn where
  step_quiet := Elaborated.step_quiet
  readdata_quiet := Elaborated.readdata_quiet
  answers _ h _ hr hdrained := Elaborated.readdata_batch h hr fun _ => hdrained

end DsdCordic.Session
