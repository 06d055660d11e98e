import Mathlib.Data.Nat.Notation

/-! Loops with a test before each round. A loop is given a number of rounds it may take and has no
result when they are not enough; an invariant and a variant that goes down in each round give the
result and how many rounds it takes. -/
namespace DsdCordic.WhileLoop
set_option autoImplicit false

variable {σ : Type} (test : σ → Bool) (body : σ → σ)

def whileLoop : ℕ → σ → Option σ
  | 0, s => if test s then none else some s
  | fuel + 1, s => if test s then whileLoop fuel (body s) else some s

theorem whileLoop_done (fuel : ℕ) {s : σ} (h : test s = false) : whileLoop test body fuel s = some s := by
  cases fuel <;> simp [whileLoop, h]

theorem whileLoop_round (fuel : ℕ) {s : σ} (h : test s = true) :
    whileLoop test body (fuel + 1) s = whileLoop test body fuel (body s) := if_pos h

/-- **The rule for total correctness.** Any number of rounds from the variant on gives a result, where
the invariant holds and the test fails. -/
theorem whileLoop_total (inv : σ → Prop) (variant : σ → ℕ)
    (hbody : ∀ s, inv s → test s = true → inv (body s) ∧ variant (body s) < variant s) (fuel : ℕ) (s : σ)
    (hs : inv s) (hfuel : variant s ≤ fuel) :
    ∃ t, whileLoop test body fuel s = some t ∧ inv t ∧ test t = false := by
  induction fuel generalizing s with
  | zero =>
    have hdone : test s = false := by
      rw [Bool.eq_false_iff]
      intro h
      have := (hbody s hs h).2
      omega
    exact ⟨s, whileLoop_done test body 0 hdone, hs, hdone⟩
  | succ fuel ih =>
    cases h : test s with
    | false => exact ⟨s, whileLoop_done test body _ h, hs, h⟩
    | true =>
      obtain ⟨hinv, hlt⟩ := hbody s hs h
      rw [whileLoop_round test body fuel h]
      exact ih (body s) hinv (by omega)

end DsdCordic.WhileLoop
