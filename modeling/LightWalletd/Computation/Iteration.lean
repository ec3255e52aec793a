import Mathlib.Order.WellFounded
import Mathlib.Tactic.Common

/-!
# Iterated steps

A run of steps that may differ from each other. When every step either finds its goal
reached, and then changes nothing, or lowers a variant, the run reaches the goal after
finitely many steps and stays there. When the steps only let the state grow, and a step that was
taken has nothing left to do in a grown state, a list of steps is idempotent.
-/

set_option autoImplicit false

namespace Stateful

variable {α σ : Type}

/-- The state after the first `n` of the given steps. -/
def iterate (steps : ℕ → σ → σ) : ℕ → σ → σ
  | 0, s => s
  | n + 1, s => iterate (fun i => steps (i + 1)) n (steps 0 s)

/-- Steps that change nothing may be left out. -/
theorem iterate_eq_self {steps : ℕ → σ → σ} {s : σ} (h : ∀ i, steps i s = s) (n : ℕ) :
    iterate steps n s = s := by
  induction n generalizing steps with
  | zero => rfl
  | succ n ih =>
    rw [iterate, h 0]
    exact ih fun i => h (i + 1)

/-- The invariant `I` relates a state to the value the variant is taken of. -/
theorem iterate_reaches {r : α → α → Prop} (hwf : WellFounded r) {I : α → σ → Prop}
    {goal : α → Prop} {allowed : (σ → σ) → Prop}
    (hstep : ∀ f, allowed f → ∀ a s, I a s →
      goal a ∨ ∃ a', I a' (f s) ∧ r a' a)
    (hstay : ∀ f, allowed f → ∀ a s, I a s → goal a → f s = s)
    {steps : ℕ → σ → σ} (hsteps : ∀ i, allowed (steps i)) {a : α} {s : σ} (hs : I a s) :
    ∃ n a', I a' (iterate steps n s) ∧ goal a' ∧
      ∀ i, iterate steps (n + i) s = iterate steps n s := by
  induction a using hwf.induction generalizing s steps with
  | h a ih =>
    rcases hstep (steps 0) (hsteps 0) a s hs with hgoal | ⟨a', hs', hlt⟩
    · refine ⟨0, a, hs, hgoal, fun i => ?_⟩
      rw [Nat.zero_add]
      exact iterate_eq_self (fun j => hstay (steps j) (hsteps j) a s hs hgoal) i
    · obtain ⟨n, b, hb, hgoal, hrest⟩ := ih a' hlt (fun i => hsteps (i + 1)) hs'
      refine ⟨n + 1, b, hb, hgoal, fun i => ?_⟩
      rw [Nat.add_right_comm]
      exact hrest i

/-- The steps of a list only let the state grow, and a step that was taken changes nothing in any
state that has grown since. -/
structure Settles (step : σ → α → σ) (grows : σ → σ → Prop) : Prop where
  refl : ∀ s, grows s s
  trans : ∀ s₁ s₂ s₃, grows s₁ s₂ → grows s₂ s₃ → grows s₁ s₃
  growing : ∀ s a, grows s (step s a)
  settled : ∀ s a s', grows (step s a) s' → step s' a = s'

namespace Settles

variable {step : σ → α → σ} {grows : σ → σ → Prop}

/-- A list of steps lets the state grow. -/
theorem foldl_grows (h : Settles step grows) (as : List α) (s : σ) :
    grows s (as.foldl step s) := by
  induction as generalizing s with
  | nil => exact h.refl s
  | cons a as ih => exact h.trans _ _ _ (h.growing s a) (ih (step s a))

/-- A step of the list changes nothing once the list is through. -/
theorem step_foldl (h : Settles step grows) {as : List α} {s s' : σ}
    (hgrows : grows (as.foldl step s) s') {a : α} (ha : a ∈ as) : step s' a = s' := by
  obtain ⟨before, after, rfl⟩ := List.append_of_mem ha
  rw [List.foldl_append, List.foldl_cons] at hgrows
  exact h.settled _ a s' (h.trans _ _ _ (h.foldl_grows after _) hgrows)

/-- Nor does any list of such steps. -/
theorem foldl_foldl (h : Settles step grows) {as bs : List α} (hsub : bs ⊆ as) {s s' : σ}
    (hgrows : grows (as.foldl step s) s') : bs.foldl step s' = s' := by
  induction bs with
  | nil => rfl
  | cons b bs ih =>
    rw [List.foldl_cons, h.step_foldl hgrows (hsub (List.mem_cons_self ..))]
    exact ih (List.subset_of_cons_subset hsub)

end Settles

end Stateful
