import LightWalletd.Computation.Interleaving

/-!
# A program as a list of calls

A program that reads, decides and calls others does to the state what those calls do one after the
other, state by state. Whatever holds of every state between and within the calls then holds while
the program runs.
-/

set_option autoImplicit false

namespace Stateful

namespace Prog

variable {ε σ α β : Type}

/-- From `s` on the program goes through the states that the calls go through one after the
other. -/
structure Performs (p : Prog ε σ α) (s : σ) (calls : List (Prog ε σ Unit)) : Prop where
  changes : p.changes s = changesOf calls s
  exec : p.exec s = execAll calls s

section Lists

variable (ps qs : List (Prog ε σ Unit)) (s : σ)

/-- The changes of two lists of calls follow each other. -/
theorem changesOf_append :
    changesOf (ps ++ qs) s = changesOf ps s ++ changesOf qs (execAll ps s) := by
  induction ps generalizing s with
  | nil => simp [changesOf, execAll]
  | cons p ps ih => simp [changesOf, execAll, ih]

/-- Two lists of calls are executed one after the other. -/
theorem execAll_append : execAll (ps ++ qs) s = execAll qs (execAll ps s) := by
  induction ps generalizing s with
  | nil => simp [execAll]
  | cons p ps ih => simp [execAll, ih]

end Lists

section Rules

variable {p : Prog ε σ α} {f : α → Prog ε σ β} {s s' : σ} {calls calls' : List (Prog ε σ Unit)}

/-- A call performs itself. -/
theorem performs_call (call : Prog ε σ Unit) (s : σ) : call.Performs s [call] := by
  constructor <;> simp [changesOf, execAll]

/-- What only reads performs no call. -/
theorem ReadOnly.performs (hp : p.ReadOnly) (s : σ) : p.Performs s [] := by
  have hchanges : p.changes s = [] := by
    induction p with
    | ret a => simp [Prog.changes]
    | fail e => simp [Prog.changes]
    | read k ih => exact ih s (hp s)
    | modify g k ih => exact hp.elim
    | write g k ih => exact hp.elim
  exact ⟨hchanges, by rw [Prog.exec, hp.run_eq, execAll]⟩

/-- A return performs no call. -/
theorem performs_ret (a : α) (s : σ) : (ret a : Prog ε σ α).Performs s [] :=
  ReadOnly.performs (p := ret a) trivial s

/-- A sequence whose first part succeeds does the calls of both. -/
theorem Performs.bind_ok {a : α} (hp : p.Performs s calls) (hrun : p.run s = (.ok a, s'))
    (hf : (f a).Performs s' calls') : (p.bind f).Performs s (calls ++ calls') := by
  have hexec : execAll calls s = s' := by rw [← hp.exec, Prog.exec, hrun]
  constructor
  · rw [changes_bind_of_ok hrun, changesOf_append, hp.changes, hf.changes, hexec]
  · rw [Prog.exec, run_bind_of_ok hrun, execAll_append, hexec, ← hf.exec, Prog.exec]

/-- A bind whose first part fails changes what that part does. -/
theorem changes_bind_of_error {e : ε} (h : p.run s = (.error e, s')) (f : α → Prog ε σ β) :
    (p.bind f).changes s = p.changes s := by
  induction p generalizing s with
  | ret a => cases h
  | fail e => simp [Prog.bind, Prog.changes]
  | read k ih => exact ih s h
  | modify g k ih => exact congrArg (g s :: ·) (ih h)
  | write g k ih => exact congrArg (g s :: ·) (ih (some s) h)

/-- A bind whose first part fails performs what that part does. -/
theorem Performs.bind_error {e : ε} (hp : p.Performs s calls) (hrun : p.run s = (.error e, s')) :
    (p.bind f).Performs s calls := by
  constructor
  · rw [changes_bind_of_error hrun, hp.changes]
  · rw [Prog.exec, run_bind_of_error hrun, ← hp.exec, Prog.exec, hrun]

/-- A program that reads first does the calls that follow. -/
theorem ReadOnly.performs_bind {a : α} (hp : p.ReadOnly) (hrun : p.run s = (.ok a, s))
    (hf : (f a).Performs s calls) : (p.bind f).Performs s calls :=
  (hp.performs s).bind_ok hrun hf

/-- A bind whose first part only reads and fails performs no call. -/
theorem ReadOnly.performs_of_error {e : ε} (hp : p.ReadOnly) (hrun : p.run s = (.error e, s)) :
    (p.bind f).Performs s [] :=
  (hp.performs s).bind_error hrun

/-- What is made of the result does not matter. -/
theorem Performs.bind_ret (h : p.Performs s calls) (g : α → β) :
    (p.bind fun a => ret (g a)).Performs s calls := by
  cases hr : p.run s with
  | mk r s' =>
    cases r with
    | ok a =>
      rw [← List.append_nil calls]
      exact h.bind_ok hr (performs_ret (g a) s')
    | error e => exact h.bind_error hr

/-- An attempt performs what the program does. -/
theorem Performs.attempt (h : p.Performs s calls) : p.attempt.Performs s calls := by
  constructor
  · rw [changes_attempt, h.changes]
  · rw [← h.exec, Prog.exec, run_attempt, Prog.exec]

end Rules

end Prog

end Stateful
