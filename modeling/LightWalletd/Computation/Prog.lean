import Mathlib.Data.List.Basic
import Mathlib.Tactic.Common

/-!
# Programs over a store

A program is a tree of atomic commands over a state `σ`: a read continues with
the state it saw, a `modify` changes memory and cannot fail, and a `write` changes
the store and may be refused. One tree has several meanings, each a function on it:

* `run` executes it to the end, every write going through;
* `trace` lists the states another party may see while it runs.

The lemmas say how each meaning distributes over sequencing, so that a property of
a program is proved one command at a time.
-/

set_option autoImplicit false

namespace Stateful

/-- A program with state `σ`, result `α` and error `ε`. A write hands its
continuation the state before it, or `none` when it was refused. -/
inductive Prog (ε σ α : Type) : Type
  | ret (a : α)
  | fail (e : ε)
  | read (k : σ → Prog ε σ α)
  | modify (f : σ → σ) (k : Prog ε σ α)
  | write (f : σ → σ) (k : Option σ → Prog ε σ α)

namespace Prog

variable {ε σ α β : Type}

/-- Sequencing. An error skips the continuation. -/
def bind : Prog ε σ α → (α → Prog ε σ β) → Prog ε σ β
  | ret a, f => f a
  | fail e, _ => fail e
  | read k, f => read fun s => (k s).bind f
  | modify g k, f => modify g (k.bind f)
  | write g k, f => write g fun r => (k r).bind f

/-- Programs are written in `do` notation. -/
instance : Monad (Prog ε σ) where
  pure := ret
  bind := bind

/-- `pure` is `ret`. -/
@[simp] theorem pure_eq (a : α) : (pure a : Prog ε σ α) = ret a := rfl

/-- The bind of the monad is `Prog.bind`. -/
@[simp] theorem bind_eq (p : Prog ε σ α) (f : α → Prog ε σ β) : p >>= f = p.bind f := rfl

/-- Nested binds regroup. -/
theorem bind_assoc {γ : Type} (p : Prog ε σ α) (f : α → Prog ε σ β) (g : β → Prog ε σ γ) :
    (p.bind f).bind g = p.bind fun a => (f a).bind g := by
  induction p with
  | ret a => rfl
  | fail e => rfl
  | read k ih => exact congrArg read (funext ih)
  | modify h k ih => exact congrArg (modify h) ih
  | write h k ih => exact congrArg (write h) (funext ih)

/-- Run `p` and hand its outcome, an error included, to the continuation. -/
def attempt : Prog ε σ α → Prog ε σ (Except ε α)
  | ret a => ret (.ok a)
  | fail e => ret (.error e)
  | read k => read fun s => (k s).attempt
  | modify f k => modify f k.attempt
  | write f k => write f fun r => (k r).attempt

/-- One atomic read of what `f` selects. -/
def get (f : σ → β) : Prog ε σ β := read fun s => ret (f s)

/-- One change of memory. -/
def update (f : σ → σ) : Prog ε σ Unit := modify f (ret ())

/-- One write, refused with `e`. -/
def put (e : ε) (f : σ → σ) : Prog ε σ Unit :=
  write f fun
    | some _ => ret ()
    | none => fail e

/-- One write that returns what `old` selects of the state before it. -/
def swap (e : ε) (old : σ → β) (f : σ → σ) : Prog ε σ β :=
  write f fun
    | some s => ret (old s)
    | none => fail e

/-- Run `f` on every element in order. -/
def forEach (f : β → Prog ε σ Unit) : List β → Prog ε σ Unit
  | [] => ret ()
  | x :: xs => (f x).bind fun _ => forEach f xs

/-- Run `f` on every element in order and collect the results. -/
def mapEach {γ : Type} (f : β → Prog ε σ γ) : List β → Prog ε σ (List γ)
  | [] => ret []
  | x :: xs => (f x).bind fun y => (mapEach f xs).bind fun ys => ret (y :: ys)

/-! ## Uninterrupted runs -/

/-- The outcome and the final state when every write goes through. -/
def run : Prog ε σ α → σ → Except ε α × σ
  | ret a, s => (.ok a, s)
  | fail e, s => (.error e, s)
  | read k, s => (k s).run s
  | modify f k, s => k.run (f s)
  | write f k, s => (k (some s)).run (f s)

/-- The final state of an uninterrupted run. -/
def exec (p : Prog ε σ α) (s : σ) : σ := (p.run s).2

/-- A return is a run of no commands. -/
@[simp] theorem run_ret (a : α) (s : σ) : (ret a : Prog ε σ α).run s = (.ok a, s) := rfl

/-- A failure leaves the state as it is. -/
@[simp] theorem run_fail (e : ε) (s : σ) : (fail e : Prog ε σ α).run s = (.error e, s) := rfl

/-- A read yields its value and leaves the state as it is. -/
@[simp] theorem run_get (f : σ → β) (s : σ) :
    (get f : Prog ε σ β).run s = (.ok (f s), s) := rfl

/-- An update is run at once. -/
@[simp] theorem run_update (f : σ → σ) (s : σ) :
    (update f : Prog ε σ Unit).run s = (.ok (), f s) := rfl

/-- A write that is not cut off succeeds. -/
@[simp] theorem run_put (e : ε) (f : σ → σ) (s : σ) : (put e f).run s = (.ok (), f s) := rfl

/-- A swap yields the old value. -/
@[simp] theorem run_swap (e : ε) (old : σ → β) (f : σ → σ) (s : σ) :
    (swap e old f).run s = (.ok (old s), f s) := rfl

/-- A sequence runs its first part, then the continuation unless that failed. -/
theorem run_bind (p : Prog ε σ α) (f : α → Prog ε σ β) (s : σ) :
    (p.bind f).run s = match p.run s with
      | (.ok a, s') => (f a).run s'
      | (.error e, s') => (.error e, s') := by
  induction p generalizing s with
  | ret a => rfl
  | fail e => rfl
  | read k ih => exact ih s s
  | modify g k ih => exact ih (g s)
  | write g k ih => exact ih (some s) (g s)

/-- Running a sequence whose first part succeeds. -/
theorem run_bind_of_ok {p : Prog ε σ α} {s s' : σ} {a : α} (h : p.run s = (.ok a, s'))
    (f : α → Prog ε σ β) : (p.bind f).run s = (f a).run s' := by
  rw [run_bind, h]

/-- Running a sequence whose first part fails. -/
theorem run_bind_of_error {p : Prog ε σ α} {s s' : σ} {e : ε} (h : p.run s = (.error e, s'))
    (f : α → Prog ε σ β) : (p.bind f).run s = (.error e, s') := by
  rw [run_bind, h]

/-- A sequence succeeds only through its first part. -/
theorem run_bind_eq_ok {p : Prog ε σ α} {f : α → Prog ε σ β} {s s' : σ} {b : β}
    (h : (p.bind f).run s = (.ok b, s')) :
    ∃ a s₁, p.run s = (.ok a, s₁) ∧ (f a).run s₁ = (.ok b, s') := by
  rw [run_bind] at h
  rcases hp : p.run s with ⟨r, s₁⟩
  rw [hp] at h
  cases r with
  | error e => simp at h
  | ok a => exact ⟨a, s₁, rfl, h⟩

/-- An attempted program never fails. -/
theorem run_attempt (p : Prog ε σ α) (s : σ) :
    p.attempt.run s = (.ok (p.run s).1, (p.run s).2) := by
  induction p generalizing s with
  | ret a => rfl
  | fail e => rfl
  | read k ih => exact ih s s
  | modify g k ih => exact ih (g s)
  | write g k ih => exact ih (some s) (g s)

/-- One command of a program; a program that has ended stays as it is. -/
def step : Prog ε σ α → σ → Prog ε σ α × σ
  | ret a, s => (ret a, s)
  | fail e, s => (fail e, s)
  | read k, s => (k s, s)
  | modify f k, s => (k, f s)
  | write f k, s => (k (some s), f s)

/-- What is left of a program ends as the whole program does. -/
theorem run_step (p : Prog ε σ α) (s : σ) : (p.step s).1.run (p.step s).2 = p.run s := by
  cases p <;> rfl

/-- A loop over nothing does nothing. -/
@[simp] theorem run_forEach_nil (f : β → Prog ε σ Unit) (s : σ) :
    (forEach f []).run s = (.ok (), s) := rfl

/-- A loop whose body leaves the state as it is. -/
theorem run_mapEach {γ : Type} {f : β → Prog ε σ γ} {g : β → γ} {xs : List β} {s : σ}
    (h : ∀ x ∈ xs, (f x).run s = (.ok (g x), s)) : (mapEach f xs).run s = (.ok (xs.map g), s) := by
  induction xs with
  | nil => rfl
  | cons x xs ih =>
    rw [mapEach, run_bind_of_ok (h x List.mem_cons_self),
      run_bind_of_ok (ih fun y hy => h y (List.mem_cons_of_mem x hy))]
    rfl

/-- A loop whose body always succeeds folds the body's effect over the list. -/
theorem run_forEach (f : β → Prog ε σ Unit) (g : β → σ → σ)
    (h : ∀ x s, (f x).run s = (.ok (), g x s)) (xs : List β) (s : σ) :
    (forEach f xs).run s = (.ok (), xs.foldl (fun s x => g x s) s) := by
  induction xs generalizing s with
  | nil => rfl
  | cons x xs ih =>
    unfold forEach
    rw [run_bind_of_ok (h x s), ih]
    rfl

/-- Running `p` and changing the state by `φ` may be done in either order. -/
def Ignores (φ : σ → σ) (p : Prog ε σ α) : Prop := ∀ s, p.run (φ s) = ((p.run s).1, φ (p.run s).2)

section Ignores

variable {φ : σ → σ}

/-- A return does not look at the state. -/
theorem ignores_ret (a : α) : (ret a : Prog ε σ α).Ignores φ := fun _ => rfl

/-- Nor does a failure. -/
theorem ignores_fail (e : ε) : (fail e : Prog ε σ α).Ignores φ := fun _ => rfl

/-- A read ignores what its value does not depend on. -/
theorem ignores_get {f : σ → β} (h : ∀ s, f (φ s) = f s) : (get f : Prog ε σ β).Ignores φ := by
  intro s
  rw [run_get, run_get, h]

/-- An update ignores what it commutes with. -/
theorem ignores_update {f : σ → σ} (h : ∀ s, f (φ s) = φ (f s)) :
    (update f : Prog ε σ Unit).Ignores φ := by
  intro s
  rw [run_update, run_update, h]

/-- A write ignores what it commutes with. -/
theorem ignores_put (e : ε) {f : σ → σ} (h : ∀ s, f (φ s) = φ (f s)) :
    (put e f).Ignores φ := by
  intro s
  rw [run_put, run_put, h]

/-- A swap ignores what it commutes with and its old value does not depend on. -/
theorem ignores_swap (e : ε) {old : σ → β} {f : σ → σ} (hold : ∀ s, old (φ s) = old s)
    (h : ∀ s, f (φ s) = φ (f s)) : (swap e old f).Ignores φ := by
  intro s
  rw [run_swap, run_swap, h, hold]

/-- What ignores a change of state may be sequenced. -/
theorem Ignores.bind {p : Prog ε σ α} {f : α → Prog ε σ β} (hp : p.Ignores φ)
    (hf : ∀ a, (f a).Ignores φ) : (p.bind f).Ignores φ := by
  intro s
  rw [run_bind, run_bind, hp s]
  rcases p.run s with ⟨_ | a, s'⟩
  · rfl
  · exact hf a s'

/-- An attempt ignores what the program does. -/
theorem Ignores.attempt {p : Prog ε σ α} (hp : p.Ignores φ) : p.attempt.Ignores φ := by
  intro s
  rw [run_attempt, run_attempt, hp s]

end Ignores

/-! ## What another party may see -/

/-- The states of a run, one before each change and one at the end. -/
def trace : Prog ε σ α → σ → List σ
  | ret _, s => [s]
  | fail _, s => [s]
  | read k, s => (k s).trace s
  | modify f k, s => s :: k.trace (f s)
  | write f k, s => s :: (k (some s)).trace (f s)

/-- The states of a sequence are those of its first part and, when that succeeds,
those of the continuation. -/
theorem mem_trace_bind {p : Prog ε σ α} {f : α → Prog ε σ β} {s t : σ}
    (h : t ∈ (p.bind f).trace s) :
    t ∈ p.trace s ∨ ∃ a s', p.run s = (.ok a, s') ∧ t ∈ (f a).trace s' := by
  induction p generalizing s with
  | ret a => exact Or.inr ⟨a, s, rfl, h⟩
  | fail e => exact Or.inl h
  | read k ih => exact ih s h
  | modify g k ih =>
    rcases List.mem_cons.mp h with rfl | h
    · exact Or.inl (List.mem_cons_self ..)
    · exact (ih h).imp (List.mem_cons_of_mem _) id
  | write g k ih =>
    rcases List.mem_cons.mp h with rfl | h
    · exact Or.inl (List.mem_cons_self ..)
    · exact (ih (some s) h).imp (List.mem_cons_of_mem _) id

/-- The last state of a run is one of its states. -/
theorem exec_mem_trace (p : Prog ε σ α) (s : σ) : p.exec s ∈ p.trace s := by
  induction p generalizing s with
  | ret a => exact List.mem_singleton_self s
  | fail e => exact List.mem_singleton_self s
  | read k ih => exact ih s s
  | modify g k ih => exact List.mem_cons_of_mem _ (ih (g s))
  | write g k ih => exact List.mem_cons_of_mem _ (ih (some s) (g s))

/-- Every command of `p`, started where `I` holds, keeps `I`. -/
def Keeps (I : σ → Prop) (p : Prog ε σ α) : Prop := ∀ s, I s → ∀ t ∈ p.trace s, I t

section Keeps

variable {I : σ → Prop}

/-- A kept property holds at the end of a run. -/
theorem Keeps.exec {p : Prog ε σ α} (h : p.Keeps I) {s : σ} (hs : I s) : I (p.exec s) :=
  h s hs _ (p.exec_mem_trace s)

/-- A kept property holds in the state that a run is known to end in. -/
theorem Keeps.run {p : Prog ε σ α} (h : p.Keeps I) {s s' : σ} {r : Except ε α} (hs : I s)
    (hr : p.run s = (r, s')) : I s' := by
  have := h.exec hs
  rwa [Prog.exec, hr] at this

/-- A return keeps every property. -/
theorem keeps_ret (a : α) : (ret a : Prog ε σ α).Keeps I := by
  intro s hs t ht
  rwa [List.mem_singleton.mp ht]

/-- A failure keeps every property. -/
theorem keeps_fail (e : ε) : (fail e : Prog ε σ α).Keeps I := by
  intro s hs t ht
  rwa [List.mem_singleton.mp ht]

/-- A read keeps every property. -/
theorem keeps_get (f : σ → β) : (get f : Prog ε σ β).Keeps I := by
  intro s hs t ht
  rwa [List.mem_singleton.mp ht]

/-- An update keeps a property that its function keeps. -/
theorem keeps_update {f : σ → σ} (h : ∀ s, I s → I (f s)) :
    (update f : Prog ε σ Unit).Keeps I := by
  intro s hs t ht
  simp only [update, trace, List.mem_cons, List.not_mem_nil, or_false] at ht
  rcases ht with rfl | rfl
  · exact hs
  · exact h s hs

/-- A write keeps a property that its function keeps. -/
theorem keeps_put (e : ε) {f : σ → σ} (h : ∀ s, I s → I (f s)) : (put e f).Keeps I := by
  intro s hs t ht
  simp only [put, trace, List.mem_cons, List.not_mem_nil, or_false] at ht
  rcases ht with rfl | rfl
  · exact hs
  · exact h s hs

/-- A swap keeps a property that its function keeps. -/
theorem keeps_swap (e : ε) (old : σ → β) {f : σ → σ} (h : ∀ s, I s → I (f s)) :
    (swap e old f).Keeps I := by
  intro s hs t ht
  simp only [swap, trace, List.mem_cons, List.not_mem_nil, or_false] at ht
  rcases ht with rfl | rfl
  · exact hs
  · exact h s hs

/-- Two programs that keep a property keep it one after the other. -/
theorem Keeps.bind {p : Prog ε σ α} {f : α → Prog ε σ β} (hp : p.Keeps I)
    (hf : ∀ a, (f a).Keeps I) : (p.bind f).Keeps I := by
  intro s hs t ht
  rcases mem_trace_bind ht with ht | ⟨a, s', hr, ht⟩
  · exact hp s hs t ht
  · exact hf a s' (hp.run hs hr) t ht

/-- Handling the outcome of a program sees the same states. -/
theorem trace_attempt (p : Prog ε σ α) (s : σ) : p.attempt.trace s = p.trace s := by
  induction p generalizing s with
  | ret a => rfl
  | fail e => rfl
  | read k ih => exact ih s s
  | modify f k ih => exact congrArg (s :: ·) (ih (f s))
  | write f k ih => exact congrArg (s :: ·) (ih (some s) (f s))

/-- An attempt keeps what the program does. -/
theorem Keeps.attempt {p : Prog ε σ α} (hp : p.Keeps I) : p.attempt.Keeps I := by
  intro s hs t ht
  rw [trace_attempt] at ht
  exact hp s hs t ht

/-- A choice keeps what both branches do. -/
theorem Keeps.ite {b : Prop} [Decidable b] {p q : Prog ε σ α} (hp : p.Keeps I)
    (hq : q.Keeps I) : (if b then p else q).Keeps I := by
  by_cases h : b
  · rwa [if_pos h]
  · rwa [if_neg h]

/-- A loop keeps what its body does. -/
theorem Keeps.forEach {f : β → Prog ε σ Unit} (hf : ∀ x, (f x).Keeps I) (xs : List β) :
    (Prog.forEach f xs).Keeps I := by
  induction xs with
  | nil => exact keeps_ret ()
  | cons x xs ih => exact (hf x).bind fun _ => ih

/-- A loop that collects results keeps what its body does. -/
theorem Keeps.mapEach {γ : Type} {f : β → Prog ε σ γ} (hf : ∀ x, (f x).Keeps I) (xs : List β) :
    (Prog.mapEach f xs).Keeps I := by
  induction xs with
  | nil => exact keeps_ret []
  | cons x xs ih => exact (hf x).bind fun _ => ih.bind fun _ => keeps_ret _

end Keeps

end Prog

end Stateful
