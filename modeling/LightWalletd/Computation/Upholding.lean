import LightWalletd.Computation.Interleaving
import LightWalletd.Computation.Pool

/-!
# Invariants of concurrent programs

A program upholds an invariant if its changes keep it as long as every state that it reads has it,
whatever others did since its last command. Programs that uphold an invariant may be interleaved in
any way: the invariant stays, and so does what each of them promises of its result.
-/

set_option autoImplicit false

namespace Stateful

variable {ι ε ε' σ α β γ : Type}

namespace Prog

/-- The changes keep `I`, and the result satisfies `Q`, if what is read satisfies `I`. -/
def Upholds (I : σ → Prop) (Q : α → Prop) : Prog ε σ α → Prop
  | ret a => Q a
  | fail _ => True
  | read c => ∀ s, I s → (c s).Upholds I Q
  | modify f c => (∀ s, I s → I (f s)) ∧ c.Upholds I Q
  | write f c => (∀ s, I s → I (f s)) ∧ (∀ s, I s → (c (some s)).Upholds I Q) ∧
      (c none).Upholds I Q

/-- No promise about the result. -/
def Any : α → Prop := fun _ => True

section Rules

variable {I : σ → Prop} {Q : α → Prop} {R : β → Prop}

/-- The condition on the result may be weakened. -/
theorem Upholds.mono {Q' : α → Prop} {p : Prog ε σ α} (h : p.Upholds I Q) (hQ : ∀ a, Q a → Q' a) :
    p.Upholds I Q' := by
  induction p with
  | ret a => exact hQ a h
  | fail e => trivial
  | read c ih => exact fun s hs => ih s (h s hs)
  | modify f c ih => exact ⟨h.1, ih h.2⟩
  | write f c ih => exact ⟨h.1, fun s hs => ih (some s) (h.2.1 s hs), ih none h.2.2⟩

/-- The condition on the result may be dropped. -/
theorem Upholds.any {p : Prog ε σ α} (h : p.Upholds I Q) : p.Upholds I Any :=
  h.mono fun _ _ => trivial

/-- What follows may rely on the condition on the result. -/
theorem Upholds.bind {p : Prog ε σ α} {k : α → Prog ε σ β} (hp : p.Upholds I Q)
    (hk : ∀ a, Q a → (k a).Upholds I R) : (p.bind k).Upholds I R := by
  induction p with
  | ret a => exact hk a hp
  | fail e => trivial
  | read c ih => exact fun s hs => ih s (hp s hs)
  | modify f c ih => exact ⟨hp.1, ih hp.2⟩
  | write f c ih => exact ⟨hp.1, fun s hs => ih (some s) (hp.2.1 s hs), ih none hp.2.2⟩

/-- A first part whose result does not matter. -/
theorem Upholds.next {p : Prog ε σ α} {k : α → Prog ε σ β} (hp : p.Upholds I Any)
    (hk : ∀ a, (k a).Upholds I R) : (p.bind k).Upholds I R :=
  hp.bind fun a _ => hk a

/-- The result of an attempt meets the condition if the program succeeds. -/
theorem Upholds.attempt {p : Prog ε σ α} (h : p.Upholds I Q) :
    p.attempt.Upholds I fun r => ∀ a, r = .ok a → Q a := by
  induction p with
  | ret a =>
    rintro b ⟨⟩
    exact h
  | fail e => exact nofun
  | read c ih => exact fun s hs => ih s (h s hs)
  | modify f c ih => exact ⟨h.1, ih h.2⟩
  | write f c ih => exact ⟨h.1, fun s hs => ih (some s) (h.2.1 s hs), ih none h.2.2⟩

/-- A translation of errors upholds what the program does. -/
theorem Upholds.mapError {p : Prog ε σ α} (h : p.Upholds I Q) (g : ε → ε') :
    (p.mapError g).Upholds I Q := by
  induction p with
  | ret a => exact h
  | fail e => trivial
  | read c ih => exact fun s hs => ih s (h s hs)
  | modify f c ih => exact ⟨h.1, ih h.2⟩
  | write f c ih => exact ⟨h.1, fun s hs => ih (some s) (h.2.1 s hs), ih none h.2.2⟩

/-- A choice upholds what both branches do. -/
theorem Upholds.ite {b : Prop} [Decidable b] {p q : Prog ε σ α} (hp : p.Upholds I Q)
    (hq : q.Upholds I Q) : (if b then p else q).Upholds I Q := by
  split_ifs
  · exact hp
  · exact hq

/-- A read upholds the invariant, and its value is what the invariant says of it. -/
theorem upholds_get {f : σ → β} (h : ∀ s, I s → R (f s)) : (get f : Prog ε σ β).Upholds I R :=
  h

/-- An update upholds an invariant that its function keeps. -/
theorem upholds_update {f : σ → σ} (h : ∀ s, I s → I (f s)) :
    (update f : Prog ε σ Unit).Upholds I Any := ⟨h, trivial⟩

/-- A write upholds an invariant that its function keeps. -/
theorem upholds_put (e : ε) {f : σ → σ} (h : ∀ s, I s → I (f s)) : (put e f).Upholds I Any :=
  ⟨h, fun _ _ => trivial, trivial⟩

/-- A swap upholds an invariant that its function keeps, and the invariant speaks for the old value.
-/
theorem upholds_swap (e : ε) (old : σ → β) {f : σ → σ} (h : ∀ s, I s → I (f s))
    (hold : ∀ s, I s → R (old s)) : (swap e old f).Upholds I R :=
  ⟨h, hold, trivial⟩

/-- A loop upholds what its body does. -/
theorem upholds_forEach {f : β → Prog ε σ Unit} {xs : List β}
    (h : ∀ x ∈ xs, (f x).Upholds I Any) : (forEach f xs).Upholds I Any := by
  induction xs with
  | nil => trivial
  | cons x xs ih =>
    exact (h x List.mem_cons_self).next fun _ => ih fun y hy => h y (List.mem_cons_of_mem x hy)

/-- A loop collects results that meet the conditions of the rounds. -/
theorem upholds_mapEach {f : β → Prog ε σ γ} {P : β → γ → Prop} {xs : List β}
    (h : ∀ x ∈ xs, (f x).Upholds I (P x)) : (mapEach f xs).Upholds I (List.Forall₂ P xs) := by
  induction xs with
  | nil => exact .nil
  | cons x xs ih =>
    refine (h x List.mem_cons_self).bind fun y hy => ?_
    exact (ih fun z hz => h z (List.mem_cons_of_mem x hz)).bind fun ys hys => .cons hy hys

/-- An uninterrupted run keeps the invariant. -/
theorem Upholds.exec {p : Prog ε σ α} (h : p.Upholds I Q) {s : σ} (hs : I s) : I (p.exec s) := by
  unfold Prog.exec
  induction p generalizing s with
  | ret a => exact hs
  | fail e => exact hs
  | read c ih => exact ih s (h s hs) hs
  | modify f c ih => exact ih h.2 (h.1 s hs)
  | write f c ih => exact ih (some s) (h.2.1 s hs) (h.1 s hs)

/-- One command upholds the invariant and leaves a program that does. -/
theorem Upholds.step {p : Prog ε σ α} {s : σ} (h : p.Upholds I Q) (hs : I s) :
    I (p.step s).2 ∧ (p.step s).1.Upholds I Q := by
  cases p with
  | ret a => exact ⟨hs, h⟩
  | fail e => exact ⟨hs, h⟩
  | read c => exact ⟨hs, h s hs⟩
  | modify f c => exact ⟨h.1 s hs, h.2⟩
  | write f c => exact ⟨h.1 s hs, h.2.1 s hs⟩

end Rules

end Prog

/-- Whatever the order of the commands, the invariant holds and every result is as promised. -/
theorem Pool.upholds [DecidableEq ι] {I : σ → Prop} {Q : ι → α → Prop} {pool : Pool ι ε σ α}
    (hstate : I pool.state) (hprogs : ∀ i, (pool.progs i).Upholds I (Q i)) (schedule : List ι) :
    I (pool.runs schedule).state ∧ ∀ i, ((pool.runs schedule).progs i).Upholds I (Q i) := by
  induction schedule generalizing pool with
  | nil => exact ⟨hstate, hprogs⟩
  | cons i schedule ih =>
    obtain ⟨hstate', hprog⟩ := (hprogs i).step hstate
    refine @ih (pool.step i) hstate' fun j => ?_
    by_cases hj : j = i
    · subst hj
      simpa [Pool.step] using hprog
    · simpa [Pool.step, hj] using hprogs j

end Stateful
