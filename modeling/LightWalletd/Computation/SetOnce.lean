import LightWalletd.Computation.Pool

/-!
# A value that is set once

Some programs of a pool, its members, share a value: each finds it set, or sets it itself.
While it is unset the members are in a state `before`, and once it is `v` they are in a state
`after v`. The one danger is a member that has found the value unset and will still overwrite
it: such a member is exposed, and no member may be exposed when another one sets the value.
-/

set_option autoImplicit false

namespace Stateful

variable {ι ε σ α ν β γ : Type}

namespace Prog

/-- No command of the program changes what `f` selects. -/
def Frames (f : σ → β) : Prog ε σ α → Prop
  | ret _ => True
  | fail _ => True
  | read c => ∀ s, (c s).Frames f
  | modify g c => (∀ s, f (g s) = f s) ∧ c.Frames f
  | write g c => (∀ s, f (g s) = f s) ∧ ∀ r, (c r).Frames f

variable {f : σ → β}

/-- A step of a program that frames a value leaves it. -/
theorem Frames.step {p : Prog ε σ α} (h : p.Frames f) (s : σ) :
    f (p.step s).2 = f s ∧ (p.step s).1.Frames f := by
  cases p with
  | ret a => exact ⟨rfl, h⟩
  | fail e => exact ⟨rfl, h⟩
  | read c => exact ⟨rfl, h s⟩
  | modify g c => exact ⟨h.1 s, h.2⟩
  | write g c => exact ⟨h.1 s, h.2 (some s)⟩

/-- Programs that frame a value do so one after the other. -/
theorem Frames.bind {p : Prog ε σ α} {k : α → Prog ε σ γ} (hp : p.Frames f)
    (hk : ∀ a, (k a).Frames f) : (p.bind k).Frames f := by
  induction p with
  | ret a => exact hk a
  | fail e => trivial
  | read c ih => exact fun s => ih s (hp s)
  | modify g c ih => exact ⟨hp.1, ih hp.2⟩
  | write g c ih => exact ⟨hp.1, fun r => ih r (hp.2 r)⟩

end Prog

/-- What a command of a member does. -/
structure SetOnce (unset : σ → Prop) (holds : ν → σ → Prop) (before : Prog ε σ α → Prop)
    (after : ν → Prog ε σ α → Prop) (exposed : σ → Prog ε σ α → Prop) : Prop where
  first : ∀ s p, unset s → before p → (unset (p.step s).2 ∧ before (p.step s).1) ∨
    (p.isWrite = true ∧ ∃ v, holds v (p.step s).2 ∧ after v (p.step s).1 ∧
      ∀ q, before q → ¬ exposed s q → after v q)
  later : ∀ v s p, holds v s → after v p → holds v (p.step s).2 ∧ after v (p.step s).1

/-- Either no member has set the value, or all members go by the one that is set. -/
def Agreed (unset : σ → Prop) (holds : ν → σ → Prop) (before : Prog ε σ α → Prop)
    (after : ν → Prog ε σ α → Prop) (member : ι → Prop) (pool : Pool ι ε σ α) : Prop :=
  (unset pool.state ∧ ∀ i, member i → before (pool.progs i)) ∨
    ∃ v, holds v pool.state ∧ ∀ i, member i → after v (pool.progs i)

section Agreed

variable [DecidableEq ι] {unset : σ → Prop} {holds : ν → σ → Prop} {before : Prog ε σ α → Prop}
  {after : ν → Prog ε σ α → Prop} {exposed : σ → Prog ε σ α → Prop} {member : ι → Prop}
  {pool : Pool ι ε σ α} {i : ι}

/-- A step of a member, made while no other member is exposed if it is a write. -/
theorem Agreed.step_member (hset : SetOnce unset holds before after exposed)
    (h : Agreed unset holds before after member pool) (hi : member i)
    (hclosed : (pool.progs i).isWrite = true →
      ∀ j, j ≠ i → member j → ¬ exposed pool.state (pool.progs j)) :
    Agreed unset holds before after member (pool.step i) := by
  rcases h with ⟨hunset, hbefore⟩ | ⟨v, hholds, hafter⟩
  · rcases hset.first pool.state _ hunset (hbefore i hi) with ⟨hunset', hbefore'⟩ | ⟨hwrite, hv⟩
    · refine Or.inl ⟨hunset', fun j hj => ?_⟩
      by_cases hji : j = i
      · subst hji
        simpa [Pool.step] using hbefore'
      · simpa [Pool.step, hji] using hbefore j hj
    · obtain ⟨v, hholds, hafter, hothers⟩ := hv
      refine Or.inr ⟨v, hholds, fun j hj => ?_⟩
      by_cases hji : j = i
      · subst hji
        simpa [Pool.step] using hafter
      · simpa [Pool.step, hji] using hothers _ (hbefore j hj) (hclosed hwrite j hji hj)
  · obtain ⟨hholds', hafter'⟩ := hset.later v pool.state _ hholds (hafter i hi)
    refine Or.inr ⟨v, hholds', fun j hj => ?_⟩
    by_cases hji : j = i
    · subst hji
      simpa [Pool.step] using hafter'
    · simpa [Pool.step, hji] using hafter j hj

/-- A step of another program, which does not touch the value. -/
theorem Agreed.step_other (h : Agreed unset holds before after member pool) (hi : ¬ member i)
    (hunset : unset pool.state → unset (pool.step i).state)
    (hholds : ∀ v, holds v pool.state → holds v (pool.step i).state) :
    Agreed unset holds before after member (pool.step i) := by
  have hprogs : ∀ j, member j → (pool.step i).progs j = pool.progs j := by
    intro j hj
    have hji : j ≠ i := fun heq => hi (heq ▸ hj)
    simp [Pool.step, hji]
  rcases h with ⟨hun, hbefore⟩ | ⟨v, hv, hafter⟩
  · refine Or.inl ⟨hunset hun, fun j hj => ?_⟩
    rw [hprogs j hj]
    exact hbefore j hj
  · refine Or.inr ⟨v, hholds v hv, fun j hj => ?_⟩
    rw [hprogs j hj]
    exact hafter j hj

end Agreed

end Stateful
