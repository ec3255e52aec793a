import LightWalletd.Computation.Prog
import Mathlib.Logic.Relation

/-!
# Programs that may be cut off

A run may stop after any of its changes. What it leaves is then one of the states of its `trace`,
and whoever owns the program starts it again on what survives the stop. A `CrashSpec` says of a
program, from where it may be started, where a run ends and what holds wherever it is cut off. The
rules follow the commands; `CrashSpec.after_cutRuns` is the rule of recovery: where every state
that a cut may leave is one to start from, any number of cut runs may come before the one that ends.
-/

set_option autoImplicit false

namespace Stateful

namespace Prog

variable {ε σ α β : Type}

/-- Started where `P` holds, a run of `p` passes only through states where `C` holds, and it ends
without error where `Q` holds. -/
def CrashSpec (P : σ → Prop) (p : Prog ε σ α) (Q : α → σ → Prop) (C : σ → Prop) : Prop :=
  ∀ s, P s → (∀ t ∈ p.trace s, C t) ∧ ∃ a s', p.run s = (.ok a, s') ∧ Q a s'

namespace CrashSpec

variable {P : σ → Prop} {Q : α → σ → Prop} {R : β → σ → Prop} {C : σ → Prop}

/-- A spec may be shown from one state at a time. -/
theorem of_forall {p : Prog ε σ α} (h : ∀ s, P s → CrashSpec (· = s) p Q C) :
    CrashSpec P p Q C := fun s hs => h s hs s rfl

/-- A specification may ask for more and promise less; what holds at a crash stays. -/
theorem mono {p : Prog ε σ α} {P' : σ → Prop} {Q' : α → σ → Prop} (h : CrashSpec P p Q C)
    (hP : ∀ s, P' s → P s) (hQ : ∀ a s, Q a s → Q' a s) : CrashSpec P' p Q' C := by
  intro s hs
  obtain ⟨htrace, a, s', hrun, hpost⟩ := h s (hP s hs)
  exact ⟨htrace, a, s', hrun, hQ a s' hpost⟩

/-! ## Commands -/

/-- A return is never cut within. -/
theorem ret {a : α} (h : ∀ s, P s → C s ∧ Q a s) : CrashSpec P (ret a : Prog ε σ α) Q C := by
  intro s hs
  refine ⟨?_, a, s, rfl, (h s hs).2⟩
  intro t ht
  rw [List.mem_singleton.mp ht]
  exact (h s hs).1

/-- A read continues with what it saw. -/
theorem read {f : σ → α} {k : α → Prog ε σ β} {s : σ} (h : CrashSpec (· = s) (k (f s)) R C) :
    CrashSpec (· = s) ((get f).bind k) R C := by
  rintro t rfl
  exact h t rfl

/-- A write may be cut off, or its run be cut off after it. -/
theorem put {e : ε} {f : σ → σ} {s : σ} (hs : C s) (h : C (f s)) :
    CrashSpec (· = s) (put e f) (fun _ t => t = f s) C := by
  rintro t rfl
  refine ⟨?_, (), f t, rfl, rfl⟩
  intro u hu
  simp only [Prog.put, trace, List.mem_cons, List.not_mem_nil, or_false] at hu
  obtain rfl | rfl := hu
  · exact hs
  · exact h

/-! ## Sequencing -/

/-- The continuation starts where the first part ends. -/
theorem bind {p : Prog ε σ α} {f : α → Prog ε σ β} (hp : CrashSpec P p Q C)
    (hf : ∀ a, CrashSpec (Q a) (f a) R C) : CrashSpec P (p.bind f) R C := by
  intro s hs
  obtain ⟨htrace, a, s', hrun, hpost⟩ := hp s hs
  obtain ⟨htrace', b, s'', hrun', hpost'⟩ := hf a s' hpost
  refine ⟨?_, b, s'', ?_, hpost'⟩
  · intro t ht
    obtain ht | ⟨a₁, s₁, hrun₁, ht⟩ := mem_trace_bind ht
    · exact htrace t ht
    · rw [hrun] at hrun₁
      cases hrun₁
      exact htrace' t ht
  · rw [run_bind_of_ok hrun, hrun']

/-- A loop whose body takes the invariant of what is left to do from one element to the next. -/
theorem forEach {f : β → Prog ε σ Unit} {J : List β → σ → Prop} (hC : ∀ s, J [] s → C s)
    (hf : ∀ x xs, CrashSpec (J (x :: xs)) (f x) (fun _ => J xs) C) (xs : List β) :
    CrashSpec (J xs) (forEach f xs) (fun _ => J []) C := by
  induction xs with
  | nil => exact ret fun s hs => ⟨hC s hs, hs⟩
  | cons x xs ih => exact (hf x xs).bind fun _ => ih

end CrashSpec

/-! ## Recovery -/

section Recovery

variable (p : Prog ε σ α) (reboot : σ → σ)

/-- A run that is cut off, and what is left of its last state. -/
def CutRun (s t : σ) : Prop := ∃ u ∈ p.trace s, t = reboot u

/-- Runs that are cut off one after the other. -/
def CutRuns : σ → σ → Prop := Relation.ReflTransGen (CutRun p reboot)

variable {p reboot} {P : σ → Prop} {Q : α → σ → Prop} {C : σ → Prop}

/-- What holds before a run and comes back after every restart holds after any number of cut runs.
-/
theorem CrashSpec.cutRuns (h : CrashSpec P p Q C) (hreboot : ∀ s, C s → P (reboot s)) {s t : σ}
    (hcut : CutRuns p reboot s t) (hs : P s) : P t := by
  induction hcut with
  | refl => exact hs
  | tail _ hcut ih =>
    obtain ⟨u, hu, rfl⟩ := hcut
    exact hreboot u ((h _ ih).1 u hu)

/-- A run that ends does the same whatever runs were cut off before it. -/
theorem CrashSpec.after_cutRuns (h : CrashSpec P p Q C) (hreboot : ∀ s, C s → P (reboot s))
    {s t : σ} (hcut : CutRuns p reboot s t) (hs : P s) : ∃ a t', p.run t = (.ok a, t') ∧ Q a t' :=
  (h t (h.cutRuns hreboot hcut hs)).2

end Recovery

end Prog

end Stateful
