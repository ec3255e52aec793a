import Mathlib.Logic.Relation
import LightWalletd.Computation.Interleaving

/-!
# Programs on related states

Two programs are related when from related states they end in related states, with related results
or with the same error. The relation of a program to itself says what its result cannot depend on;
between two programs it is a simulation. There is one rule for each command, and sequencing asks
only that related results are continued by related programs.

A relation may also be between the first and the last state of one program: then it says what can
have changed.
-/

set_option autoImplicit false

namespace Stateful

/-- Related results, or one error. -/
inductive SameOutcome {ε α β : Type} (V : α → β → Prop) : Except ε α → Except ε β → Prop
  | ok {a : α} {b : β} : V a b → SameOutcome V (.ok a) (.ok b)
  | error (e : ε) : SameOutcome V (.error e) (.error e)

namespace SameOutcome

variable {ε α β : Type} {V W : α → β → Prop}

/-- A relation between outcomes may be weakened. -/
theorem mono {r : Except ε α} {r' : Except ε β} (hVW : ∀ a b, V a b → W a b)
    (h : SameOutcome V r r') : SameOutcome W r r' := by
  cases h with
  | ok h => exact .ok (hVW _ _ h)
  | error e => exact .error e

/-- An outcome is related to itself when all values are. -/
theorem refl {V : α → α → Prop} (hV : ∀ a, V a a) (r : Except ε α) : SameOutcome V r r := by
  cases r with
  | ok a => exact .ok (hV a)
  | error e => exact .error e

/-- Outcomes stay related when their errors are translated alike. -/
theorem mapError {ε' : Type} (f : ε → ε') {r : Except ε α} {r' : Except ε β}
    (h : SameOutcome V r r') : SameOutcome V (r.mapError f) (r'.mapError f) := by
  cases h with
  | ok h => exact .ok h
  | error e => exact .error (f e)

/-- Related by equality means equal. -/
@[simp] theorem eq_iff {r r' : Except ε α} : SameOutcome Eq r r' ↔ r = r' := by
  constructor
  · intro h
    cases h with
    | ok h => simp [h]
    | error e => simp
  · intro h
    simp [h, refl]

end SameOutcome

namespace Prog

variable {ε ε' σ τ α β γ δ : Type}

/-- From states in `R` the programs end in states in `R`, with results in `V` or one error. -/
def Relates (R : σ → τ → Prop) (V : α → β → Prop) (p : Prog ε σ α) (q : Prog ε τ β) : Prop :=
  ∀ s t, R s t → SameOutcome V (p.run s).1 (q.run t).1 ∧ R (p.run s).2 (q.run t).2

section Rules

variable {R : σ → τ → Prop} {V : α → β → Prop} {W : γ → δ → Prop}

/-- Returns of related values are related. -/
theorem relates_ret {a : α} {b : β} (h : V a b) :
    (ret a : Prog ε σ α).Relates R V (ret b : Prog ε τ β) :=
  fun _ _ hR => ⟨.ok h, hR⟩

/-- Equal failures are related. -/
theorem relates_fail (e : ε) : (fail e : Prog ε σ α).Relates R V (fail e : Prog ε τ β) :=
  fun _ _ hR => ⟨.error e, hR⟩

/-- Reads of related values are related. -/
theorem relates_get {f : σ → α} {g : τ → β} (h : ∀ s t, R s t → V (f s) (g t)) :
    (get f : Prog ε σ α).Relates R V (get g) :=
  fun s t hR => ⟨.ok (h s t hR), hR⟩

namespace Relates

variable {p : Prog ε σ α} {q : Prog ε τ β}

/-- The relation between results may be weakened. -/
theorem mono {V' : α → β → Prop} (h : p.Relates R V q) (hV : ∀ a b, V a b → V' a b) :
    p.Relates R V' q :=
  fun s t hR => ⟨(h s t hR).1.mono hV, (h s t hR).2⟩

/-- A pair of programs that leave their states is given by its results. -/
theorem of_runs (h : ∀ s t, R s t → ∃ r r', p.run s = (r, s) ∧ q.run t = (r', t) ∧
    SameOutcome V r r') : p.Relates R V q := by
  intro s t hR
  obtain ⟨r, r', hp, hq, hsame⟩ := h s t hR
  simp [hp, hq, hsame, hR]

/-- Related programs may be sequenced. -/
theorem bind {f : α → Prog ε σ γ} {g : β → Prog ε τ δ} (h : p.Relates R V q)
    (hfg : ∀ a b, V a b → (f a).Relates R W (g b)) : (p.bind f).Relates R W (q.bind g) := by
  intro s t hR
  obtain ⟨hsame, hR'⟩ := h s t hR
  rcases hp : p.run s with ⟨r, s'⟩
  rcases hq : q.run t with ⟨r', t'⟩
  rw [hp, hq] at hsame hR'
  rw [run_bind, run_bind, hp, hq]
  cases hsame with
  | ok hV => exact hfg _ _ hV s' t' hR'
  | error e => exact ⟨.error e, hR'⟩

/-- Attempts of related programs are related. -/
theorem attempt (h : p.Relates R V q) : p.attempt.Relates R (SameOutcome V) q.attempt := by
  intro s t hR
  simpa [run_attempt] using ⟨SameOutcome.ok (ε := ε) (h s t hR).1, (h s t hR).2⟩

/-- Translating errors alike keeps programs related. -/
theorem mapError (f : ε → ε') (h : p.Relates R V q) :
    (p.mapError f).Relates R V (q.mapError f) := by
  intro s t hR
  simpa [run_mapError] using ⟨(h s t hR).1.mapError f, (h s t hR).2⟩

/-- Equal results are continued alike. -/
theorem bind_eq {p : Prog ε σ α} {q : Prog ε τ α} {f : α → Prog ε σ γ} {g : α → Prog ε τ δ}
    (h : p.Relates R Eq q) (hfg : ∀ a, (f a).Relates R W (g a)) :
    (p.bind f).Relates R W (q.bind g) :=
  h.bind fun a _ hab => hab ▸ hfg a

/-- Attempts of programs with equal outcomes have equal outcomes. -/
theorem attempt_eq {p : Prog ε σ α} {q : Prog ε τ α} (h : p.Relates R Eq q) :
    p.attempt.Relates R Eq q.attempt :=
  h.attempt.mono fun _ _ hsame => SameOutcome.eq_iff.mp hsame

/-- From related states, programs related by equality have the same outcome. -/
theorem outcome_eq {p : Prog ε σ α} {q : Prog ε τ α} (h : p.Relates R Eq q) {s : σ} {t : τ}
    (hR : R s t) : (p.run s).1 = (q.run t).1 :=
  SameOutcome.eq_iff.mp (h s t hR).1

/-- A condition on what both sides have in common decides on both alike. -/
theorem ite {c : Prop} [Decidable c] {p' : Prog ε σ α} {q' : Prog ε τ β}
    (h : c → p.Relates R V q) (h' : ¬ c → p'.Relates R V q') :
    (if c then p else p').Relates R V (if c then q else q') := by
  by_cases hc : c
  · simpa [hc] using h hc
  · simpa [hc] using h' hc

end Relates

/-- Loops with related bodies collect related results. -/
theorem relates_mapEach {f : γ → Prog ε σ α} {g : γ → Prog ε τ β} (xs : List γ)
    (h : ∀ x ∈ xs, (f x).Relates R V (g x)) :
    (mapEach f xs).Relates R (List.Forall₂ V) (mapEach g xs) := by
  induction xs with
  | nil => exact relates_ret .nil
  | cons x xs ih =>
    refine (h x (by simp)).bind fun a b hab => ?_
    refine (ih fun y hy => h y (by simp [hy])).bind fun as bs habs => ?_
    exact relates_ret (.cons hab habs)

end Rules

/-! ## First and last states -/

/-- What `view` shows of the state changes by steps of `R`, also when the program fails. -/
def Evolves (view : σ → τ) (R : τ → τ → Prop) (p : Prog ε σ α) : Prop :=
  ∀ s, Relation.ReflTransGen R (view s) (view (p.exec s))

section Evolves

variable {view : σ → τ} {R : τ → τ → Prop} {p : Prog ε σ α}

/-- A program that keeps all of it changes nothing. -/
theorem Keeps.evolves (h : ∀ v, p.Keeps fun s => view s = v) : p.Evolves view R :=
  fun s => by rw [show view (p.exec s) = view s from (h (view s)).exec rfl]

/-- A return evolves nothing. -/
theorem evolves_ret (a : α) : (ret a : Prog ε σ α).Evolves view R := fun _ => .refl

/-- A failure evolves nothing. -/
theorem evolves_fail (e : ε) : (fail e : Prog ε σ α).Evolves view R := fun _ => .refl

/-- A read evolves nothing. -/
theorem evolves_get (f : σ → α) : (get f : Prog ε σ α).Evolves view R := fun _ => .refl

/-- Evolving programs may be sequenced. -/
theorem Evolves.bind {f : α → Prog ε σ β} (hp : p.Evolves view R)
    (hf : ∀ a, (f a).Evolves view R) : (p.bind f).Evolves view R := by
  intro s
  have hfirst := hp s
  unfold exec at hfirst ⊢
  rw [run_bind]
  rcases hrun : p.run s with ⟨r, s'⟩
  rw [hrun] at hfirst
  cases r with
  | error e => exact hfirst
  | ok a => exact hfirst.trans (hf a s')

/-- A translation of errors evolves what the program does. -/
theorem Evolves.mapError (hp : p.Evolves view R) (g : ε → ε') :
    (p.mapError g).Evolves view R := by
  intro s
  rw [exec_mapError]
  exact hp s

/-- A choice evolves what both branches do. -/
theorem Evolves.ite {c : Prop} [Decidable c] {q : Prog ε σ α} (hp : p.Evolves view R)
    (hq : q.Evolves view R) : (if c then p else q).Evolves view R := by
  split_ifs
  · exact hp
  · exact hq

end Evolves

end Prog

end Stateful
