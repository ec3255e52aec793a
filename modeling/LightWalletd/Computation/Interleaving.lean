import Mathlib.Data.List.Chain
import LightWalletd.Computation.Prog

/-!
# A reader beside a writer

One party runs programs one after the other and changes the state command by command;
another party only reads, and any number of changes may fall between two of its reads.

* `changes` lists the states that a run goes through, `timeline` those of a sequence of runs;
* `Guarantees G p s` says that every change of a run satisfies the relation `G`;
* `observe` is the outcome of a reader whose reads see the given states.

A reader that reads at the moments `sched 0 ≤ sched 1 ≤ ..` of the timeline of a writer sees
`fun n => stateAt ps s (sched n)`.
-/

set_option autoImplicit false

namespace Stateful

namespace Prog

variable {ε ε' σ α β : Type}

/-! ## Changes -/

/-- The states of a run after each of its changes. -/
def changes : Prog ε σ α → σ → List σ
  | ret _, _ => []
  | fail _, _ => []
  | read k, s => (k s).changes s
  | modify f k, s => f s :: k.changes (f s)
  | write f k, s => f s :: (k (some s)).changes (f s)

/-- A trace is the first state and the changes behind it. -/
theorem trace_eq_cons (p : Prog ε σ α) (s : σ) : p.trace s = s :: p.changes s := by
  induction p generalizing s with
  | ret a => rfl
  | fail e => rfl
  | read k ih => exact ih s s
  | modify f k ih => exact congrArg (s :: ·) (ih (f s))
  | write f k ih => exact congrArg (s :: ·) (ih (some s) (f s))

/-- The changes of a sequence are those of its parts. -/
theorem changes_bind_of_ok {p : Prog ε σ α} {s s' : σ} {a : α} (h : p.run s = (.ok a, s'))
    (f : α → Prog ε σ β) : (p.bind f).changes s = p.changes s ++ (f a).changes s' := by
  induction p generalizing s with
  | ret b =>
    cases h
    rfl
  | fail e => cases h
  | read k ih => exact ih s h
  | modify g k ih => exact congrArg (g s :: ·) (ih h)
  | write g k ih => exact congrArg (g s :: ·) (ih (some s) h)

/-- An attempt changes the state as the program does. -/
theorem changes_attempt (p : Prog ε σ α) (s : σ) : p.attempt.changes s = p.changes s := by
  induction p generalizing s with
  | ret a => rfl
  | fail e => rfl
  | read k ih => exact ih s s
  | modify f k ih => exact congrArg (f s :: ·) (ih (f s))
  | write f k ih => exact congrArg (f s :: ·) (ih (some s) (f s))

/-- The last state of a run. -/
theorem getLast?_changes (p : Prog ε σ α) (s : σ) :
    (s :: p.changes s).getLast? = some (p.exec s) := by
  induction p generalizing s with
  | ret a => rfl
  | fail e => rfl
  | read k ih => exact ih s s
  | modify f k ih =>
    rw [changes, List.getLast?_cons_cons]
    exact ih (f s)
  | write f k ih =>
    rw [changes, List.getLast?_cons_cons]
    exact ih (some s) (f s)

/-! ## Guarantees -/

/-- Every change that `p` makes when it starts in `s` satisfies `G`. -/
def Guarantees (G : σ → σ → Prop) (p : Prog ε σ α) (s : σ) : Prop := (s :: p.changes s).IsChain G

section Guarantees

variable {G : σ → σ → Prop} {I : σ → Prop}

/-- A return changes nothing, so it guarantees everything. -/
theorem guarantees_ret (a : α) (s : σ) : (ret a : Prog ε σ α).Guarantees G s :=
  List.isChain_singleton s

/-- A chain of changes followed by another that starts where it ends. -/
theorem isChain_append_changes {xs ys : List σ} {s : σ} (hxs : xs.IsChain G)
    (hlast : xs.getLast? = some s) (hys : (s :: ys).IsChain G) : (xs ++ ys).IsChain G := by
  refine List.isChain_append.mpr ⟨hxs, hys.tail, fun x hx y hy => ?_⟩
  rw [hlast] at hx
  cases hx
  cases ys with
  | nil => cases hy
  | cons z zs =>
    cases hy
    exact hys.rel

/-- A guarantee of a bind is one of both parts, the second from where the first one ends. -/
theorem Guarantees.bind {p : Prog ε σ α} {f : α → Prog ε σ β} {s s' : σ} {a : α}
    (hp : p.Guarantees G s) (hok : p.run s = (.ok a, s')) (hf : (f a).Guarantees G s') :
    (p.bind f).Guarantees G s := by
  have hlast := p.getLast?_changes s
  have hexec : p.exec s = s' := by
    unfold exec
    rw [hok]
  rw [hexec] at hlast
  unfold Guarantees
  rw [changes_bind_of_ok hok]
  exact isChain_append_changes hp hlast hf

/-- A program all of whose states satisfy `I`. -/
theorem Keeps.guarantees {p : Prog ε σ α} {s : σ} (hp : p.Keeps I) (hs : I s)
    (hG : ∀ t t', I t → I t' → G t t') : p.Guarantees G s := by
  unfold Guarantees
  rw [← trace_eq_cons]
  exact (List.pairwise_of_forall_mem_list fun t ht t' ht' =>
    hG t t' (hp s hs t ht) (hp s hs t' ht')).isChain

/-- A guarantee may be weakened. -/
theorem Guarantees.mono {G' : σ → σ → Prop} {p : Prog ε σ α} {s : σ} (hp : p.Guarantees G s)
    (h : ∀ t t', G t t' → G' t t') : p.Guarantees G' s :=
  List.IsChain.imp h hp

end Guarantees

/-! ## Timelines -/

/-- The changes of programs that run one after the other. -/
def changesOf : List (Prog ε σ Unit) → σ → List σ
  | [], _ => []
  | p :: ps, s => p.changes s ++ changesOf ps (p.exec s)

/-- The states between the programs, the first and the last one included. -/
def boundaries : List (Prog ε σ Unit) → σ → List σ
  | [], s => [s]
  | p :: ps, s => s :: boundaries ps (p.exec s)

/-- The state after all programs. -/
def execAll : List (Prog ε σ Unit) → σ → σ
  | [], s => s
  | p :: ps, s => execAll ps (p.exec s)

/-- All states of the programs, in order. -/
def timeline (ps : List (Prog ε σ Unit)) (s : σ) : List σ := s :: changesOf ps s

/-- The state at moment `n`; the last state lasts. -/
def stateAt (ps : List (Prog ε σ Unit)) (s : σ) (n : ℕ) : σ :=
  (timeline ps s).getD n (execAll ps s)

/-- The timeline of some calls ends where running them all does. -/
theorem getLast?_timeline (ps : List (Prog ε σ Unit)) (s : σ) :
    (timeline ps s).getLast? = some (execAll ps s) := by
  unfold timeline
  induction ps generalizing s with
  | nil => rfl
  | cons p ps ih =>
    have hlast := p.getLast?_changes s
    have hrest := ih (p.exec s)
    show (s :: (p.changes s ++ changesOf ps (p.exec s))).getLast? = some (execAll ps (p.exec s))
    rw [← List.cons_append, List.getLast?_append, hlast, ← hrest]
    cases changesOf ps (p.exec s) with
    | nil => rfl
    | cons t ts =>
      rw [List.getLast?_cons_cons]
      cases hts : (t :: ts).getLast? with
      | none => exact absurd (List.getLast?_eq_none_iff.mp hts) (List.cons_ne_nil _ _)
      | some last => rfl

/-- In a timeline whose changes satisfy `G`, the states of neighbouring moments do, when the
last state does with itself. -/
theorem stateAt_rel {G : σ → σ → Prop} {ps : List (Prog ε σ Unit)} {s : σ}
    (h : (timeline ps s).IsChain G) (hlast : G (execAll ps s) (execAll ps s)) (n : ℕ) :
    G (stateAt ps s n) (stateAt ps s (n + 1)) := by
  unfold stateAt
  have hend := getLast?_timeline ps s
  rw [List.getLast?_eq_getElem?] at hend
  rw [List.getD_eq_getElem?_getD, List.getD_eq_getElem?_getD]
  by_cases hn : n + 1 < (timeline ps s).length
  · rw [List.getElem?_eq_getElem hn, List.getElem?_eq_getElem (by omega)]
    exact List.isChain_iff_getElem.mp h n hn
  · rw [List.getElem?_eq_none (show (timeline ps s).length ≤ n + 1 by omega)]
    by_cases heq : n = (timeline ps s).length - 1
    · rw [heq, hend]
      exact hlast
    · rw [List.getElem?_eq_none (by omega)]
      exact hlast

/-! ## Readers -/

/-- The program reads and does nothing else. -/
def ReadOnly : Prog ε σ α → Prop
  | ret _ => True
  | fail _ => True
  | read k => ∀ s, (k s).ReadOnly
  | modify _ _ => False
  | write _ _ => False

/-- The outcome when read number `n` sees the state `seen n`. -/
def observe : Prog ε σ α → (ℕ → σ) → Except ε α
  | ret a, _ => .ok a
  | fail e, _ => .error e
  | read k, seen => (k (seen 0)).observe fun n => seen (n + 1)
  | modify _ k, seen => k.observe seen
  | write _ k, seen => (k (some (seen 0))).observe seen

/-- How many reads that takes. -/
def reads : Prog ε σ α → (ℕ → σ) → ℕ
  | ret _, _ => 0
  | fail _, _ => 0
  | read k, seen => (k (seen 0)).reads (fun n => seen (n + 1)) + 1
  | modify _ k, seen => k.reads seen
  | write _ k, seen => (k (some (seen 0))).reads seen

/-- The second part of a sequence goes on where the reads of the first part end. -/
theorem observe_bind (p : Prog ε σ α) (f : α → Prog ε σ β) (seen : ℕ → σ) :
    (p.bind f).observe seen = match p.observe seen with
      | .ok a => (f a).observe fun n => seen (n + p.reads seen)
      | .error e => .error e := by
  induction p generalizing seen with
  | ret a => rfl
  | fail e => rfl
  | read k ih => exact ih (seen 0) fun n => seen (n + 1)
  | modify g k ih => exact ih seen
  | write g k ih => exact ih (some (seen 0)) seen

/-- An observation of a bind that succeeds is one of both parts, with the later reads for the
second. -/
theorem observe_bind_eq_ok {p : Prog ε σ α} {f : α → Prog ε σ β} {seen : ℕ → σ} {b : β}
    (h : (p.bind f).observe seen = .ok b) :
    ∃ a, p.observe seen = .ok a ∧ (f a).observe (fun n => seen (n + p.reads seen)) = .ok b := by
  rw [observe_bind] at h
  cases hp : p.observe seen with
  | error e =>
    rw [hp] at h
    cases h
  | ok a =>
    rw [hp] at h
    exact ⟨a, rfl, h⟩

/-- The reads of a bind are those of both parts. -/
theorem reads_bind_of_ok {p : Prog ε σ α} {seen : ℕ → σ} {a : α} (h : p.observe seen = .ok a)
    (f : α → Prog ε σ β) :
    (p.bind f).reads seen = (f a).reads (fun n => seen (n + p.reads seen)) + p.reads seen := by
  induction p generalizing seen with
  | ret a' =>
    cases h
    rfl
  | fail e => cases h
  | read k ih => exact congrArg (· + 1) (ih (seen 0) h)
  | modify g k ih => exact ih h
  | write g k ih => exact ih (some (seen 0)) h

/-- An attempt observes the outcome of the program. -/
theorem observe_attempt (p : Prog ε σ α) (seen : ℕ → σ) :
    p.attempt.observe seen = .ok (p.observe seen) := by
  induction p generalizing seen with
  | ret a => rfl
  | fail e => rfl
  | read k ih => exact ih (seen 0) fun n => seen (n + 1)
  | modify g k ih => exact ih seen
  | write g k ih => exact ih (some (seen 0)) seen

/-- An attempt reads as often as the program. -/
theorem reads_attempt (p : Prog ε σ α) (seen : ℕ → σ) : p.attempt.reads seen = p.reads seen := by
  induction p generalizing seen with
  | ret a => rfl
  | fail e => rfl
  | read k ih => exact congrArg (· + 1) (ih (seen 0) fun n => seen (n + 1))
  | modify g k ih => exact ih seen
  | write g k ih => exact ih (some (seen 0)) seen

/-- Programs that only read do so one after the other. -/
theorem ReadOnly.bind {p : Prog ε σ α} {f : α → Prog ε σ β} (hp : p.ReadOnly)
    (hf : ∀ a, (f a).ReadOnly) : (p.bind f).ReadOnly := by
  induction p with
  | ret a => exact hf a
  | fail e => trivial
  | read k ih => exact fun s => ih s (hp s)
  | modify g k ih => exact hp.elim
  | write g k ih => exact hp.elim

/-- A program that only reads keeps every property. -/
theorem ReadOnly.keeps {I : σ → Prop} {p : Prog ε σ α} (hp : p.ReadOnly) : p.Keeps I := by
  induction p with
  | ret a => exact keeps_ret a
  | fail e => exact keeps_fail e
  | read k ih => exact fun s hs => ih s (hp s) s hs
  | modify g k ih => exact hp.elim
  | write g k ih => exact hp.elim

/-- Report errors as those of another type. -/
def mapError (g : ε → ε') : Prog ε σ α → Prog ε' σ α
  | ret a => ret a
  | fail e => fail (g e)
  | read k => read fun s => (k s).mapError g
  | modify f k => modify f (k.mapError g)
  | write f k => write f fun r => (k r).mapError g

/-- A translation of errors changes the outcome only. -/
theorem run_mapError (g : ε → ε') (p : Prog ε σ α) (s : σ) :
    (p.mapError g).run s = ((p.run s).1.mapError g, (p.run s).2) := by
  induction p generalizing s with
  | ret a => rfl
  | fail e => rfl
  | read k ih => exact ih s s
  | modify f k ih => exact ih (f s)
  | write f k ih => exact ih (some s) (f s)

/-- A translation of errors does not change where a run ends. -/
theorem exec_mapError (g : ε → ε') (p : Prog ε σ α) (s : σ) : (p.mapError g).exec s = p.exec s :=
  congrArg Prod.snd (run_mapError g p s)

/-- A translation of errors does not change the states on the way. -/
theorem trace_mapError (g : ε → ε') (p : Prog ε σ α) (s : σ) :
    (p.mapError g).trace s = p.trace s := by
  induction p generalizing s with
  | ret a => rfl
  | fail e => rfl
  | read k ih => exact ih s s
  | modify f k ih => exact congrArg (s :: ·) (ih (f s))
  | write f k ih => exact congrArg (s :: ·) (ih (some s) (f s))

/-- A translation of errors keeps what the program does. -/
theorem Keeps.mapError {I : σ → Prop} {p : Prog ε σ α} (hp : p.Keeps I) (g : ε → ε') :
    (p.mapError g).Keeps I := by
  intro s hs t ht
  rw [trace_mapError] at ht
  exact hp s hs t ht

/-- A run that succeeds is not affected by a translation of errors. -/
theorem run_mapError_of_ok {g : ε → ε'} {p : Prog ε σ α} {s s' : σ} {a : α}
    (h : p.run s = (.ok a, s')) : (p.mapError g).run s = (.ok a, s') := by
  rw [run_mapError, h]
  rfl

/-- Observations translate their errors. -/
theorem observe_mapError (g : ε → ε') (p : Prog ε σ α) (seen : ℕ → σ) :
    (p.mapError g).observe seen = (p.observe seen).mapError g := by
  induction p generalizing seen with
  | ret a => rfl
  | fail e => rfl
  | read k ih => exact ih (seen 0) fun n => seen (n + 1)
  | modify f k ih => exact ih seen
  | write f k ih => exact ih (some (seen 0)) seen

/-- An observation that succeeds does so without the translation of errors. -/
theorem observe_of_mapError_eq_ok {g : ε → ε'} {p : Prog ε σ α} {seen : ℕ → σ} {a : α}
    (h : (p.mapError g).observe seen = .ok a) : p.observe seen = .ok a := by
  rw [observe_mapError] at h
  cases hp : p.observe seen with
  | error e =>
    rw [hp] at h
    cases h
  | ok b =>
    rw [hp] at h
    cases h
    rfl

/-- A translation of errors adds no reads. -/
theorem reads_mapError (g : ε → ε') (p : Prog ε σ α) (seen : ℕ → σ) :
    (p.mapError g).reads seen = p.reads seen := by
  induction p generalizing seen with
  | ret a => rfl
  | fail e => rfl
  | read k ih => exact congrArg (· + 1) (ih (seen 0) fun n => seen (n + 1))
  | modify f k ih => exact ih seen
  | write f k ih => exact ih (some (seen 0)) seen

/-! ## Undisturbed readers -/

/-- An attempt of a program that only reads does so too. -/
theorem ReadOnly.attempt {p : Prog ε σ α} (hp : p.ReadOnly) : p.attempt.ReadOnly := by
  induction p with
  | ret a => trivial
  | fail e => trivial
  | read k ih => exact fun s => ih s (hp s)
  | modify f k ih => exact hp.elim
  | write f k ih => exact hp.elim

/-- A translation of errors does not write. -/
theorem ReadOnly.mapError {p : Prog ε σ α} (hp : p.ReadOnly) (g : ε → ε') :
    (p.mapError g).ReadOnly := by
  induction p with
  | ret a => trivial
  | fail e => trivial
  | read k ih => exact fun s => ih s (hp s)
  | modify f k ih => exact hp.elim
  | write f k ih => exact hp.elim

/-- A step of a program that only reads leaves the state, and a program that only reads. -/
theorem ReadOnly.step {p : Prog ε σ α} (hp : p.ReadOnly) (s : σ) :
    (p.step s).1.ReadOnly ∧ (p.step s).2 = s := by
  cases p with
  | ret a => exact ⟨trivial, rfl⟩
  | fail e => exact ⟨trivial, rfl⟩
  | read k => exact ⟨hp s, rfl⟩
  | modify f k => exact hp.elim
  | write f k => exact hp.elim

/-- A reader that runs alone sees one state. -/
theorem ReadOnly.run_eq {p : Prog ε σ α} (hp : p.ReadOnly) (s : σ) :
    p.run s = (p.observe fun _ => s, s) := by
  induction p with
  | ret a => rfl
  | fail e => rfl
  | read k ih => exact ih s (hp s)
  | modify f k ih => exact hp.elim
  | write f k ih => exact hp.elim

end Prog

end Stateful
