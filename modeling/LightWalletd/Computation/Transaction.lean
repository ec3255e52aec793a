import Mathlib.Data.List.Induction
import LightWalletd.Computation.Pool

/-!
# Transactions

A transaction reads the part of the state that belongs to its key, decides what to write, and
then makes its writes. Between the reading and the first write other programs may change what
it has read. A run in which they do not is calm, and a calm run of transactions shows what the
transactions leave and return one after the other, in the order in which they take effect:
at the first write, or at the reading that finds nothing to write.
-/

set_option autoImplicit false

namespace Stateful

variable {ι ε σ α κ V : Type}

/-- The value after the writes. -/
def applyAll (ws : List (V → V)) (v : V) : V := ws.foldl (fun v w => w v) v

/-- Two lists of writes are applied one after the other. -/
theorem applyAll_append (ws ws' : List (V → V)) (v : V) :
    applyAll (ws ++ ws') v = applyAll ws' (applyAll ws v) := List.foldl_append ..

section Programs

variable [DecidableEq κ] (view : κ → σ → V) (I : σ → Prop)

/-- `f` changes the view of `k` by `w` and no other view, and keeps the invariant. -/
structure Acts (k : κ) (f : σ → σ) (w : V → V) : Prop where
  keeps : ∀ s, I s → I (f s)
  view : ∀ s k', view k' (f s) = if k' = k then w (view k' s) else view k' s

/-- The program makes the writes and ends with `r`. -/
def Performs (k : κ) (r : Except ε α) : List (V → V) → Prog ε σ α → Prop
  | [], p => p = .ended r
  | w :: ws, p => ∃ f c, p = .write f c ∧ Acts view I k f w ∧ ∀ s, Performs k r ws (c (some s))

/-- The program reads and changes no view, until it makes the decision `d` on the view of `k`
that it sees then. -/
def Prepares (k : κ) (d : V → List (V → V) × Except ε α) : Prog ε σ α → Prop
  | .ret a => ∀ v, d v = ([], .ok a)
  | .fail e => ∀ v, d v = ([], .error e)
  | .read c => ∀ s, I s →
      Prepares k d (c s) ∨ Performs view I k (d (view k s)).2 (d (view k s)).1 (c s)
  | .modify f c => Acts view I k f id ∧ Prepares k d c
  | .write _ _ => False

/-- A write that changes no decision of a program with key `k` and that `G` allows. -/
structure Trailing (G : κ → V → V → Prop) (key : ι → κ) (d : ι → V → List (V → V) × Except ε α)
    (k : κ) (w : V → V) : Prop where
  inert : ∀ j v, key j = k → d j (w v) = d j v
  grows : ∀ v, G k v (w v)

/-- Programs that prepare and perform decisions on the view of their key. The first write of a
decision takes a view to one that is `G`-greater, the others are trailing. -/
structure Transactional (G : κ → V → V → Prop) (key : ι → κ)
    (d : ι → V → List (V → V) × Except ε α) (progs : ι → Prog ε σ α) : Prop where
  prepares : ∀ i, Prepares view I (key i) (d i) (progs i)
  first : ∀ i v w ws, (d i v).1 = w :: ws → G (key i) v (w v)
  trailing : ∀ i v w ws, (d i v).1 = w :: ws → ∀ w' ∈ ws, Trailing G key d (key i) w'

/-- The program changes no view and ends with a value that satisfies `Q`. -/
def Quiet (Q : α → Prop) : Prog ε σ α → Prop
  | .ret a => Q a
  | .fail _ => False
  | .read c => ∀ s, I s → Quiet Q (c s)
  | .modify f c => (∀ k, Acts view I k f id) ∧ Quiet Q c
  | .write _ _ => False

end Programs

section Quiet

variable [DecidableEq κ] {view : κ → σ → V} {I : σ → Prop} {β : Type} {Q : α → Prop}

/-- Quiet programs are quiet one after the other. -/
theorem Quiet.bind {R : β → Prop} {p : Prog ε σ α} {f : α → Prog ε σ β}
    (hp : Quiet view I Q p) (hf : ∀ a, Q a → Quiet view I R (f a)) :
    Quiet view I R (p.bind f) := by
  induction p with
  | ret a => exact hf a hp
  | fail e => exact hp.elim
  | read c ih => exact fun s hs => ih s (hp s hs)
  | modify g c ih => exact ⟨hp.1, ih hp.2⟩
  | write g c => exact hp.elim

/-- An attempt of a quiet program is quiet and succeeds. -/
theorem Quiet.attempt {p : Prog ε σ α} (hp : Quiet view I Q p) :
    Quiet view I (fun r => ∃ a, r = .ok a ∧ Q a) p.attempt := by
  induction p with
  | ret a => exact ⟨a, rfl, hp⟩
  | fail e => exact hp.elim
  | read c ih => exact fun s hs => ih s (hp s hs)
  | modify g c ih => exact ⟨hp.1, ih hp.2⟩
  | write g c => exact hp.elim

/-- A quiet program may come before the decision. -/
theorem Quiet.prepares {k : κ} {d : V → List (V → V) × Except ε β} {p : Prog ε σ α}
    {f : α → Prog ε σ β} (hp : Quiet view I Q p) (hf : ∀ a, Q a → Prepares view I k d (f a)) :
    Prepares view I k d (p.bind f) := by
  induction p with
  | ret a => exact hf a hp
  | fail e => exact hp.elim
  | read c ih => exact fun s hs => Or.inl (ih s (hp s hs))
  | modify g c ih => exact ⟨hp.1 k, ih hp.2⟩
  | write g c => exact hp.elim

end Quiet

/-! ## One after the other -/

section Serial

variable [DecidableEq κ] {view : κ → σ → V} {I : σ → Prop} {k : κ}

/-- A run of what performs some writes ends with its result and has applied them to its key alone.
-/
theorem Performs.run {r : Except ε α} {ws : List (V → V)} {p : Prog ε σ α} {s : σ}
    (h : Performs view I k r ws p) (hs : I s) :
    (p.run s).1 = r ∧ I (p.exec s) ∧
      ∀ k', view k' (p.exec s) = if k' = k then applyAll ws (view k' s) else view k' s := by
  induction ws generalizing p s with
  | nil =>
    subst h
    refine ⟨by simp, by simpa [Prog.exec] using hs, fun k' => ?_⟩
    simp [Prog.exec, applyAll]
  | cons w ws ih =>
    obtain ⟨f, c, rfl, hacts, hrest⟩ := h
    obtain ⟨hr, hI, hview⟩ := ih (hrest s) (hacts.keeps s hs)
    refine ⟨hr, hI, fun k' => (hview k').trans ?_⟩
    rw [hacts.view]
    by_cases hk : k' = k
    · simp [hk, applyAll]
    · simp [hk]

/-- A run makes the decision on the view at its start. -/
theorem Prepares.run {d : V → List (V → V) × Except ε α} {p : Prog ε σ α} {s : σ}
    (h : Prepares view I k d p) (hs : I s) :
    (p.run s).1 = (d (view k s)).2 ∧ I (p.exec s) ∧ ∀ k', view k' (p.exec s) =
      if k' = k then applyAll (d (view k s)).1 (view k' s) else view k' s := by
  induction p generalizing s with
  | ret a =>
    rw [h]
    exact ⟨rfl, hs, fun k' => by simp [applyAll, Prog.exec]⟩
  | fail e =>
    rw [h]
    exact ⟨rfl, hs, fun k' => by simp [applyAll, Prog.exec]⟩
  | read c ih =>
    rcases h s hs with hlater | hnow
    · exact ih s hlater hs
    · exact hnow.run hs
  | modify f c ih =>
    obtain ⟨hacts, hlater⟩ := h
    have hview : ∀ k', view k' (f s) = view k' s := by
      intro k'
      rw [hacts.view]
      simp
    have hrun := ih hlater (hacts.keeps s hs)
    simp only [hview] at hrun
    exact hrun
  | write f c => exact h.elim

variable {G : κ → V → V → Prop} {key : ι → κ} {d : ι → V → List (V → V) × Except ε α}
  {progs : ι → Prog ε σ α}

/-- A serial run keeps the invariant. -/
theorem Transactional.serial (h : Transactional view I G key d progs) {s : σ} (hs : I s)
    (order : List ι) : I (serial progs order s) := by
  induction order using List.reverseRecOn with
  | nil => exact hs
  | append_singleton order i ih =>
    rw [serial_concat]
    exact ((h.prepares i).run ih).2.1

end Serial

/-! ## Calm runs -/

section Calm

variable [DecidableEq ι] [DecidableEq κ] {view : κ → σ → V} {I : σ → Prop}
  {G : κ → V → V → Prop} {key : ι → κ} {d : ι → V → List (V → V) × Except ε α}
  {progs : ι → Prog ε σ α} {s₀ : σ}

/-- The program has not made its decision, or has made the one it would make now and has its
writes before it. -/
def Waiting (view : κ → σ → V) (I : σ → Prop) (k : κ) (d : V → List (V → V) × Except ε α) (s : σ)
    (p : Prog ε σ α) : Prop :=
  Prepares view I k d p ∨
    ∃ w ws, (d (view k s)).1 = w :: ws ∧ Performs view I k (d (view k s)).2 (w :: ws) p

/-- The transactions `order` have taken effect in this order; `rest i` are the writes that
transaction `i` still owes. At every key at most one transaction owes writes. -/
structure Linearized (view : κ → σ → V) (I : σ → Prop) (G : κ → V → V → Prop) (key : ι → κ)
    (d : ι → V → List (V → V) × Except ε α) (progs : ι → Prog ε σ α) (s₀ : σ) (order : List ι)
    (rest : ι → List (V → V)) (pool : Pool ι ε σ α) : Prop where
  nodup : order.Nodup
  keeps : I pool.state
  begun : ∀ i, pool.begun i = true → i ∈ order
  waiting : ∀ i, i ∉ order → Waiting view I (key i) (d i) pool.state (pool.progs i)
  committed : ∀ before i after, order = before ++ i :: after →
    Performs view I (key i) ((progs i).run (serial progs before s₀)).1 (rest i) (pool.progs i)
  idle : ∀ i, i ∉ order → rest i = []
  lone : ∀ i j, key i = key j → rest i ≠ [] → rest j ≠ [] → i = j
  due : ∀ i, rest i ≠ [] → applyAll (rest i) (view (key i) pool.state) =
    view (key i) (serial progs order s₀)
  even : ∀ k, (∀ i, key i = k → rest i = []) →
    view k pool.state = view k (serial progs order s₀)
  trailing : ∀ i, ∀ w ∈ rest i, Trailing G key d (key i) w

/-- A program goes on waiting in a state that leads to the same decision. -/
theorem Waiting.congr {k : κ} {d : V → List (V → V) × Except ε α} {s s' : σ} {p : Prog ε σ α}
    (h : Waiting view I k d s p) (hd : d (view k s') = d (view k s)) :
    Waiting view I k d s' p := by
  unfold Waiting
  rw [hd]
  exact h

omit [DecidableEq ι] [DecidableEq κ] in
/-- Trailing writes change no decision. -/
theorem decision_applyAll {k : κ} {ws : List (V → V)} (h : ∀ w ∈ ws, Trailing G key d k w) {j : ι}
    (hj : key j = k) (v : V) : d j (applyAll ws v) = d j v := by
  induction ws generalizing v with
  | nil => rfl
  | cons w ws ih =>
    have hw := h w (List.mem_cons_self ..)
    exact (ih (fun w' hw' => h w' (List.mem_cons_of_mem _ hw')) (w v)).trans (hw.inert j v hj)

namespace Linearized

variable {order : List ι} {rest : ι → List (V → V)} {pool : Pool ι ε σ α}

omit [DecidableEq ι] in
/-- What is owed changes no decision. -/
theorem decision_eq (h : Linearized view I G key d progs s₀ order rest pool) (i : ι) :
    d i (view (key i) (serial progs order s₀)) = d i (view (key i) pool.state) := by
  by_cases howed : ∃ j, key j = key i ∧ rest j ≠ []
  · obtain ⟨j, hkey, hj⟩ := howed
    have hdue := h.due j hj
    rw [hkey] at hdue
    rw [← hdue]
    exact decision_applyAll (h.trailing j) hkey.symm _
  · push Not at howed
    rw [h.even (key i) howed]

/-- A transaction takes effect: it has made the writes `taken` of its decision and owes `ws`. -/
theorem commit (htx : Transactional view I G key d progs) (hs₀ : I s₀)
    (h : Linearized view I G key d progs s₀ order rest pool) {i : ι} (hi : i ∉ order)
    (taken : List (V → V)) {ws : List (V → V)} {s' : σ} {p' : Prog ε σ α} {b : ι → Bool}
    (hd : (d i (view (key i) pool.state)).1 = taken ++ ws) (hI : I s')
    (hview : ∀ k, view k s' =
      if k = key i then applyAll taken (view k pool.state) else view k pool.state)
    (hp : Performs view I (key i) (d i (view (key i) pool.state)).2 ws p')
    (hothers : ∀ j, j ∉ order → j ≠ i → Waiting view I (key j) (d j) s' (pool.progs j))
    (hfree : taken ++ ws = [] ∨ ∀ j, key j = key i → rest j = [])
    (htrailing : ∀ w ∈ ws, Trailing G key d (key i) w)
    (hb : ∀ j, b j = true → j ∈ order ∨ j = i) :
    Linearized view I G key d progs s₀ (order ++ [i]) (Function.update rest i ws)
      ⟨s', Function.update pool.progs i p', b⟩ := by
  obtain ⟨hresult, -, hserial⟩ := (htx.prepares i).run (htx.serial hs₀ order)
  rw [h.decision_eq i] at hresult
  simp only [h.decision_eq i, hd] at hserial
  have hrest : ∀ j, j ≠ i → Function.update rest i ws j = rest j :=
    fun j hne => Function.update_of_ne hne ..
  refine ⟨?_, hI, ?_, ?_, ?_, ?_, ?_, ?_, ?_, ?_⟩
  · rw [List.nodup_append]
    refine ⟨h.nodup, List.pairwise_singleton .., fun j hj j' hj' heq => ?_⟩
    rw [List.mem_singleton] at hj'
    exact hi (hj' ▸ heq ▸ hj)
  · intro j hj
    simpa using hb j hj
  · intro j hj
    simp only [List.mem_append, List.mem_singleton, not_or] at hj
    simp only [Function.update_of_ne hj.2]
    exact hothers j hj.1 hj.2
  · intro before j after heq
    rcases List.eq_nil_or_concat after with rfl | ⟨after, last, rfl⟩
    · obtain ⟨rfl, hlast⟩ := List.append_inj' heq rfl
      cases hlast
      simp only [Function.update_self, hresult]
      exact hp
    · rw [List.concat_eq_append, ← List.cons_append, ← List.append_assoc] at heq
      obtain ⟨rfl, -⟩ := List.append_inj' heq rfl
      have hne : j ≠ i := by
        rintro rfl
        simp at hi
      simp only [Function.update_of_ne hne]
      exact h.committed before j after rfl
  · intro j hj
    simp only [List.mem_append, List.mem_singleton, not_or] at hj
    rw [hrest j hj.2, h.idle j hj.1]
  · intro j j' hkey hj hj'
    by_cases hji : j = i
    · subst hji
      by_contra hne
      rw [hrest j' (Ne.symm hne)] at hj'
      rw [Function.update_self] at hj
      exact hj' ((hfree.resolve_left (by simp [hj])) j' hkey.symm)
    · rw [hrest j hji] at hj
      by_cases hj'i : j' = i
      · subst hj'i
        rw [Function.update_self] at hj'
        exact absurd ((hfree.resolve_left (by simp [hj'])) j hkey) hj
      · rw [hrest j' hj'i] at hj'
        exact h.lone j j' hkey hj hj'
  · intro j hj
    rw [serial_concat, hserial, hview]
    by_cases hji : j = i
    · subst hji
      rw [Function.update_self] at hj ⊢
      rw [if_pos rfl, if_pos rfl, applyAll_append,
        h.even _ (hfree.resolve_left (by simp [hj]))]
    · rw [hrest j hji] at hj ⊢
      by_cases hkey : key j = key i
      · have hnone := hfree.resolve_right fun hnone => hj (hnone j hkey)
        obtain ⟨rfl, rfl⟩ := List.append_eq_nil_iff.mp hnone
        simpa [applyAll] using h.due j hj
      · rw [if_neg hkey, if_neg hkey]
        exact h.due j hj
  · intro k hk
    have hnone : ∀ j, key j = k → rest j = [] := by
      intro j hj
      by_cases hji : j = i
      · rw [hji, h.idle i hi]
      · rw [← hrest j hji]
        exact hk j hj
    rw [serial_concat, hserial, hview, h.even k hnone]
    by_cases hkey : k = key i
    · have hws := hk i hkey.symm
      rw [Function.update_self] at hws
      rw [hws, List.append_nil]
    · rw [if_neg hkey, if_neg hkey]
  · intro j w hw
    by_cases hji : j = i
    · subst hji
      rw [Function.update_self] at hw
      exact htrailing w hw
    · rw [hrest j hji] at hw
      exact h.trailing j w hw

/-- A transaction that has taken effect makes its next write. -/
theorem proceed (h : Linearized view I G key d progs s₀ order rest pool) {i : ι}
    {w : V → V} {ws : List (V → V)} (hi : rest i = w :: ws) {s' : σ} {p' : Prog ε σ α}
    {b : ι → Bool} (hI : I s')
    (hview : ∀ k, view k s' = if k = key i then w (view k pool.state) else view k pool.state)
    (hp : ∀ r, Performs view I (key i) r (w :: ws) (pool.progs i) →
      Performs view I (key i) r ws p')
    (hb : ∀ j, b j = true → j ∈ order ∨ j = i) :
    Linearized view I G key d progs s₀ order (Function.update rest i ws)
      ⟨s', Function.update pool.progs i p', b⟩ := by
  have howed : rest i ≠ [] := by simp [hi]
  have hmem : i ∈ order := by
    by_contra hmem
    exact howed (h.idle i hmem)
  have hw : Trailing G key d (key i) w := h.trailing i w (by simp [hi])
  have hrest : ∀ j, j ≠ i → Function.update rest i ws j = rest j :=
    fun j hne => Function.update_of_ne hne ..
  -- no other transaction with this key owes a write
  have hlone : ∀ j, j ≠ i → key j = key i → rest j = [] := by
    intro j hne hkey
    by_contra hj
    exact hne (h.lone j i hkey hj howed)
  have hdue := h.due i howed
  rw [hi] at hdue
  refine ⟨h.nodup, hI, ?_, ?_, ?_, ?_, ?_, ?_, ?_, ?_⟩
  · intro j hj
    rcases hb j hj with hj | rfl
    · exact hj
    · exact hmem
  · intro j hj
    have hne : j ≠ i := fun heq => hj (heq ▸ hmem)
    simp only [Function.update_of_ne hne]
    apply (h.waiting j hj).congr
    rw [hview]
    by_cases hkey : key j = key i
    · rw [if_pos hkey]
      exact hw.inert j _ hkey
    · rw [if_neg hkey]
  · intro before j after heq
    have hj := h.committed before j after heq
    by_cases hji : j = i
    · subst hji
      rw [hi] at hj
      simp only [Function.update_self]
      exact hp _ hj
    · simp only [Function.update_of_ne hji]
      exact hj
  · intro j hj
    have hne : j ≠ i := fun heq => hj (heq ▸ hmem)
    rw [hrest j hne, h.idle j hj]
  · intro j j' hkey hj hj'
    by_cases hji : j = i
    · subst hji
      by_contra hne
      rw [hrest j' (Ne.symm hne)] at hj'
      exact hj' (hlone j' (Ne.symm hne) hkey.symm)
    · rw [hrest j hji] at hj
      by_cases hj'i : j' = i
      · subst hj'i
        exact absurd (hlone j hji hkey) hj
      · rw [hrest j' hj'i] at hj'
        exact h.lone j j' hkey hj hj'
  · intro j hj
    by_cases hji : j = i
    · subst hji
      rw [Function.update_self, hview, if_pos rfl]
      exact hdue
    · rw [hrest j hji] at hj ⊢
      rw [hview, if_neg fun hkey => hj (hlone j hji hkey)]
      exact h.due j hj
  · intro k hk
    rw [hview]
    by_cases hkey : k = key i
    · subst hkey
      have hws := hk i rfl
      rw [Function.update_self] at hws
      rw [if_pos rfl, ← hdue, hws]
      rfl
    · rw [if_neg hkey]
      apply h.even k
      intro j hj
      rw [← hrest j fun hji => hkey (hji ▸ hj.symm)]
      exact hk j hj
  · intro j w' hw'
    by_cases hji : j = i
    · subst hji
      rw [Function.update_self] at hw'
      exact h.trailing j w' (by simp [hi, hw'])
    · rw [hrest j hji] at hw'
      exact h.trailing j w' hw'

/-- A command that changes no view, of a transaction that has not taken effect. -/
theorem prepare (h : Linearized view I G key d progs s₀ order rest pool) {i : ι} (hi : i ∉ order)
    {s' : σ} {p' : Prog ε σ α} {b : ι → Bool} (hI : I s')
    (hview : ∀ k, view k s' = view k pool.state)
    (hp : Waiting view I (key i) (d i) s' p') (hb : ∀ j, b j = true → j ∈ order) :
    Linearized view I G key d progs s₀ order rest ⟨s', Function.update pool.progs i p', b⟩ := by
  refine ⟨h.nodup, hI, hb, ?_, ?_, h.idle, h.lone, ?_, ?_, h.trailing⟩
  · intro j hj
    by_cases hji : j = i
    · subst hji
      simpa using hp
    · simp only [Function.update_of_ne hji]
      apply (h.waiting j hj).congr
      rw [hview]
  · intro before j after heq
    have hne : j ≠ i := by
      rintro rfl
      simp [heq] at hi
    simp only [Function.update_of_ne hne]
    exact h.committed before j after heq
  · intro j hj
    rw [hview]
    exact h.due j hj
  · intro k hk
    rw [hview]
    exact h.even k hk

/-- A transaction that owes writes is about to write. -/
theorem isWrite_of_owes (h : Linearized view I G key d progs s₀ order rest pool) {i : ι}
    (hi : rest i ≠ []) : (pool.progs i).isWrite = true := by
  have hmem : i ∈ order := by
    by_contra hmem
    exact hi (h.idle i hmem)
  obtain ⟨before, after, heq⟩ := List.append_of_mem hmem
  have hperf := h.committed before i after heq
  cases hrest : rest i with
  | nil => exact absurd hrest hi
  | cons w ws =>
    rw [hrest] at hperf
    obtain ⟨f, c, hprog, -⟩ := hperf
    rw [hprog]
    rfl

/-- A step of a transaction that has taken effect. -/
theorem step_of_mem (hrefl : ∀ k v, G k v v)
    (h : Linearized view I G key d progs s₀ order rest pool) {i : ι} (hi : i ∈ order) :
    ∃ rest', Linearized view I G key d progs s₀ order rest' (pool.step i) ∧
      ∀ k, G k (view k pool.state) (view k (pool.step i).state) := by
  obtain ⟨before, after, heq⟩ := List.append_of_mem hi
  have hperf := h.committed before i after heq
  cases hrest : rest i with
  | nil =>
    rw [hrest] at hperf
    rw [Pool.step_eq_self hperf]
    exact ⟨rest, h, fun k => hrefl k _⟩
  | cons w ws =>
    rw [hrest] at hperf
    obtain ⟨f, c, hprog, hacts, -⟩ := hperf
    have hstep : pool.step i = ⟨f pool.state, Function.update pool.progs i (c (some pool.state)),
        Function.update pool.begun i true⟩ := by
      simp [Pool.step, hprog, Prog.step, Prog.isWrite]
    rw [hstep]
    refine ⟨_, h.proceed hrest (hacts.keeps _ h.keeps) (hacts.view _) ?_ ?_, fun k => ?_⟩
    · rintro r ⟨f', c', hsame, -, hcont⟩
      rw [hprog] at hsame
      cases hsame
      exact hcont pool.state
    · intro j hj
      by_cases hji : j = i
      · exact Or.inr hji
      · rw [Function.update_of_ne hji] at hj
        exact Or.inl (h.begun j hj)
    · have hw : Trailing G key d (key i) w := h.trailing i w (by simp [hrest])
      show G k _ (view k (f pool.state))
      rw [hacts.view]
      by_cases hkey : k = key i
      · subst hkey
        rw [if_pos rfl]
        exact hw.grows _
      · rw [if_neg hkey]
        exact hrefl k _

/-- The first write of a transaction. -/
theorem step_first (htx : Transactional view I G key d progs) (hs₀ : I s₀)
    (hrefl : ∀ k v, G k v v) (h : Linearized view I G key d progs s₀ order rest pool) {i : ι}
    (hi : i ∉ order) (hcalm : pool.CalmStep key i) {w : V → V} {ws : List (V → V)}
    (hd : (d i (view (key i) pool.state)).1 = w :: ws)
    (hperf : Performs view I (key i) (d i (view (key i) pool.state)).2 (w :: ws)
      (pool.progs i)) :
    Linearized view I G key d progs s₀ (order ++ [i]) (Function.update rest i ws) (pool.step i) ∧
      ∀ k, G k (view k pool.state) (view k (pool.step i).state) := by
  obtain ⟨f, c, hprog, hacts, hcont⟩ := hperf
  have hbegun : pool.begun i = false := by
    by_contra hbegun
    exact hi (h.begun i (by simpa using hbegun))
  have hquiet := hcalm (by rw [hprog]; rfl) hbegun
  have hstep : pool.step i = ⟨f pool.state, Function.update pool.progs i (c (some pool.state)),
      Function.update pool.begun i true⟩ := by
    simp [Pool.step, hprog, Prog.step, Prog.isWrite]
  rw [hstep]
  constructor
  · apply h.commit htx hs₀ hi [w] hd (hacts.keeps _ h.keeps) (hacts.view _)
      (hcont pool.state)
    · intro j hj hji
      by_cases hkey : key j = key i
      · rcases h.waiting j hj with hprep | ⟨w', ws', -, f', c', hprog', -⟩
        · exact Or.inl hprep
        · have hnot := hquiet j hji hkey
          rw [hprog'] at hnot
          cases hnot
      · apply (h.waiting j hj).congr
        rw [hacts.view, if_neg hkey]
    · right
      intro j hkey
      by_contra hj
      have hji : j ≠ i := by
        rintro rfl
        exact hj (h.idle j hi)
      have hnot := hquiet j hji hkey
      rw [h.isWrite_of_owes hj] at hnot
      cases hnot
    · exact htx.trailing i _ w ws hd
    · intro j hj
      by_cases hji : j = i
      · exact Or.inr hji
      · rw [Function.update_of_ne hji] at hj
        exact Or.inl (h.begun j hj)
  · intro k
    show G k _ (view k (f pool.state))
    rw [hacts.view]
    by_cases hkey : k = key i
    · subst hkey
      rw [if_pos rfl]
      exact htx.first i _ w ws hd
    · rw [if_neg hkey]
      exact hrefl k _

/-- A command of a transaction that has not decided yet. -/
theorem step_undecided (htx : Transactional view I G key d progs) (hs₀ : I s₀)
    (hrefl : ∀ k v, G k v v) (h : Linearized view I G key d progs s₀ order rest pool) {i : ι}
    (hi : i ∉ order) (hprep : Prepares view I (key i) (d i) (pool.progs i)) :
    ∃ order' rest', Linearized view I G key d progs s₀ order' rest' (pool.step i) ∧
      ∀ k, G k (view k pool.state) (view k (pool.step i).state) := by
  have hbegun : ∀ j, Function.update pool.begun i (pool.begun i || false) j = true →
      j ∈ order := by
    intro j hj
    rw [Bool.or_false, Function.update_eq_self] at hj
    exact h.begun j hj
  cases hprog : pool.progs i with
  | ret a =>
    rw [Pool.step_eq_self (r := .ok a) hprog]
    exact ⟨order, rest, h, fun k => hrefl k _⟩
  | fail e =>
    rw [Pool.step_eq_self (r := .error e) hprog]
    exact ⟨order, rest, h, fun k => hrefl k _⟩
  | read c =>
    have hstep : pool.step i = ⟨pool.state, Function.update pool.progs i (c pool.state),
        Function.update pool.begun i (pool.begun i || false)⟩ := by
      simp [Pool.step, hprog, Prog.step, Prog.isWrite]
    rw [hstep]
    rw [hprog] at hprep
    rcases hprep pool.state h.keeps with hlater | hnow
    · exact ⟨order, rest, h.prepare hi h.keeps (fun _ => rfl) (Or.inl hlater) hbegun,
        fun k => hrefl k _⟩
    · cases hd : (d i (view (key i) pool.state)).1 with
      | nil =>
        rw [hd] at hnow
        refine ⟨_, _, h.commit htx hs₀ hi [] hd h.keeps ?_ hnow
          (fun j hj _ => h.waiting j hj) (Or.inl rfl) (fun w hw => absurd hw List.not_mem_nil)
          (fun j hj => Or.inl (hbegun j hj)), fun k => hrefl k _⟩
        simp [applyAll]
      | cons w ws =>
        rw [hd] at hnow
        exact ⟨order, rest, h.prepare hi h.keeps (fun _ => rfl) (Or.inr ⟨w, ws, hd, hnow⟩) hbegun,
          fun k => hrefl k _⟩
  | modify f c =>
    have hstep : pool.step i = ⟨f pool.state, Function.update pool.progs i c,
        Function.update pool.begun i (pool.begun i || false)⟩ := by
      simp [Pool.step, hprog, Prog.step, Prog.isWrite]
    rw [hstep]
    rw [hprog] at hprep
    obtain ⟨hacts, hlater⟩ := hprep
    have hview : ∀ k, view k (f pool.state) = view k pool.state := by
      intro k
      rw [hacts.view]
      simp
    refine ⟨order, rest, h.prepare hi (hacts.keeps _ h.keeps) hview (Or.inl hlater) hbegun,
      fun k => ?_⟩
    show G k _ (view k (f pool.state))
    rw [hview]
    exact hrefl k _
  | write f c =>
    rw [hprog] at hprep
    exact hprep.elim

/-- A calm step. -/
theorem step (htx : Transactional view I G key d progs) (hs₀ : I s₀) (hrefl : ∀ k v, G k v v)
    (h : Linearized view I G key d progs s₀ order rest pool) {i : ι}
    (hcalm : pool.CalmStep key i) :
    ∃ order' rest', Linearized view I G key d progs s₀ order' rest' (pool.step i) ∧
      ∀ k, G k (view k pool.state) (view k (pool.step i).state) := by
  by_cases hi : i ∈ order
  · obtain ⟨rest', hstep⟩ := h.step_of_mem hrefl hi
    exact ⟨order, rest', hstep⟩
  · rcases h.waiting i hi with hprep | ⟨w, ws, hd, hperf⟩
    · exact h.step_undecided htx hs₀ hrefl hi hprep
    · exact ⟨_, _, h.step_first htx hs₀ hrefl hi hcalm hd hperf⟩

omit [DecidableEq ι] in
/-- Before the first command. -/
theorem start (htx : Transactional view I G key d progs) (hs₀ : I s₀) :
    Linearized view I G key d progs s₀ [] (fun _ => []) (Pool.start progs s₀) where
  nodup := List.nodup_nil
  keeps := hs₀
  begun := by simp [Pool.start]
  waiting := fun i _ => Or.inl (htx.prepares i)
  committed := by simp
  idle := fun _ _ => rfl
  lone := by simp
  due := by simp
  even := fun _ _ => rfl
  trailing := by simp

/-- The commands of a calm schedule. -/
theorem runs (htx : Transactional view I G key d progs) (hs₀ : I s₀) (hrefl : ∀ k v, G k v v)
    (htrans : ∀ k u v w, G k u v → G k v w → G k u w)
    (h : Linearized view I G key d progs s₀ order rest pool) {schedule : List ι}
    (hcalm : pool.Calm key schedule) :
    ∃ order' rest', Linearized view I G key d progs s₀ order' rest' (pool.runs schedule) ∧
      ∀ k, G k (view k pool.state) (view k (pool.runs schedule).state) := by
  induction schedule generalizing order rest pool with
  | nil => exact ⟨order, rest, h, fun k => hrefl k _⟩
  | cons i schedule ih =>
    obtain ⟨order₁, rest₁, h₁, hgrows₁⟩ := h.step htx hs₀ hrefl hcalm.1
    obtain ⟨order', rest', h', hgrows'⟩ := ih h₁ hcalm.2
    exact ⟨order', rest', h', fun k => htrans k _ _ _ (hgrows₁ k) (hgrows' k)⟩

/-- Programs that have ended may be taken to have taken effect. -/
theorem cover (htx : Transactional view I G key d progs) (hs₀ : I s₀)
    (h : Linearized view I G key d progs s₀ order rest pool) (hcomplete : pool.Complete)
    (is : List ι) :
    ∃ order' rest', Linearized view I G key d progs s₀ order' rest' pool ∧
      ∀ i ∈ is, i ∈ order' := by
  induction is using List.reverseRecOn with
  | nil => exact ⟨order, rest, h, by simp⟩
  | append_singleton is i ih =>
    obtain ⟨order₁, rest₁, h₁, hcover⟩ := ih
    by_cases hi : i ∈ order₁
    · refine ⟨order₁, rest₁, h₁, fun j hj => ?_⟩
      rcases List.mem_append.mp hj with hj | hj
      · exact hcover j hj
      · rwa [List.mem_singleton.mp hj]
    · obtain ⟨r, hr⟩ := Option.isSome_iff_exists.mp (hcomplete i)
      have hended := Prog.eq_ended hr
      have hsilent : d i (view (key i) pool.state) = ([], r) := by
        rcases h₁.waiting i hi with hprep | ⟨w, ws, -, f, c, hprog, -⟩
        · rw [hended] at hprep
          cases r with
          | ok a => exact hprep _
          | error e => exact hprep _
        · rw [hprog] at hr
          cases hr
      have h₂ : Linearized view I G key d progs s₀ (order₁ ++ [i]) (Function.update rest₁ i [])
          ⟨pool.state, Function.update pool.progs i (pool.progs i), pool.begun⟩ := by
        apply h₁.commit htx hs₀ hi [] (congrArg Prod.fst hsilent) h₁.keeps
        · simp [applyAll]
        · rw [hsilent]
          exact hended
        · exact fun j hj _ => h₁.waiting j hj
        · exact Or.inl rfl
        · simp
        · exact fun j hj => Or.inl (h₁.begun j hj)
      rw [Function.update_eq_self] at h₂
      refine ⟨_, _, h₂, fun j hj => ?_⟩
      rcases List.mem_append.mp hj with hj | hj
      · exact List.mem_append_left _ (hcover j hj)
      · exact List.mem_append_right _ hj

/-- When every transaction has taken effect, the pool shows the serial outcome. -/
theorem serializedBy (h : Linearized view I G key d progs s₀ order rest pool)
    (hcomplete : pool.Complete) (hall : ∀ i, i ∈ order) :
    SerializedBy (fun s k => view k s) progs s₀ order pool := by
  have hnone : ∀ i, rest i = [] := by
    intro i
    by_contra hi
    have hwrite := h.isWrite_of_owes hi
    obtain ⟨r, hr⟩ := Option.isSome_iff_exists.mp (hcomplete i)
    rw [Prog.eq_ended hr, Prog.isWrite_ended] at hwrite
    cases hwrite
  refine ⟨h.nodup, hall, funext fun k => h.even k fun i _ => hnone i, ?_⟩
  intro before i after heq
  have hperf := h.committed before i after heq
  rw [hnone i] at hperf
  have hended : pool.progs i = .ended _ := hperf
  rw [hended, Prog.outcome?_ended]

end Linearized

/-- In a calm run of transactions the invariant holds, and views grow from any moment to a
later one. -/
theorem Transactional.run_grows (htx : Transactional view I G key d progs) (hs₀ : I s₀)
    (hrefl : ∀ k v, G k v v) (htrans : ∀ k u v w, G k u v → G k v w → G k u w)
    {early late : List ι} (hcalm : (Pool.start progs s₀).Calm key (early ++ late)) :
    I ((Pool.start progs s₀).runs (early ++ late)).state ∧
      ∀ k, G k (view k ((Pool.start progs s₀).runs early).state)
        (view k ((Pool.start progs s₀).runs (early ++ late)).state) := by
  obtain ⟨hearly, hlate⟩ := Pool.calm_append.mp hcalm
  obtain ⟨order, rest, h, -⟩ := (Linearized.start htx hs₀).runs htx hs₀ hrefl htrans hearly
  obtain ⟨order', rest', h', hgrows⟩ := h.runs htx hs₀ hrefl htrans hlate
  rw [Pool.runs_append]
  exact ⟨h'.keeps, hgrows⟩

/-- A complete calm run of transactions is serialized by some order. -/
theorem Transactional.exists_serializedBy [Fintype ι]
    (htx : Transactional view I G key d progs) (hs₀ : I s₀) (hrefl : ∀ k v, G k v v)
    (htrans : ∀ k u v w, G k u v → G k v w → G k u w) {schedule : List ι}
    (hcalm : (Pool.start progs s₀).Calm key schedule)
    (hcomplete : ((Pool.start progs s₀).runs schedule).Complete) :
    ∃ order, SerializedBy (fun s k => view k s) progs s₀ order
      ((Pool.start progs s₀).runs schedule) := by
  obtain ⟨order, rest, h, -⟩ := (Linearized.start htx hs₀).runs htx hs₀ hrefl htrans hcalm
  obtain ⟨order', rest', h', hall⟩ := h.cover htx hs₀ hcomplete Finset.univ.toList
  exact ⟨order', h'.serializedBy hcomplete fun i => hall i (by simp)⟩

end Calm

end Stateful
