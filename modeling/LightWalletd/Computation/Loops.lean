import Mathlib.Data.List.Forall2
import Mathlib.Data.List.GetD
import Mathlib.Data.List.Range

/-!
# Loops over a list

A loop whose rounds all succeed succeeds, with one result for each round. Facts about the
rounds are relations between the list and its results, entry by entry. A loop with an accumulator
whose rounds succeed or fail whatever they have accumulated ends with the first round that fails.
-/

set_option autoImplicit false

namespace Stateful

variable {α β γ ε : Type}

/-! ## Rounds that succeed -/

/-- A sequence succeeds if both of its parts do. -/
theorem bind_eq_ok_iff {x : Except ε α} {f : α → Except ε β} {b : β} :
    x >>= f = .ok b ↔ ∃ a, x = .ok a ∧ f a = .ok b := by
  cases x with
  | error e => simp [bind, Except.bind]
  | ok a => simp [bind, Except.bind]

/-- A loop succeeds if every round does. -/
theorem mapM_ok {f : α → Except ε β} {P : α → β → Prop} {xs : List α}
    (h : ∀ x ∈ xs, ∃ y, f x = .ok y ∧ P x y) :
    ∃ ys, xs.mapM f = .ok ys ∧ List.Forall₂ P xs ys := by
  induction xs with
  | nil => exact ⟨[], rfl, .nil⟩
  | cons x xs ih =>
    obtain ⟨y, hy, hP⟩ := h x (List.mem_cons_self ..)
    obtain ⟨ys, hys, hPs⟩ := ih fun x' hx' => h x' (List.mem_cons_of_mem _ hx')
    apply Exists.intro (y :: ys)
    constructor
    · rw [List.mapM_cons, hy, hys]
      rfl
    · exact .cons hP hPs

/-- A loop whose rounds compute `g` computes it for the whole list. -/
theorem mapM_eq_map {m : Type → Type} [Monad m] [LawfulMonad m] {f : α → m β} {g : α → β}
    {xs : List α} (h : ∀ x ∈ xs, f x = pure (g x)) : xs.mapM f = pure (xs.map g) := by
  induction xs with
  | nil => exact List.mapM_nil
  | cons x xs ih =>
    rw [List.mapM_cons, h x (List.mem_cons_self ..), ih fun x' hx' =>
      h x' (List.mem_cons_of_mem _ hx'), pure_bind, pure_bind, List.map_cons]

/-- A counting loop whose rounds compute `step` on what they reach computes it to the end. -/
theorem foldlM_range_eq {m : Type → Type} [Monad m] [LawfulMonad m] {stepM : β → ℕ → m β}
    {step : β → ℕ → β} {acc : β} {n : ℕ}
    (h : ∀ i < n, stepM ((List.range i).foldl step acc) i =
      pure (step ((List.range i).foldl step acc) i)) :
    (List.range n).foldlM stepM acc = pure ((List.range n).foldl step acc) := by
  induction n with
  | zero => exact List.foldlM_nil
  | succ n ih =>
    rw [List.range_succ, List.foldlM_append, ih fun i hi => h i (by omega), pure_bind,
      List.foldlM_cons, h n (by omega), pure_bind, List.foldlM_nil, List.foldl_append]
    rfl

/-! ## An accumulator -/

section Accumulator

variable {step : β → α → Except ε β} {P Q : α → Prop}

/-- A loop succeeds exactly when each of its rounds does. -/
theorem foldlM_ok_iff (hok : ∀ acc x, (∃ acc', step acc x = .ok acc') ↔ P x) (xs : List α)
    (acc : β) : (∃ acc', xs.foldlM step acc = .ok acc') ↔ ∀ x ∈ xs, P x := by
  induction xs generalizing acc with
  | nil => exact iff_of_true ⟨acc, rfl⟩ fun _ => nofun
  | cons x xs ih =>
    rw [List.foldlM_cons, List.forall_mem_cons, ← hok acc x]
    cases hx : step acc x with
    | error e => simp [bind, Except.bind]
    | ok acc₁ => simpa [bind, Except.bind] using ih acc₁

/-- A loop ends with the error `e` exactly when a round does and those before it succeed. -/
theorem foldlM_error_iff {e : ε} (hok : ∀ acc x, (∃ acc', step acc x = .ok acc') ↔ P x)
    (herror : ∀ acc x, step acc x = .error e ↔ Q x) (xs : List α) (acc : β) :
    xs.foldlM step acc = .error e ↔
      ∃ before x after, xs = before ++ x :: after ∧ (∀ y ∈ before, P y) ∧ Q x := by
  induction xs generalizing acc with
  | nil => simp [pure, Except.pure]
  | cons x xs ih =>
    rw [List.foldlM_cons]
    constructor
    · intro h
      cases hx : step acc x with
      | error e' =>
        rw [hx] at h
        cases h
        exact ⟨[], x, xs, rfl, fun _ => nofun, (herror acc x).mp hx⟩
      | ok acc₁ =>
        rw [hx] at h
        obtain ⟨before, y, after, rfl, hbefore, hy⟩ := (ih acc₁).mp h
        have hfirst : P x := (hok acc x).mp ⟨acc₁, hx⟩
        exact ⟨x :: before, y, after, rfl, List.forall_mem_cons.mpr ⟨hfirst, hbefore⟩, hy⟩
    · rintro ⟨before, y, after, hsplit, hbefore, hy⟩
      cases before with
      | nil =>
        cases hsplit
        rw [(herror acc x).mpr hy]
        rfl
      | cons z before =>
        cases hsplit
        obtain ⟨hz, hbefore⟩ := List.forall_mem_cons.mp hbefore
        obtain ⟨acc₁, hx⟩ := (hok acc x).mpr hz
        rw [hx]
        exact (ih acc₁).mpr ⟨before, y, after, rfl, hbefore, hy⟩

/-- What each round appends to a list, the loop appends in order. -/
theorem foldlM_append (list : β → List γ) (entries : α → List γ)
    (happend : ∀ acc x acc', step acc x = .ok acc' → list acc' = list acc ++ entries x)
    {xs : List α} {acc acc' : β} (h : xs.foldlM step acc = .ok acc') :
    list acc' = list acc ++ xs.flatMap entries := by
  induction xs generalizing acc with
  | nil =>
    cases h
    simp
  | cons x xs ih =>
    rw [List.foldlM_cons] at h
    cases hx : step acc x with
    | error e =>
      rw [hx] at h
      cases h
    | ok acc₁ =>
      rw [hx] at h
      rw [ih h, happend acc x acc₁ hx, List.flatMap_cons, List.append_assoc]

/-- What every round keeps holds behind the loop. -/
theorem foldlM_invariant {I : β → Prop}
    (hkeep : ∀ acc x acc', I acc → step acc x = .ok acc' → I acc') {xs : List α} {acc acc' : β}
    (hacc : I acc) (h : xs.foldlM step acc = .ok acc') : I acc' := by
  induction xs generalizing acc with
  | nil =>
    cases h
    exact hacc
  | cons x xs ih =>
    rw [List.foldlM_cons] at h
    cases hx : step acc x with
    | error e =>
      rw [hx] at h
      cases h
    | ok mid =>
      rw [hx] at h
      exact ih (hkeep acc x mid hacc hx) h

/-- A loop ends with what its rounds make of what they see. -/
theorem foldlM_view (view : β → γ) (next : γ → α → γ)
    (hnext : ∀ acc x acc', step acc x = .ok acc' → view acc' = next (view acc) x) {xs : List α}
    {acc acc' : β} (h : xs.foldlM step acc = .ok acc') :
    view acc' = xs.foldl next (view acc) := by
  induction xs generalizing acc with
  | nil =>
    cases h
    rfl
  | cons x xs ih =>
    rw [List.foldlM_cons] at h
    cases hx : step acc x with
    | error e =>
      rw [hx] at h
      cases h
    | ok acc₁ =>
      rw [hx] at h
      rw [ih h, hnext acc x acc₁ hx, List.foldl_cons]

/-- A loop whose rounds check what they reach succeeds exactly when the check holds at its end, if
what passes it could only grow out of what passes it. -/
theorem foldlM_ok_iff_of_antitone (view : β → γ) (next : γ → α → γ) (R : γ → Prop)
    (hnext : ∀ acc x acc', step acc x = .ok acc' → view acc' = next (view acc) x)
    (hok : ∀ acc x, R (view acc) → ((∃ acc', step acc x = .ok acc') ↔ R (next (view acc) x)))
    (hanti : ∀ c x, R (next c x) → R c) (xs : List α) {acc : β} (hacc : R (view acc)) :
    (∃ acc', xs.foldlM step acc = .ok acc') ↔ R (xs.foldl next (view acc)) := by
  induction xs generalizing acc with
  | nil => exact iff_of_true ⟨acc, rfl⟩ hacc
  | cons x xs ih =>
    have hback : ∀ (ys : List α) (c : γ), R (ys.foldl next c) → R c := by
      intro ys
      induction ys with
      | nil => exact fun _ h => h
      | cons y ys ihys => exact fun c h => hanti c y (ihys (next c y) h)
    rw [List.foldlM_cons, List.foldl_cons]
    cases hx : step acc x with
    | error e =>
      apply iff_of_false
      · rintro ⟨acc', h⟩
        cases h
      · intro h
        obtain ⟨acc', hacc'⟩ := (hok acc x hacc).mpr (hback xs _ h)
        rw [hx] at hacc'
        cases hacc'
    | ok acc₁ =>
      have hview := hnext acc x acc₁ hx
      have hreached : R (view acc₁) := by
        rw [hview]
        exact (hok acc x hacc).mp ⟨acc₁, hx⟩
      rw [← hview]
      exact ih hreached

end Accumulator

/-! ## Entry by entry -/

/-- What relates two lists through a third one. -/
theorem exists_between {P : β → γ → Prop} {Q : α → β → Prop} {xs : List α} {zs : List γ}
    (h : List.Forall₂ (fun x z => ∃ y, P y z ∧ Q x y) xs zs) :
    ∃ ys, List.Forall₂ P ys zs ∧ List.Forall₂ Q xs ys := by
  induction h with
  | nil => exact ⟨[], .nil, .nil⟩
  | cons h _ ih =>
    obtain ⟨y, hP, hQ⟩ := h
    obtain ⟨ys, hPs, hQs⟩ := ih
    exact ⟨y :: ys, .cons hP hPs, .cons hQ hQs⟩

/-- A test that says of each member what a condition says of its counterpart says so of all. -/
theorem all_iff_of_forall₂ {p : β → Bool} {q : α → Prop} {xs : List α} {ys : List β}
    (h : List.Forall₂ (fun x y => p y = true ↔ q x) xs ys) :
    ys.all p = true ↔ ∀ x ∈ xs, q x := by
  induction h with
  | nil => simp
  | cons h _ ih => simp [h, ih]

/-- Lists whose members have equal images have equal images. -/
theorem map_eq_map_of_forall₂ {f : α → γ} {g : β → γ} {xs : List α} {ys : List β}
    (h : List.Forall₂ (fun x y => f x = g y) xs ys) : xs.map f = ys.map g := by
  induction h with
  | nil => rfl
  | cons h _ ih => rw [List.map_cons, List.map_cons, h, ih]

/-- Lists whose members are sent to equal lists are sent to equal lists. -/
theorem flatMap_eq_of_forall₂ {f : α → List γ} {g : β → List γ} {xs : List α} {ys : List β}
    (h : List.Forall₂ (fun x y => f x = g y) xs ys) : xs.flatMap f = ys.flatMap g := by
  rw [List.flatMap_def, List.flatMap_def, map_eq_map_of_forall₂ h]

/-- Reading a list that was changed at one position. -/
theorem getD_set {xs : List α} {p i : ℕ} {x d : α} (hi : i < xs.length) :
    (xs.set p x).getD i d = if p = i then x else xs.getD i d := by
  rw [List.getD_eq_getElem _ _ (by rwa [List.length_set]), List.getElem_set,
    List.getD_eq_getElem _ _ hi]

/-- Entries without results may be left out. -/
theorem flatMap_filter_of_nil {p : α → Bool} {f : α → List γ} (hf : ∀ x, p x = false → f x = [])
    (xs : List α) : (xs.filter p).flatMap f = xs.flatMap f := by
  induction xs with
  | nil => rfl
  | cons x xs ih =>
    by_cases hx : p x = true
    · rw [List.filter_cons_of_pos hx, List.flatMap_cons, List.flatMap_cons, ih]
    · rw [List.filter_cons_of_neg hx, List.flatMap_cons, ih, hf x (Bool.eq_false_iff.mpr hx),
        List.nil_append]

/-- A relation with the positions of a list, read off its enumeration. -/
theorem forall_mem_zipIdx {P : ℕ → β → Prop} {s : ℕ} {ys : List β}
    (h : List.Forall₂ P (List.range' s ys.length) ys) : ∀ q ∈ ys.zipIdx s, P q.2 q.1 := by
  induction ys generalizing s with
  | nil => simp
  | cons y ys ih =>
    rw [List.length_cons, List.range'_succ, List.forall₂_cons] at h
    intro q hq
    rw [List.zipIdx_cons, List.mem_cons] at hq
    obtain rfl | hq := hq
    · exact h.1
    · exact ih h.2 q hq

/-- A relation along the positions of a list, by position alone. -/
theorem forall₂_range' {P : ℕ → γ → Prop} {s : ℕ} {xs : List α} {zs : List γ}
    (h : List.Forall₂ (fun q z => P q.2 z) (xs.zipIdx s) zs) :
    List.Forall₂ P (List.range' s xs.length) zs := by
  rw [← List.zipIdx_map_snd]
  exact List.forall₂_map_left_iff.mpr h

end Stateful
