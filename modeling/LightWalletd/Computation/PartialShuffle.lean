import Mathlib.Data.Finset.Card
import Mathlib.Data.Finset.Range
import Mathlib.Data.List.GetD
import Mathlib.Data.List.Nodup
import Mathlib.Tactic.Common

/-!
# Partial shuffles

A sampler of `k` distinct positions out of `n`: round `i` exchanges the `i`-th element of an array
of positions with one at or after it, and marks the position that comes to stand at `i`. A draw is
how far on the other element stands, and the mark. `Chosen` is the invariant: the array stays a
permutation, and the marked positions are its first `i` elements. So no position is marked twice,
and `exists_rounds` finds the draws that mark any given positions.
-/

set_option autoImplicit false

namespace PartialShuffle

variable {α β : Type}

/-! ## Exchanges -/

/-- The elements at `i` and `j` exchanged. -/
def swap (d : α) (xs : List α) (i j : ℕ) : List α :=
  (xs.set i (xs.getD j d)).set j (xs.getD i d)

section Swap

variable {d : α} {xs : List α} {i j : ℕ}

/-- A swap keeps the length. -/
@[simp] theorem length_swap : (swap d xs i j).length = xs.length := by simp [swap]

/-- A swap within the list permutes it. -/
theorem swap_perm (hi : i < xs.length) (hj : j < xs.length) : (swap d xs i j).Perm xs := by
  unfold swap
  rw [List.getD_eq_getElem _ _ hi, List.getD_eq_getElem _ _ hj]
  exact List.set_set_perm hi hj

/-- The element that comes to stand at `i`. -/
theorem getD_swap (hij : i ≤ j) (hj : j < xs.length) : (swap d xs i j).getD i d = xs.getD j d := by
  unfold swap
  obtain rfl | hne := eq_or_ne i j
  · simp [hj]
  · have hi : i < xs.length := by omega
    simp [List.getD_eq_getElem?_getD, hi, hne.symm]

/-- What stands before both stays. -/
theorem take_swap (hij : i ≤ j) : (swap d xs i j).take i = xs.take i := by
  unfold swap
  rw [List.take_set_of_le hij, List.take_set_of_le le_rfl]

/-- A swap with a later position puts the value of that position behind the front part. -/
theorem take_succ_swap (hij : i ≤ j) (hj : j < xs.length) :
    (swap d xs i j).take (i + 1) = xs.take i ++ [xs.getD j d] := by
  have hi : i < (swap d xs i j).length := by
    rw [length_swap]
    omega
  rw [List.take_succ_eq_append_getElem hi, take_swap hij, ← getD_swap hij hj,
    List.getD_eq_getElem _ _ hi]

end Swap

/-! ## Rounds -/

/-- One round: an exchange, and a mark at the position that comes to stand at `i`. -/
def round (st : List β × List ℕ) (i : ℕ) (draw : ℕ × β) : List β × List ℕ :=
  let idxs := swap 0 st.2 i (i + draw.1)
  (st.1.set (idxs.getD i 0) draw.2, idxs)

/-- The rounds from `i` on, one for each draw. -/
def rounds : ℕ → List (ℕ × β) → List β × List ℕ → List β × List ℕ
  | _, [], st => st
  | i, draw :: draws, st => rounds (i + 1) draws (round st i draw)

/-- Every draw from round `i` on stays within `n` positions. -/
def OffsetsFit (n : ℕ) : ℕ → List (ℕ × β) → Prop
  | _, [] => True
  | i, draw :: draws => i + draw.1 < n ∧ OffsetsFit n (i + 1) draws

/-- After `i` rounds the positions are permuted, and the marked ones are the first `i`. -/
structure Chosen (Mark : ℕ → β → Prop) (zero : β) (n i : ℕ) (st : List β × List ℕ) : Prop where
  length_eq : st.1.length = n
  perm : st.2.Perm (List.range n)
  marked : ∀ p ∈ st.2.take i, Mark p (st.1.getD p zero)
  unmarked : ∀ p, p ∉ st.2.take i → st.1.getD p zero = zero

namespace Chosen

variable {Mark : ℕ → β → Prop} {zero : β} {n i : ℕ} {st : List β × List ℕ}

/-- The positions stay as many. -/
theorem length_idxs (h : Chosen Mark zero n i st) : st.2.length = n := by
  rw [h.perm.length_eq, List.length_range]

/-- Before the first round nothing is chosen. -/
theorem start (Mark : ℕ → β → Prop) (zero : β) (n : ℕ) :
    Chosen Mark zero n 0 (List.replicate n zero, List.range n) where
  length_eq := List.length_replicate
  perm := .refl _
  marked p hp := by simp at hp
  unmarked p _ := by
    obtain hp | hp := lt_or_ge p n
    · rw [List.getD_eq_getElem _ _ (by simpa using hp), List.getElem_replicate]
    · exact List.getD_eq_default _ _ (by simpa using hp)

/-- No position is listed twice. -/
theorem nodup (h : Chosen Mark zero n i st) : st.2.Nodup := h.perm.nodup_iff.mpr List.nodup_range

/-- A round marks a position that was not marked. -/
theorem round {draw : ℕ × β} (h : Chosen Mark zero n i st) (hdraw : i + draw.1 < n)
    (hmark : Mark (st.2.getD (i + draw.1) 0) draw.2) :
    Chosen Mark zero n (i + 1) (round st i draw) := by
  have hlen := h.length_idxs
  have hj : i + draw.1 < st.2.length := by omega
  have hnodup := h.nodup
  set p₀ := st.2.getD (i + draw.1) 0 with hp₀
  have htake : (swap 0 st.2 i (i + draw.1)).take (i + 1) = st.2.take i ++ [p₀] :=
    take_succ_swap (Nat.le_add_right i draw.1) hj
  have hget : (swap 0 st.2 i (i + draw.1)).getD i 0 = p₀ :=
    getD_swap (Nat.le_add_right i draw.1) hj
  have hp₀lt : p₀ < st.1.length := by
    rw [h.length_eq, ← List.mem_range, ← h.perm.mem_iff, hp₀, List.getD_eq_getElem _ _ hj]
    exact List.getElem_mem hj
  -- The element is new, since the positions are distinct.
  have hnew : p₀ ∉ st.2.take i := by
    intro hmem
    obtain ⟨k, hk, hget⟩ := List.getElem_of_mem hmem
    rw [List.length_take] at hk
    rw [List.getElem_take, hp₀, List.getD_eq_getElem _ _ hj, hnodup.getElem_inj_iff] at hget
    omega
  have hvalues : (PartialShuffle.round st i draw).1 = st.1.set p₀ draw.2 := by
    show st.1.set _ draw.2 = _
    rw [hget]
  have hmem : ∀ p, p ∈ (PartialShuffle.round st i draw).2.take (i + 1) ↔
      p ∈ st.2.take i ∨ p = p₀ := by
    intro p
    show p ∈ (swap 0 st.2 i (i + draw.1)).take (i + 1) ↔ _
    rw [htake, List.mem_append, List.mem_singleton]
  have hother : ∀ p, p ≠ p₀ → (st.1.set p₀ draw.2).getD p zero = st.1.getD p zero := by
    intro p hp
    simp [List.getD_eq_getElem?_getD, hp.symm]
  constructor
  · rw [hvalues, List.length_set, h.length_eq]
  · exact (swap_perm (by omega) hj).trans h.perm
  · intro p hp
    rw [hvalues]
    obtain hp | rfl := (hmem p).mp hp
    · have hne : p ≠ p₀ := fun heq => hnew (heq ▸ hp)
      rw [hother p hne]
      exact h.marked p hp
    · rw [List.getD_eq_getElem _ _ (by simpa using hp₀lt), List.getElem_set_self]
      exact hmark
  · intro p hp
    have hp := mt (hmem p).mpr hp
    push Not at hp
    rw [hvalues, hother p hp.2]
    exact h.unmarked p hp.1

/-- Rounds with draws that fit keep the invariant. -/
theorem rounds {draws : List (ℕ × β)} (h : Chosen Mark zero n i st) (hfits : OffsetsFit n i draws)
    (hmark : ∀ draw ∈ draws, ∀ p, Mark p draw.2) :
    Chosen Mark zero n (i + draws.length) (rounds i draws st) := by
  induction draws generalizing i st with
  | nil => exact h
  | cons draw draws ih =>
    obtain ⟨hdraw, hmarks⟩ := List.forall_mem_cons.mp hmark
    have hnext := ih (h.round hfits.1 (hdraw _)) hfits.2 hmarks
    rw [List.length_cons, Nat.add_comm draws.length, ← Nat.add_assoc]
    exact hnext

/-- A value is zero or a mark of some position. -/
theorem mem_values (h : Chosen Mark zero n i st) {x : β} (hx : x ∈ st.1) :
    x = zero ∨ ∃ p, Mark p x := by
  obtain ⟨p, hp, rfl⟩ := List.getElem_of_mem hx
  rw [← List.getD_eq_getElem _ zero hp]
  by_cases hmem : p ∈ st.2.take i
  · exact .inr ⟨p, h.marked p hmem⟩
  · exact .inl (h.unmarked p hmem)

end Chosen

/-- Draws that mark these positions, in this order. -/
theorem exists_rounds {f : ℕ → β} {zero : β} {n i : ℕ} {st : List β × List ℕ} (ps : List ℕ)
    (h : Chosen (fun p x => x = f p) zero n i st) (hnodup : ps.Nodup)
    (hps : ∀ p ∈ ps, p < n ∧ p ∉ st.2.take i) :
    ∃ draws, OffsetsFit n i draws ∧ draws.map Prod.snd = ps.map f ∧
      Chosen (fun p x => x = f p) zero n (i + ps.length) (rounds i draws st) ∧
      (rounds i draws st).2.take (i + ps.length) = st.2.take i ++ ps := by
  induction ps generalizing i st with
  | nil => exact ⟨[], trivial, rfl, h, (List.append_nil _).symm⟩
  | cons p ps ih =>
    obtain ⟨hp, hps⟩ := List.forall_mem_cons.mp hps
    obtain ⟨hfresh, hnodup⟩ := List.nodup_cons.mp hnodup
    -- The position stands somewhere from `i` on.
    obtain ⟨t, ht, hget⟩ : ∃ t, i + t < n ∧ st.2.getD (i + t) 0 = p := by
      obtain ⟨k, hk, hget⟩ := List.getElem_of_mem (h.perm.mem_iff.mpr (List.mem_range.mpr hp.1))
      have hik : i ≤ k := by
        by_contra hlt
        apply hp.2
        rw [List.mem_take_iff_getElem]
        exact ⟨k, by omega, hget⟩
      refine ⟨k - i, ?_, ?_⟩
      · rw [Nat.add_sub_cancel' hik, ← h.length_idxs]
        exact hk
      · rw [Nat.add_sub_cancel' hik, List.getD_eq_getElem _ _ hk, hget]
    have htake : (round st i (t, f p)).2.take (i + 1) = st.2.take i ++ [p] := by
      have hj : i + t < st.2.length := by
        rw [h.length_idxs]
        exact ht
      rw [← hget]
      exact take_succ_swap (Nat.le_add_right i t) hj
    have hnext : Chosen (fun p x => x = f p) zero n (i + 1) (round st i (t, f p)) :=
      h.round ht (by rw [hget])
    obtain ⟨draws, hfits, hmarks, hchosen, hdone⟩ := ih hnext hnodup fun q hq => by
      refine ⟨(hps q hq).1, ?_⟩
      rw [htake, List.mem_append, List.mem_singleton, not_or]
      exact ⟨(hps q hq).2, fun heq => hfresh (heq ▸ hq)⟩
    rw [List.length_cons, Nat.add_comm ps.length, ← Nat.add_assoc]
    refine ⟨(t, f p) :: draws, ⟨ht, hfits⟩, ?_, hchosen, ?_⟩
    · rw [List.map_cons, List.map_cons, hmarks]
    · rw [htake, List.append_assoc] at hdone
      exact hdone

/-! ## The marked positions -/

section Support

variable [DecidableEq β]

/-- The positions of the values other than `zero`. -/
def support (zero : β) (values : List β) : Finset ℕ :=
  (Finset.range values.length).filter fun p => values.getD p zero ≠ zero

/-- The support has as many positions as there are values other than zero. -/
theorem card_support (zero : β) (values : List β) :
    (support zero values).card = values.countP fun x => decide (x ≠ zero) := by
  have hvalues : values = (List.range values.length).map fun p => values.getD p zero := by
    apply List.ext_getElem
    · simp
    · intro p hp _
      simp [hp]
  conv_rhs => rw [hvalues, List.countP_map, List.countP_eq_length_filter]
  rfl

variable {Mark : ℕ → β → Prop} {zero : β} {n i : ℕ} {st : List β × List ℕ}

/-- The support is what the rounds have chosen. -/
theorem Chosen.support_eq (h : Chosen Mark zero n i st) (hmark : ∀ p x, Mark p x → x ≠ zero) :
    support zero st.1 = (st.2.take i).toFinset := by
  ext p
  rw [support, Finset.mem_filter, Finset.mem_range, List.mem_toFinset, h.length_eq]
  constructor
  · rintro ⟨-, hp⟩
    by_contra hrest
    exact hp (h.unmarked p hrest)
  · intro hp
    have hmem : p ∈ List.range n := h.perm.mem_iff.mp (List.mem_of_mem_take hp)
    exact ⟨List.mem_range.mp hmem, hmark p _ (h.marked p hp)⟩

/-- As many positions are marked as there were rounds. -/
theorem Chosen.card_support (h : Chosen Mark zero n i st) (hi : i ≤ n)
    (hmark : ∀ p x, Mark p x → x ≠ zero) : (support zero st.1).card = i := by
  rw [h.support_eq hmark, List.toFinset_card_of_nodup (h.nodup.sublist (List.take_sublist _ _)),
    List.length_take, h.length_idxs, Nat.min_eq_left hi]

end Support

end PartialShuffle
