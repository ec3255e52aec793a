import Mathlib.Algebra.GroupWithZero.Nat
import Mathlib.Data.List.Basic

/-!
# Strings in pieces

Strings arrive in pieces, of which the last one of each string says so. An assembly holds the
strings that are complete and what there is of the next one. However strings are cut, their
pieces assemble to them.
-/

set_option autoImplicit false

namespace Pieces

variable {α : Type}

/-- A piece of a string, and whether the string ends with it. -/
structure Piece (α : Type) where
  data : List α
  last : Bool

/-- Strings that are complete and one that is not. -/
structure Assembly (α : Type) where
  strings : List (List α)
  current : List α

namespace Assembly

/-- Nothing has arrived. -/
def empty : Assembly α := ⟨[], []⟩

/-- The next piece. -/
def push (a : Assembly α) (p : Piece α) : Assembly α :=
  if p.last then ⟨a.strings ++ [a.current ++ p.data], []⟩ else ⟨a.strings, a.current ++ p.data⟩

/-- Everything that has arrived, by its length. -/
def size (a : Assembly α) : ℕ := (a.strings.map List.length).sum + a.current.length

/-- All strings, the last of which may go on. -/
def all (a : Assembly α) : List (List α) := a.strings ++ [a.current]

/-- A piece adds its bytes. -/
theorem size_push (a : Assembly α) (p : Piece α) : (a.push p).size = a.size + p.data.length := by
  unfold push size
  split_ifs
  · simp [Nat.add_assoc]
  · simp [Nat.add_assoc]

/-- A bound on all strings held before it. -/
theorem length_le_of_push {a : Assembly α} {p : Piece α} {n : ℕ}
    (h : ∀ k ∈ (a.push p).all, k.length ≤ n) : ∀ k ∈ a.all, k.length ≤ n := by
  have hcurrent : a.current.length ≤ (a.current ++ p.data).length := by simp
  unfold push all at h
  intro k hk
  obtain hk | hk := List.mem_append.mp hk
  · apply h
    split_ifs
    · simp [hk]
    · simp [hk]
  · rw [List.mem_singleton.mp hk]
    refine Nat.le_trans hcurrent (h _ ?_)
    split_ifs
    · simp
    · simp

/-- With everything short before, a piece leaves everything short if its string does not get too
long. -/
theorem all_push_length_le_iff {a : Assembly α} {p : Piece α} {n : ℕ}
    (h : ∀ k ∈ a.all, k.length ≤ n) :
    (∀ k ∈ (a.push p).all, k.length ≤ n) ↔ (a.current ++ p.data).length ≤ n := by
  constructor
  · intro hall
    apply hall
    unfold push all
    split_ifs
    · simp
    · simp
  · intro hcurrent k hk
    have hstrings : ∀ k ∈ a.strings, k.length ≤ n := fun k hk => h k (by simp [all, hk])
    unfold push all at hk
    split_ifs at hk
    · simp only [List.append_assoc, List.mem_append, List.mem_singleton] at hk
      obtain hk | rfl | rfl := hk
      · exact hstrings k hk
      · exact hcurrent
      · exact Nat.zero_le n
    · obtain hk | hk := List.mem_append.mp hk
      · exact hstrings k hk
      · rw [List.mem_singleton.mp hk]
        exact hcurrent

/-- Each piece that is the last one of its string completes it. -/
theorem length_strings_foldl_push (ps : List (Piece α)) (a : Assembly α) :
    (ps.foldl push a).strings.length = a.strings.length + ps.countP Piece.last := by
  induction ps generalizing a with
  | nil => rfl
  | cons p ps ih =>
    rw [List.foldl_cons, ih, List.countP_cons]
    unfold push
    split_ifs
    · simp
      omega
    · simp

end Assembly

/-- The pieces cut the strings: each string into one or more, in order, the last one marked. -/
inductive Cuts : List (Piece α) → List (List α) → Prop
  | nil : Cuts [] []
  | last {ps : List (Piece α)} {ks : List (List α)} (data : List α) :
      Cuts ps ks → Cuts (⟨data, true⟩ :: ps) (data :: ks)
  | more {ps : List (Piece α)} {k : List α} {ks : List (List α)} (data : List α) :
      Cuts ps (k :: ks) → Cuts (⟨data, false⟩ :: ps) ((data ++ k) :: ks)

/-- Pieces go on the string that has begun. -/
theorem Cuts.foldl_push {ps : List (Piece α)} {ks : List (List α)} (h : Cuts ps ks)
    (strings : List (List α)) (current : List α) :
    ps.foldl Assembly.push ⟨strings, current⟩ = match ks with
      | [] => ⟨strings, current⟩
      | k :: ks => ⟨strings ++ (current ++ k) :: ks, []⟩ := by
  induction h generalizing strings current with
  | nil => rfl
  | last data h ih =>
    rw [List.foldl_cons, Assembly.push, if_pos rfl, ih]
    split
    · rfl
    · simp
  | more data h ih =>
    rw [List.foldl_cons, Assembly.push, if_neg Bool.false_ne_true, ih]
    simp

/-- The pieces of strings assemble to them. -/
theorem Cuts.assemble {ps : List (Piece α)} {ks : List (List α)} (h : Cuts ps ks) :
    ps.foldl Assembly.push .empty = ⟨ks, []⟩ := by
  rw [Assembly.empty, h.foldl_push]
  cases ks with
  | nil => rfl
  | cons k ks => simp

end Pieces
