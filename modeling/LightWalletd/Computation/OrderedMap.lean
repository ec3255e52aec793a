import Mathlib.Algebra.GroupWithZero.Nat
import Mathlib.Order.Basic
import Mathlib.Data.List.Basic
import Mathlib.Data.List.Range
import Mathlib.Data.List.Sort
import Mathlib.Tactic.Common

/-!
# Ordered maps

A finite map that is read in key order: what an embedded key-value store keeps
in one of its trees. The rows are a list sorted by key, so that a range scan is a
filter of the list and the invariant travels with the value. Everything below is
over arbitrary keys and values; `get_ext` reduces equality of maps to equality of
lookups, and `rows_flatMap_eq_range` turns a scan of rows keyed by naturals into a
sum over all naturals below a bound.
-/

set_option autoImplicit false

namespace Stateful

/-- Rows sorted strictly by key. -/
structure OrderedMap (K V : Type) [LinearOrder K] where
  rows : List (K × V)
  sorted : rows.Pairwise (fun a b => a.1 < b.1)

namespace OrderedMap

variable {K V : Type} [LinearOrder K]

/-- The map without rows. -/
def empty : OrderedMap K V := ⟨[], List.Pairwise.nil⟩

/-- The value under `k`. -/
def get (m : OrderedMap K V) (k : K) : Option V :=
  (m.rows.find? fun r => decide (r.1 = k)).map Prod.snd

/-- The rows whose key satisfies `p`. -/
def filter (p : K → Bool) (m : OrderedMap K V) : OrderedMap K V :=
  ⟨m.rows.filter fun r => p r.1, m.sorted.sublist List.filter_sublist⟩

/-- The rows that satisfy `p`. -/
def retain (p : K → V → Bool) (m : OrderedMap K V) : OrderedMap K V :=
  ⟨m.rows.filter fun r => p r.1 r.2, m.sorted.sublist List.filter_sublist⟩

/-- The map without the row under `k`. -/
def remove (m : OrderedMap K V) (k : K) : OrderedMap K V :=
  m.filter fun k' => decide (k' ≠ k)

/-- The map with the row `(k, v)`, replacing the row under `k`. -/
def insert (m : OrderedMap K V) (k : K) (v : V) : OrderedMap K V where
  rows := (m.rows.filter fun r => decide (r.1 < k)) ++
    (k, v) :: m.rows.filter fun r => decide (k < r.1)
  sorted := by
    refine List.pairwise_append.mpr ⟨m.sorted.sublist List.filter_sublist, ?_, ?_⟩
    · refine List.pairwise_cons.mpr ⟨?_, m.sorted.sublist List.filter_sublist⟩
      intro r hr
      simpa using (List.mem_filter.mp hr).2
    · intro a ha b hb
      have hak : a.1 < k := by simpa using (List.mem_filter.mp ha).2
      rcases List.mem_cons.mp hb with rfl | hb
      · exact hak
      · exact hak.trans (by simpa using (List.mem_filter.mp hb).2)

/-- The map with the row `r` unless its key has one. -/
def fillRow (m : OrderedMap K V) (r : K × V) : OrderedMap K V :=
  match m.get r.1 with
  | none => m.insert r.1 r.2
  | some _ => m

/-- The map with those of `rows` whose keys have none, the first one of each key. -/
def fill (m : OrderedMap K V) (rows : List (K × V)) : OrderedMap K V := rows.foldl fillRow m

/-- The map without the rows under `ks`, removed one by one. -/
def removeAll (m : OrderedMap K V) (ks : List K) : OrderedMap K V := ks.foldl remove m

/-- The keys in ascending order. -/
def keys (m : OrderedMap K V) : List K := m.rows.map Prod.fst

/-- The map with `f` applied to every value. -/
def map {W : Type} (f : V → W) (m : OrderedMap K V) : OrderedMap K W :=
  ⟨m.rows.map fun r => (r.1, f r.2), List.pairwise_map.mpr m.sorted⟩

/-- A sum over the rows. -/
def sumOf (f : K → V → ℕ) (m : OrderedMap K V) : ℕ := (m.rows.map fun r => f r.1 r.2).sum

/-- The last row whose key is at most `k`. -/
def lastUpTo (m : OrderedMap K V) (k : K) : Option (K × V) :=
  (m.filter fun k' => decide (k' ≤ k)).rows.getLast?

/-! ## Lookups -/

/-- A key occurs in at most one row. -/
theorem eq_of_mem_rows {m : OrderedMap K V} {k : K} {v w : V} (hv : (k, v) ∈ m.rows)
    (hw : (k, w) ∈ m.rows) : v = w := by
  by_contra hne
  have hp : m.rows.Pairwise fun a b => a.1 ≠ b.1 := m.sorted.imp fun h => h.ne
  have hpair : (k, v) ≠ (k, w) := fun e => hne (congrArg Prod.snd e)
  have : Std.Symm (fun a b : K × V => a.1 ≠ b.1) := ⟨fun _ _ h e => h e.symm⟩
  exact hp.forall hv hw hpair rfl

/-- A lookup succeeds exactly on the rows. -/
theorem get_eq_some_iff (m : OrderedMap K V) (k : K) (v : V) :
    m.get k = some v ↔ (k, v) ∈ m.rows := by
  constructor
  · intro h
    obtain ⟨r, hr, rfl⟩ := Option.map_eq_some_iff.mp h
    have hk := List.find?_some hr
    have hm := List.mem_of_find?_eq_some hr
    have : r.1 = k := by simpa using hk
    subst this
    exact hm
  · intro h
    cases hf : m.rows.find? fun r => decide (r.1 = k) with
    | none =>
      have := List.find?_eq_none.mp hf (k, v) h
      simp at this
    | some r =>
      have hk : r.1 = k := by simpa using List.find?_some hf
      have hm := List.mem_of_find?_eq_some hf
      subst hk
      have := eq_of_mem_rows (v := r.2) hm h
      simp [get, hf, this]

/-- A lookup fails exactly when no row has the key. -/
theorem get_eq_none_iff (m : OrderedMap K V) (k : K) :
    m.get k = none ↔ ∀ v, (k, v) ∉ m.rows := by
  constructor
  · intro h v hv
    rw [← get_eq_some_iff, h] at hv
    cases hv
  · intro h
    cases hg : m.get k with
    | none => rfl
    | some v => exact absurd ((m.get_eq_some_iff k v).mp hg) (h v)

/-- Nothing is in the empty map. -/
@[simp] theorem get_empty (k : K) : (empty : OrderedMap K V).get k = none := rfl

/-- The empty map has no rows. -/
@[simp] theorem rows_empty : (empty : OrderedMap K V).rows = [] := rfl

/-- A filtered map answers only for the keys it keeps. -/
@[simp] theorem get_filter (p : K → Bool) (m : OrderedMap K V) (k : K) :
    (m.filter p).get k = if p k then m.get k else none := by
  apply Option.ext
  intro v
  rw [get_eq_some_iff]
  simp only [filter, List.mem_filter]
  by_cases hp : p k <;> simp [hp, get_eq_some_iff]

/-- What is retained is what the test admits. -/
@[simp] theorem get_retain (p : K → V → Bool) (m : OrderedMap K V) (k : K) :
    (m.retain p).get k = (m.get k).filter (p k) := by
  apply Option.ext
  intro v
  rw [get_eq_some_iff, Option.filter_eq_some_iff, get_eq_some_iff]
  exact List.mem_filter

/-- The rows of a filtered map are those it keeps. -/
theorem mem_rows_filter {p : K → Bool} {m : OrderedMap K V} {r : K × V} :
    r ∈ (m.filter p).rows ↔ p r.1 = true ∧ m.get r.1 = some r.2 := by
  rw [← get_eq_some_iff, get_filter]
  split_ifs with h <;> simp [h]

/-- Mapping the values maps the lookups. -/
@[simp] theorem get_map {W : Type} (f : V → W) (m : OrderedMap K V) (k : K) :
    (m.map f).get k = (m.get k).map f := by
  unfold get map
  rw [List.find?_map]
  simp [Option.map_map, Function.comp_def]

/-- Looking up a key among the rows. -/
theorem lookup_rows [BEq K] [LawfulBEq K] (m : OrderedMap K V) (k : K) :
    m.rows.lookup k = m.get k := by
  unfold get
  induction m.rows with
  | nil => rfl
  | cons r rows ih =>
    obtain ⟨k', v⟩ := r
    by_cases h : k' = k
    · simp [h]
    · have hne : (k == k') = false := by simpa using Ne.symm h
      simp [List.lookup_cons, hne, h, ih]

/-- Mapping the values keeps the keys, so it commutes with a scan. -/
theorem rows_filter_map {W : Type} (f : V → W) (p : K → Bool) (m : OrderedMap K V) :
    ((m.map f).filter p).rows = (m.filter p).rows.map fun r => (r.1, f r.2) := by
  show (m.rows.map fun r => (r.1, f r.2)).filter (fun r => p r.1) = _
  rw [List.filter_map]
  rfl

/-- Removing a row changes the lookup of its key only. -/
@[simp] theorem get_remove (m : OrderedMap K V) (k k' : K) :
    (m.remove k).get k' = if k' = k then none else m.get k' := by
  unfold remove
  rw [get_filter]
  by_cases h : k' = k <;> simp [h]

/-- Removing rows one by one changes the lookups of their keys only. -/
theorem get_removeAll (m : OrderedMap K V) (ks : List K) (k : K) :
    (m.removeAll ks).get k = if k ∈ ks then none else m.get k := by
  induction ks generalizing m with
  | nil => simp [removeAll]
  | cons k₀ ks ih =>
    have hih := ih (m.remove k₀)
    unfold removeAll at hih ⊢
    rw [List.foldl_cons, hih, get_remove]
    by_cases h : k = k₀ <;> simp [h]

/-- Inserting a row changes the lookup of its key only. -/
@[simp] theorem get_insert (m : OrderedMap K V) (k k' : K) (v : V) :
    (m.insert k v).get k' = if k' = k then some v else m.get k' := by
  apply Option.ext
  intro w
  rw [get_eq_some_iff]
  simp only [insert, List.mem_append, List.mem_cons, List.mem_filter, Prod.mk.injEq,
    decide_eq_true_eq]
  by_cases h : k' = k
  · subst h
    simp [eq_comm]
  · rw [if_neg h, get_eq_some_iff]
    rcases lt_or_gt_of_ne h with hlt | hgt
    · simp [h, hlt, not_lt_of_gt hlt]
    · simp [h, hgt, not_lt_of_gt hgt]

/-- The keys are those with a row. -/
theorem mem_keys_iff (m : OrderedMap K V) (k : K) : k ∈ m.keys ↔ (m.get k).isSome := by
  unfold keys
  rw [Option.isSome_iff_exists]
  simp only [List.mem_map, Prod.exists, exists_and_right, exists_eq_right, get_eq_some_iff]

/-- The keys are listed in ascending order. -/
theorem pairwise_keys (m : OrderedMap K V) : m.keys.Pairwise (· < ·) :=
  List.pairwise_map.mpr m.sorted

/-- Two maps with the same lookups are equal: a sorted list is determined by its members. -/
theorem get_ext {m m' : OrderedMap K V} (h : ∀ k, m.get k = m'.get k) : m = m' := by
  have hmem : ∀ r : K × V, r ∈ m.rows ↔ r ∈ m'.rows := by
    rintro ⟨k, v⟩
    rw [← get_eq_some_iff, ← get_eq_some_iff, h]
  have hnd : ∀ n : OrderedMap K V, n.rows.Nodup := fun n =>
    n.sorted.imp fun hab e => absurd (congrArg Prod.fst e) hab.ne
  have hperm : m.rows.Perm m'.rows := (List.perm_ext_iff_of_nodup (hnd m) (hnd m')).mpr hmem
  have hrows : m.rows = m'.rows :=
    hperm.eq_of_pairwise (fun a b _ _ hab hba => absurd hab (lt_asymm hba)) m.sorted m'.sorted
  cases m
  cases m'
  simpa using hrows

/-! ## Filling -/

/-- A filled row is there unless the key had one before. -/
theorem get_fillRow (m : OrderedMap K V) (r : K × V) (k : K) :
    (m.fillRow r).get k = (m.get k).or (if k = r.1 then some r.2 else none) := by
  unfold fillRow
  by_cases h : k = r.1
  · rw [if_pos h, h]
    cases hm : m.get r.1 with
    | none => rw [get_insert, if_pos rfl, Option.none_or]
    | some v => rw [hm, Option.some_or]
  · rw [if_neg h, Option.or_none]
    cases m.get r.1 with
    | none => rw [get_insert, if_neg h]
    | some v => rfl

/-- Rows that are there stay; the others answer for the keys that have none. -/
theorem get_fill (m old : OrderedMap K V) (k : K) :
    (m.fill old.rows).get k = (m.get k).or (old.get k) := by
  classical
  rw [← lookup_rows old]
  unfold fill
  induction old.rows generalizing m with
  | nil => rw [List.foldl_nil, List.lookup_nil, Option.or_none]
  | cons r rows ih =>
    rw [List.foldl_cons, ih, get_fillRow, Option.or_assoc, List.lookup_cons]
    by_cases h : k = r.1
    · simp [h]
    · have hne : (k == r.1) = false := beq_false_of_ne h
      rw [hne, if_neg h, Option.none_or]

/-- Filling in one of the rows first changes nothing. -/
theorem fill_fillRow {m old : OrderedMap K V} {r : K × V} (h : r ∈ old.rows) :
    (m.fillRow r).fill old.rows = m.fill old.rows := by
  have hget : old.get r.1 = some r.2 := (old.get_eq_some_iff r.1 r.2).mpr h
  apply get_ext
  intro k
  rw [get_fill, get_fill, get_fillRow, Option.or_assoc]
  by_cases hk : k = r.1
  · rw [if_pos hk, hk, hget, Option.some_or]
  · rw [if_neg hk, Option.none_or]

/-- Filling twice is filling once. -/
theorem fill_fill (m old : OrderedMap K V) :
    (m.fill old.rows).fill old.rows = m.fill old.rows := by
  apply get_ext
  intro k
  rw [get_fill, get_fill, Option.or_assoc, Option.or_self]

/-- Filtering twice is filtering once. -/
theorem filter_filter_self (p : K → Bool) (m : OrderedMap K V) :
    (m.filter p).filter p = m.filter p := by
  apply get_ext
  intro k
  by_cases hp : p k <;> simp [hp]

/-! ## Rows with a property -/

/-- Every row has the property. -/
def All (P : K → V → Prop) (m : OrderedMap K V) : Prop := ∀ k v, m.get k = some v → P k v

section All

variable {P : K → V → Prop} {m : OrderedMap K V}

/-- Every condition holds of all rows of the empty map. -/
theorem all_empty (P : K → V → Prop) : (empty : OrderedMap K V).All P := by
  simp [All]

/-- An insert of a row that meets a condition keeps it for all rows. -/
theorem All.insert (h : m.All P) {k : K} {v : V} (hv : P k v) : (m.insert k v).All P := by
  intro k' v' hget
  rw [get_insert] at hget
  split_ifs at hget with heq
  · obtain rfl : v = v' := by simpa using hget
    rwa [heq]
  · exact h k' v' hget

/-- A removal keeps a condition on all rows. -/
theorem All.remove (h : m.All P) (k : K) : (m.remove k).All P := by
  intro k' v' hget
  rw [get_remove] at hget
  split_ifs at hget
  exact h k' v' hget

end All

/-! ## Sums -/

section Sums

variable (f : K → V → ℕ)

/-- The rows that are kept and those that are not. -/
theorem sumOf_retain_add (p : K → V → Bool) (m : OrderedMap K V) :
    (m.retain p).sumOf f + (m.retain fun k v => !p k v).sumOf f = m.sumOf f := by
  unfold sumOf retain
  dsimp only
  induction m.rows with
  | nil => rfl
  | cons r rows ih =>
    simp only [List.filter_cons, List.map_cons, List.sum_cons] at ih ⊢
    cases hp : p r.1 r.2 with
    | false =>
      simp only [Bool.not_false, if_true, Bool.false_eq_true, if_false, List.map_cons,
        List.sum_cons]
      omega
    | true =>
      simp only [Bool.not_true, if_true, Bool.false_eq_true, if_false, List.map_cons,
        List.sum_cons]
      omega

/-- At most one row has the key. -/
theorem sumOf_retain_eq (m : OrderedMap K V) (k : K) :
    (m.retain fun k' _ => decide (k' = k)).sumOf f = ((m.get k).map (f k)).getD 0 := by
  cases hk : m.get k with
  | none =>
    have hempty : (m.retain fun k' _ => decide (k' = k)) = empty := by
      apply get_ext
      intro k'
      rw [get_retain, get_empty]
      by_cases h : k' = k
      · rw [h, hk]
        rfl
      · cases m.get k' <;> simp [h]
    rw [hempty]
    rfl
  | some v =>
    have hsingle : (m.retain fun k' _ => decide (k' = k)) = empty.insert k v := by
      apply get_ext
      intro k'
      rw [get_retain, get_insert]
      by_cases h : k' = k
      · rw [h, hk, if_pos rfl]
        simp
      · rw [if_neg h, get_empty]
        cases m.get k' <;> simp [h]
    rw [hsingle]
    simp [sumOf, insert]

/-- The sum without a row. -/
theorem sumOf_remove_add (m : OrderedMap K V) (k : K) :
    (m.remove k).sumOf f + ((m.get k).map (f k)).getD 0 = m.sumOf f := by
  rw [← sumOf_retain_eq f m k, ← sumOf_retain_add f (fun k' _ => decide (k' ≠ k)) m]
  congr 2
  simp

/-- The sum with a row in place of the one under its key. -/
theorem sumOf_insert (m : OrderedMap K V) (k : K) (v : V) :
    (m.insert k v).sumOf f = (m.remove k).sumOf f + f k v := by
  have hremove : (m.insert k v).remove k = m.remove k := by
    apply get_ext
    intro k'
    rw [get_remove, get_remove, get_insert]
    by_cases h : k' = k
    · rw [if_pos h, if_pos h]
    · rw [if_neg h, if_neg h, if_neg h]
  rw [← sumOf_remove_add f (m.insert k v) k, hremove, get_insert, if_pos rfl]
  rfl

/-- The sum is over the rows that are there. -/
theorem sumOf_congr {f g : K → V → ℕ} {m : OrderedMap K V}
    (h : ∀ k v, m.get k = some v → f k v = g k v) : m.sumOf f = m.sumOf g := by
  unfold sumOf
  congr 1
  apply List.map_congr_left
  intro r hr
  exact h r.1 r.2 ((get_eq_some_iff m r.1 r.2).mpr hr)

/-- Each row is part of the sum. -/
theorem le_sumOf {m : OrderedMap K V} {k : K} {v : V} (h : m.get k = some v) :
    f k v ≤ m.sumOf f := by
  have hsum := sumOf_remove_add f m k
  rw [h, Option.map_some, Option.getD_some] at hsum
  omega

/-- The number of rows is the sum of ones. -/
theorem length_rows (m : OrderedMap K V) : m.rows.length = m.sumOf fun _ _ => 1 := by
  simp [sumOf]

end Sums

/-- Removing the keys that satisfy `p` in a map that has all keys of `m'` leaves the rows
of `m'` whose key does not satisfy it. -/
theorem removeAll_keys_filter_of_support {W : Type} {m : OrderedMap K V} {m' : OrderedMap K W}
    (hsup : ∀ k, m.get k = none → m'.get k = none) (p : K → Bool) :
    m'.removeAll (m.filter p).keys = m'.filter fun k => !p k := by
  apply get_ext
  intro k
  rw [get_removeAll, get_filter]
  by_cases hp : p k
  · cases hk : m.get k with
    | none => simp [mem_keys_iff, hp, hk, hsup k hk]
    | some v => simp [mem_keys_iff, hp, hk]
  · simp [mem_keys_iff, hp]

/-- Removing the keys that satisfy `p` leaves the rows whose key does not. -/
theorem removeAll_keys_filter (m : OrderedMap K V) (p : K → Bool) :
    m.removeAll (m.filter p).keys = m.filter fun k => !p k :=
  removeAll_keys_filter_of_support (fun _ h => h) p

/-- Maps are compared row by row. -/
instance [DecidableEq V] : DecidableEq (OrderedMap K V) := fun m m' =>
  decidable_of_iff (m.rows = m'.rows) (by cases m; cases m'; simp)

/-! ## Scans -/

/-- The last row at or below `k` is the row of the greatest key at or below `k`. -/
theorem lastUpTo_eq_some_iff (m : OrderedMap K V) (k k₀ : K) (v : V) :
    m.lastUpTo k = some (k₀, v) ↔
      m.get k₀ = some v ∧ k₀ ≤ k ∧ ∀ k', (m.get k').isSome → k' ≤ k → k' ≤ k₀ := by
  set f := m.filter fun k' => decide (k' ≤ k) with hf
  have hget : ∀ k', f.get k' = if k' ≤ k then m.get k' else none := by
    intro k'
    simp [hf]
  constructor
  · intro h
    have hlast : f.rows.getLast? = some (k₀, v) := h
    obtain ⟨pre, hpre⟩ := List.getLast?_eq_some_iff.mp hlast
    have hmem : (k₀, v) ∈ f.rows := by simp [hpre]
    have hv := (f.get_eq_some_iff k₀ v).mpr hmem
    rw [hget] at hv
    have hle : k₀ ≤ k := by
      by_contra hn
      simp [hn] at hv
    rw [if_pos hle] at hv
    refine ⟨hv, hle, fun k' hk' hk'le => ?_⟩
    obtain ⟨w, hw⟩ := Option.isSome_iff_exists.mp hk'
    have hwm : (k', w) ∈ f.rows := (f.get_eq_some_iff k' w).mp (by rw [hget, if_pos hk'le, hw])
    have hsorted := f.sorted
    rw [hpre] at hsorted hwm
    rcases List.mem_append.mp hwm with hin | hin
    · exact ((List.pairwise_append.mp hsorted).2.2 _ hin (k₀, v) (by simp)).le
    · simp only [List.mem_singleton, Prod.mk.injEq] at hin
      exact hin.1.le
  · rintro ⟨hv, hle, hmax⟩
    have hmem : (k₀, v) ∈ f.rows := (f.get_eq_some_iff k₀ v).mp (by rw [hget, if_pos hle, hv])
    have hne : f.rows ≠ [] := List.ne_nil_of_mem hmem
    obtain ⟨⟨k₁, w⟩, hlast⟩ : ∃ r, f.rows.getLast? = some r :=
      ⟨_, List.getLast?_eq_some_getLast hne⟩
    obtain ⟨pre, hpre⟩ := List.getLast?_eq_some_iff.mp hlast
    have hw := (f.get_eq_some_iff k₁ w).mpr (by simp [hpre])
    rw [hget] at hw
    have hle₁ : k₁ ≤ k := by
      by_contra hn
      simp [hn] at hw
    rw [if_pos hle₁] at hw
    have h10 : k₁ ≤ k₀ := hmax k₁ (by simp [hw]) hle₁
    have h01 : k₀ ≤ k₁ := by
      have hsorted := f.sorted
      rw [hpre] at hsorted hmem
      rcases List.mem_append.mp hmem with hin | hin
      · exact ((List.pairwise_append.mp hsorted).2.2 _ hin (k₁, w) (by simp)).le
      · simp only [List.mem_singleton, Prod.mk.injEq] at hin
        exact hin.1.le
    have heq := le_antisymm h10 h01
    subst heq
    rw [hv] at hw
    cases hw
    exact hlast

/-- There is no last row at or below `k` exactly when no key is at or below `k`. -/
theorem lastUpTo_eq_none_iff (m : OrderedMap K V) (k : K) :
    m.lastUpTo k = none ↔ ∀ k' ≤ k, m.get k' = none := by
  unfold lastUpTo
  rw [List.getLast?_eq_none_iff]
  constructor
  · intro h k' hk'
    have hnone : (m.filter fun k' => decide (k' ≤ k)).get k' = none := by
      simp [get, h]
    simpa [hk'] using hnone
  · intro h
    apply List.eq_nil_iff_forall_not_mem.mpr
    rintro ⟨k', v⟩ hmem
    have hk' := (List.mem_filter.mp hmem)
    have hle : k' ≤ k := by simpa using hk'.2
    have := (m.get_eq_some_iff k' v).mpr hk'.1
    rw [h k' hle] at this
    cases this

/-- Rows above `k` do not count for the last row at or below `k`. -/
theorem lastUpTo_filter_le (m : OrderedMap K V) (k : K) :
    (m.filter fun k' => decide (k' ≤ k)).lastUpTo k = m.lastUpTo k := by
  unfold lastUpTo
  rw [filter_filter_self]

/-- Behind the first row of a filtered map are the rows with larger keys. -/
theorem rows_filter_of_head? {m : OrderedMap K V} {p : K → Bool} {k : K} {v : V}
    (h : (m.filter p).rows.head? = some (k, v)) :
    (m.filter p).rows = (k, v) :: (m.filter fun k' => p k' && decide (k < k')).rows := by
  have hsorted := (m.filter p).sorted
  have hsplit : (m.filter fun k' => p k' && decide (k < k')).rows =
      (m.filter p).rows.filter fun r => decide (k < r.1) := by
    show m.rows.filter _ = (m.rows.filter _).filter _
    rw [List.filter_filter]
    exact List.filter_congr fun r _ => Bool.and_comm _ _
  obtain ⟨rest, hrows⟩ : ∃ rest, (m.filter p).rows = (k, v) :: rest := by
    apply List.head?_eq_some_iff.mp
    exact h
  rw [hrows] at hsorted hsplit
  rw [hsplit, hrows, List.filter_cons_of_neg (by simp)]
  congr 1
  refine (List.filter_eq_self.mpr fun r hr => ?_).symm
  exact decide_eq_true (List.rel_of_pairwise_cons hsorted hr)

/-- The row under the least key that `p` admits is the first one. -/
theorem head?_rows_filter_of_get {m : OrderedMap K V} {p : K → Bool} {k : K} {v : V}
    (hget : m.get k = some v) (hp : p k = true) (hleast : ∀ k', p k' = true → k ≤ k') :
    (m.filter p).rows.head? = some (k, v) := by
  have hmem : (k, v) ∈ (m.filter p).rows := mem_rows_filter.mpr ⟨hp, hget⟩
  have hsorted := (m.filter p).sorted
  cases hrows : (m.filter p).rows with
  | nil =>
    rw [hrows] at hmem
    cases hmem
  | cons r rest =>
    have hr : p r.1 = true := (mem_rows_filter.mp (by rw [hrows]; exact List.mem_cons_self)).1
    rw [hrows] at hmem hsorted
    rcases List.mem_cons.mp hmem with rfl | hmem
    · rfl
    · have hlt := List.rel_of_pairwise_cons hsorted hmem
      exact absurd (hleast r.1 hr) (not_le.mpr hlt)

/-- Concatenating over rows keyed by naturals in `[lo, lo + n)` is concatenating over
all naturals of the interval, a key without a row contributing nothing. -/
theorem rows_flatMap_eq_range' {V C : Type} (m : OrderedMap ℕ V) (g : ℕ → V → List C) (lo n : ℕ)
    (h : ∀ k, (m.get k).isSome → lo ≤ k ∧ k < lo + n) :
    (m.rows.flatMap fun r => g r.1 r.2) =
      (List.range' lo n).flatMap fun k => (m.get k).elim [] (g k) := by
  obtain ⟨rows, sorted⟩ := m
  induction n generalizing lo rows with
  | zero =>
    cases rows with
    | nil => rfl
    | cons r rs =>
      have := h r.1 (by simp [get])
      omega
  | succ n ih =>
    rw [List.range'_succ, List.flatMap_cons]
    cases rows with
    | nil =>
      have hz : ∀ k, (OrderedMap.mk ([] : List (ℕ × V)) sorted).get k = none := fun k => rfl
      simp [hz]
    | cons r rs =>
      have hr := h r.1 (by simp [get])
      have hlater : ∀ q ∈ rs, r.1 < q.1 := (List.pairwise_cons.mp sorted).1
      by_cases hlo : r.1 = lo
      · have htail : ∀ k, lo + 1 ≤ k →
            (OrderedMap.mk (r :: rs) sorted).get k =
              (OrderedMap.mk rs (List.pairwise_cons.mp sorted).2).get k := by
          intro k hk
          simp [get, show r.1 ≠ k by omega]
        have hih := ih (lo + 1) rs (List.pairwise_cons.mp sorted).2 (by
          intro k hk
          obtain ⟨v, hv⟩ := Option.isSome_iff_exists.mp hk
          have hm := (get_eq_some_iff _ k v).mp hv
          have hgt := hlater _ hm
          have := h k (by
            rw [htail k (by simp at hgt; omega)]
            exact hk)
          simp at hgt
          omega)
        rw [List.flatMap_cons, hih]
        congr 1
        · simp [get, ← hlo]
        · apply List.flatMap_congr
          intro k hk
          rw [htail k (by simp at hk; omega)]
      · have hnone : (OrderedMap.mk (r :: rs) sorted).get lo = none := by
          rw [get_eq_none_iff]
          intro v hv
          rcases List.mem_cons.mp hv with heq | hin
          · exact hlo (congrArg Prod.fst heq).symm
          · have := hlater _ hin
            simp at this
            omega
        rw [hnone]
        refine ih (lo + 1) (r :: rs) sorted ?_
        intro k hk
        have hb := h k hk
        have : k ≠ lo := by
          rintro rfl
          rw [hnone] at hk
          cases hk
        omega

/-- Concatenating over rows keyed by naturals below `n` is concatenating over all
naturals below `n`. -/
theorem rows_flatMap_eq_range {V C : Type} (m : OrderedMap ℕ V) (g : ℕ → V → List C) (n : ℕ)
    (h : ∀ k, (m.get k).isSome → k < n) :
    (m.rows.flatMap fun r => g r.1 r.2) =
      (List.range n).flatMap fun k => (m.get k).elim [] (g k) := by
  rw [rows_flatMap_eq_range' m g 0 n (fun k hk => ⟨Nat.zero_le k, by simpa using h k hk⟩),
    ← List.range_eq_range']

end OrderedMap

end Stateful
