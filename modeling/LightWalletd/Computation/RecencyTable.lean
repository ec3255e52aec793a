import LightWalletd.Computation.OrderedMap
import Mathlib.Data.Finset.Card
import Mathlib.Data.List.Sort

/-!
# A table of recent values

A table remembers the last value of each key for some time, and not more keys than it has room for:
a new key first makes room by removing those that were remembered longest ago, in some order among
those remembered at one time. What the table says is what was remembered last. What it does not say
any more is too old, or there were too many others since.
-/

set_option autoImplicit false

namespace RecencyTable

open Stateful

variable {K V : Type} [LinearOrder K]

/-! ## The table -/

/-- The value of a key, and when it was remembered. -/
abbrev Table (K V : Type) [LinearOrder K] : Type := OrderedMap K (V × ℕ)

/-- An order in which a hash map lists its entries. -/
structure Listing (α : Type) where
  list : List α → List α
  perm : ∀ l, (list l).Perm l

/-- The entries that are not too old. -/
def live (ttl now : ℕ) (t : Table K V) : Table K V :=
  t.retain fun _ e => decide (now - e.2 < ttl)

/-- The entries, the oldest first. -/
def byAge (listing : Listing (K × V × ℕ)) (t : Table K V) : List (K × V × ℕ) :=
  (listing.list t.rows).insertionSort fun a b => a.2.2 ≤ b.2.2

/-- Room for one key more, if there is room for any. -/
def makeRoom (listing : Listing (K × V × ℕ)) (capacity : ℕ) (t : Table K V) : Table K V :=
  if capacity ≤ t.rows.length then
    t.removeAll (((byAge listing t).take (t.rows.length - capacity + 1)).map Prod.fst)
  else t

/-- Enter a value: drop what is too old, make room, and insert. -/
def remember (listing : Listing (K × V × ℕ)) (ttl capacity now : ℕ) (key : K) (value : V)
    (t : Table K V) : Table K V :=
  (makeRoom listing capacity (live ttl now t)).insert key (value, now)

/-! ## Keys -/

/-- The keys of a table. -/
def keySet (t : Table K V) : Finset K := t.keys.toFinset

/-- The keys of a table are those that have an entry. -/
theorem mem_keySet {t : Table K V} {k : K} : k ∈ keySet t ↔ (t.get k).isSome := by
  unfold keySet
  rw [List.mem_toFinset, OrderedMap.mem_keys_iff]

/-- No key is listed twice. -/
theorem nodup_keys (t : Table K V) : t.keys.Nodup :=
  t.pairwise_keys.imp fun hlt => hlt.ne

/-- There are as many keys as entries. -/
theorem card_keySet (t : Table K V) : (keySet t).card = t.rows.length := by
  unfold keySet
  rw [List.toFinset_card_of_nodup (nodup_keys t), OrderedMap.keys, List.length_map]

/-- An insert adds its key. -/
theorem keySet_insert (t : Table K V) (key : K) (e : V × ℕ) :
    keySet (t.insert key e) = insert key (keySet t) := by
  ext k
  rw [mem_keySet, Finset.mem_insert, mem_keySet, OrderedMap.get_insert]
  split_ifs with h <;> simp [h]

/-- A removal takes its keys away. -/
theorem keySet_removeAll (t : Table K V) (keys : List K) :
    keySet (t.removeAll keys) = keySet t \ keys.toFinset := by
  ext k
  rw [mem_keySet, Finset.mem_sdiff, mem_keySet, List.mem_toFinset, OrderedMap.get_removeAll]
  split_ifs with h <;> simp [h]

/-- What is live was there. -/
theorem keySet_live_subset (ttl now : ℕ) (t : Table K V) : keySet (live ttl now t) ⊆ keySet t := by
  intro k hk
  rw [mem_keySet] at hk ⊢
  unfold live at hk
  rw [OrderedMap.get_retain] at hk
  exact Option.isSome_of_isSome_filter _ _ hk

/-- The live entries are those that are young enough. -/
theorem get_live (ttl now : ℕ) (t : Table K V) (k : K) :
    (live ttl now t).get k = (t.get k).filter fun e => decide (now - e.2 < ttl) := by
  unfold live
  rw [OrderedMap.get_retain]

/-! ## By age -/

section ByAge

variable {listing : Listing (K × V × ℕ)} {t : Table K V}

/-- Sorting by age loses and adds nothing. -/
theorem perm_byAge (listing : Listing (K × V × ℕ)) (t : Table K V) :
    (byAge listing t).Perm t.rows :=
  (List.perm_insertionSort _ _).trans (listing.perm t.rows)

/-- Sorting by age keeps the number of entries. -/
theorem length_byAge (listing : Listing (K × V × ℕ)) (t : Table K V) :
    (byAge listing t).length = t.rows.length := (perm_byAge listing t).length_eq

/-- The oldest entries come first. -/
theorem sorted_byAge (listing : Listing (K × V × ℕ)) (t : Table K V) :
    (byAge listing t).Pairwise fun a b => a.2.2 ≤ b.2.2 := by
  have : Std.Total fun a b : K × V × ℕ => a.2.2 ≤ b.2.2 := ⟨fun a b => le_total _ _⟩
  have : IsTrans (K × V × ℕ) fun a b => a.2.2 ≤ b.2.2 := ⟨fun a b c => le_trans⟩
  exact List.pairwise_insertionSort _ _

/-- Sorting by age lists no key twice. -/
theorem nodup_map_byAge (listing : Listing (K × V × ℕ)) (t : Table K V) :
    ((byAge listing t).map Prod.fst).Nodup :=
  ((perm_byAge listing t).map Prod.fst).nodup_iff.mpr (nodup_keys t)

/-- Sorting by age lists the entries of the table. -/
theorem mem_byAge {k : K} {e : V × ℕ} : (k, e) ∈ byAge listing t ↔ t.get k = some e := by
  rw [(perm_byAge listing t).mem_iff, OrderedMap.get_eq_some_iff]

end ByAge

/-! ## Room -/

section Room

variable {listing : Listing (K × V × ℕ)} {t : Table K V} {capacity : ℕ}

/-- Making room keeps an entry or drops it. -/
theorem get_makeRoom (listing : Listing (K × V × ℕ)) (capacity : ℕ) (t : Table K V) (k : K) :
    (makeRoom listing capacity t).get k = t.get k ∨ (makeRoom listing capacity t).get k = none := by
  unfold makeRoom
  split_ifs with hfull
  · rw [OrderedMap.get_removeAll]
    split_ifs with hk
    · exact Or.inr rfl
    · exact Or.inl rfl
  · exact Or.inl rfl

/-- There is room for one key, or for none. -/
theorem length_makeRoom (listing : Listing (K × V × ℕ)) (ht : t.rows.length ≤ max capacity 1) :
    (makeRoom listing capacity t).rows.length + 1 ≤ max capacity 1 := by
  unfold makeRoom
  by_cases hfull : capacity ≤ t.rows.length
  · have hsub : (((byAge listing t).take (t.rows.length - capacity + 1)).map Prod.fst).toFinset ⊆
        keySet t := by
      intro k hk
      obtain ⟨⟨k', e⟩, hr, rfl⟩ := List.mem_map.mp (List.mem_toFinset.mp hk)
      rw [mem_keySet, mem_byAge.mp (List.mem_of_mem_take hr)]
      rfl
    rw [if_pos hfull, ← card_keySet, keySet_removeAll, Finset.card_sdiff_of_subset hsub,
      card_keySet, List.toFinset_card_of_nodup, List.length_map, List.length_take, length_byAge]
    · omega
    · rw [List.map_take]
      exact (nodup_map_byAge listing t).sublist (List.take_sublist _ _)
  · rw [if_neg hfull]
    omega

/-- A key is removed only if there are nearly as many others as there is room for, and none of them
is older. -/
theorem crowded_of_makeRoom {key : K} {e : V × ℕ} (hkey : t.get key = some e)
    (hremoved : (makeRoom listing capacity t).get key = none) :
    ∃ others : Finset K, capacity ≤ others.card + 1 ∧ key ∉ others ∧
      ∀ k ∈ others, ∃ e', t.get k = some e' ∧ e.2 ≤ e'.2 := by
  unfold makeRoom at hremoved
  by_cases hfull : capacity ≤ t.rows.length
  · rw [if_pos hfull, OrderedMap.get_removeAll] at hremoved
    set n := t.rows.length - capacity + 1
    have hold : (key, e) ∈ (byAge listing t).take n := by
      by_contra hnew
      have hnot : key ∉ ((byAge listing t).take n).map Prod.fst := by
        intro hmem
        obtain ⟨⟨k, e'⟩, hr, rfl⟩ := List.mem_map.mp hmem
        have hget := mem_byAge.mp (List.mem_of_mem_take hr)
        rw [hkey] at hget
        cases hget
        exact hnew hr
      rw [if_neg hnot, hkey] at hremoved
      cases hremoved
    have hsplit := List.take_append_drop n (byAge listing t)
    have hsorted := sorted_byAge listing t
    have hnodup := nodup_map_byAge listing t
    rw [← hsplit] at hsorted hnodup
    rw [List.map_append, List.nodup_append] at hnodup
    refine ⟨(((byAge listing t).drop n).map Prod.fst).toFinset, ?_, ?_, ?_⟩
    · rw [List.toFinset_card_of_nodup hnodup.2.1, List.length_map, List.length_drop, length_byAge]
      omega
    · rw [List.mem_toFinset]
      exact fun hmem => hnodup.2.2 key (List.mem_map_of_mem hold) key hmem rfl
    · intro k hk
      obtain ⟨⟨k', e'⟩, hr, rfl⟩ := List.mem_map.mp (List.mem_toFinset.mp hk)
      exact ⟨e', mem_byAge.mp (List.mem_of_mem_drop hr),
        (List.pairwise_append.mp hsorted).2.2 _ hold _ hr⟩
  · rw [if_neg hfull, hkey] at hremoved
    cases hremoved

end Room

/-! ## Histories -/

/-- What happens to a table: a value is remembered, or a key is looked up. -/
inductive Event (K V : Type)
  | remember (key : K) (value : V) (time : ℕ)
  | look (time : ℕ)

/-- The time of an event. -/
def Event.time : Event K V → ℕ
  | remember _ _ time => time
  | look time => time

/-- The table after some events, the newest first. -/
def after (listing : Listing (K × V × ℕ)) (ttl capacity : ℕ) : List (Event K V) → Table K V
  | [] => .empty
  | .remember key value now :: past =>
    remember listing ttl capacity now key value (after listing ttl capacity past)
  | .look now :: past => live ttl now (after listing ttl capacity past)

/-- What was last remembered of a key. -/
def last (key : K) : List (Event K V) → Option (V × ℕ)
  | [] => none
  | .remember k value time :: past => if k = key then some (value, time) else last key past
  | .look _ :: past => last key past

/-- No event is older than the ones before it. -/
def Clocked (history : List (Event K V)) : Prop :=
  history.Pairwise fun newer older => older.time ≤ newer.time

/-- There are as many others as there is room for, remembered at some time or after it. -/
def Crowded (capacity : ℕ) (key : K) (time : ℕ) (history : List (Event K V)) : Prop :=
  ∃ others : Finset K, capacity ≤ others.card + 1 ∧ key ∉ others ∧
    ∀ k ∈ others, ∃ e, last k history = some e ∧ time ≤ e.2

/-- The last value of a key was not entered after now. -/
theorem time_le_of_last {history : List (Event K V)} {now : ℕ}
    (hnow : ∀ event ∈ history, event.time ≤ now) {key : K} {e : V × ℕ}
    (h : last key history = some e) : e.2 ≤ now := by
  induction history with
  | nil => cases h
  | cons event past ih =>
    obtain ⟨hevent, hpast⟩ := List.forall_mem_cons.mp hnow
    cases event with
    | look time => exact ih hpast h
    | remember k value time =>
      rw [last] at h
      split_ifs at h with hk
      · cases h
        exact hevent
      · exact ih hpast h

/-- Others do not become older. -/
theorem Crowded.cons {capacity time : ℕ} {key : K} {history : List (Event K V)} {event : Event K V}
    (hclock : Clocked (event :: history)) (h : Crowded capacity key time history) :
    Crowded capacity key time (event :: history) := by
  obtain ⟨others, hcard, hkey, hothers⟩ := h
  refine ⟨others, hcard, hkey, fun k hk => ?_⟩
  obtain ⟨e, hlast, hle⟩ := hothers k hk
  have hnow := time_le_of_last (List.pairwise_cons.mp hclock).1 hlast
  cases event with
  | look now => exact ⟨e, hlast, hle⟩
  | remember k' value now =>
    rw [last]
    split_ifs with hk'
    · exact ⟨_, rfl, hle.trans hnow⟩
    · exact ⟨e, hlast, hle⟩

/-- The table tells what was remembered last; it tells all of it but what is too old or crowded
out. -/
structure Tells (ttl capacity now : ℕ) (history : List (Event K V)) (t : Table K V) : Prop where
  sound : ∀ key e, t.get key = some e → last key history = some e
  complete : ∀ key e, last key history = some e →
    t.get key = some e ∨ ttl ≤ now - e.2 ∨ Crowded capacity key e.2 history
  small : t.rows.length ≤ max capacity 1

section Steps

variable {listing : Listing (K × V × ℕ)} {ttl capacity now now' : ℕ}
  {history : List (Event K V)} {t : Table K V}

/-- A table from which the old entries are dropped still tells its history. -/
theorem Tells.live (h : Tells ttl capacity now history t) (hnow : now ≤ now') :
    Tells ttl capacity now' history (live ttl now' t) := by
  refine ⟨fun key e hget => ?_, fun key e hlast => ?_, ?_⟩
  · rw [get_live, Option.filter_eq_some_iff] at hget
    exact h.sound key e hget.1
  · rw [get_live]
    rcases h.complete key e hlast with hget | hold | hcrowded
    · by_cases hlive : now' - e.2 < ttl
      · exact Or.inl (Option.filter_eq_some_iff.mpr ⟨hget, decide_eq_true hlive⟩)
      · exact Or.inr (Or.inl (Nat.le_of_not_lt hlive))
    · exact Or.inr (Or.inl (hold.trans (Nat.sub_le_sub_right hnow _)))
    · exact Or.inr (Or.inr hcrowded)
  · rw [← card_keySet]
    refine (Finset.card_le_card (keySet_live_subset ttl now' t)).trans ?_
    rw [card_keySet]
    exact h.small

/-- A table tells its history with the value just entered. -/
theorem Tells.remember {key : K} {value : V} (h : Tells ttl capacity now history t)
    (hclock : Clocked (.remember key value now' :: history)) (hnow : now ≤ now') :
    Tells ttl capacity now' (.remember key value now' :: history)
      (remember listing ttl capacity now' key value t) := by
  have hlive := h.live hnow
  unfold RecencyTable.remember
  refine ⟨fun k e hget => ?_, fun k e hlast => ?_, ?_⟩
  · rw [OrderedMap.get_insert] at hget
    rw [last]
    by_cases hk : k = key
    · rw [if_pos hk] at hget
      rw [if_pos hk.symm, hget]
    · rw [if_neg hk] at hget
      rw [if_neg (Ne.symm hk)]
      rcases get_makeRoom listing capacity (RecencyTable.live ttl now' t) k with heq | hnone
      · exact hlive.sound k e (heq ▸ hget)
      · rw [hnone] at hget
        cases hget
  · rw [last] at hlast
    rw [OrderedMap.get_insert]
    by_cases hk : k = key
    · rw [if_pos hk.symm] at hlast
      exact Or.inl ((if_pos hk).trans hlast)
    · rw [if_neg (Ne.symm hk)] at hlast
      rw [if_neg hk]
      rcases hlive.complete k e hlast with hget | hold | hcrowded
      · rcases get_makeRoom listing capacity (RecencyTable.live ttl now' t) k with heq | hnone
        · exact Or.inl (heq.trans hget)
        · obtain ⟨others, hcard, hkey, hothers⟩ := crowded_of_makeRoom hget hnone
          refine Or.inr (Or.inr (Crowded.cons hclock ⟨others, hcard, hkey, fun k' hk' => ?_⟩))
          obtain ⟨e', hget', hle⟩ := hothers k' hk'
          exact ⟨e', hlive.sound k' e' hget', hle⟩
      · exact Or.inr (Or.inl hold)
      · exact Or.inr (Or.inr (hcrowded.cons hclock))
  · rw [← card_keySet, keySet_insert]
    refine (Finset.card_insert_le _ _).trans ?_
    rw [card_keySet]
    exact length_makeRoom listing hlive.small

/-- Time passes without changing what a table tells. -/
theorem Tells.later (h : Tells ttl capacity now history t) (hnow : now ≤ now') :
    Tells ttl capacity now' history t :=
  ⟨h.sound, fun key e hlast => (h.complete key e hlast).imp_right fun hgone =>
    hgone.imp_left fun hold => hold.trans (Nat.sub_le_sub_right hnow _), h.small⟩

/-- A look adds nothing to tell. -/
theorem Tells.look {time : ℕ} (h : Tells ttl capacity now history t) :
    Tells ttl capacity now (.look time :: history) t := ⟨h.sound, h.complete, h.small⟩

/-- The table after any events. -/
theorem tells_after (hclock : Clocked history) (hnow : ∀ event ∈ history, event.time ≤ now) :
    Tells ttl capacity now history (after listing ttl capacity history) := by
  induction history generalizing now with
  | nil => exact ⟨nofun, nofun, Nat.zero_le _⟩
  | cons event past ih =>
    obtain ⟨hpast, hclock'⟩ := List.pairwise_cons.mp hclock
    have htime : event.time ≤ now := hnow event List.mem_cons_self
    have h := ih hclock' hpast
    cases event with
    | look time => exact (h.live le_rfl).look.later htime
    | remember key value time => exact (h.remember hclock le_rfl).later htime

end Steps

end RecencyTable
