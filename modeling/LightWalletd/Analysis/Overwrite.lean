import LightWalletd.Analysis.TreeState

/-!
# The overwrite law

An insert at a cached height ought to leave what it would have left had its block come
first. It does when the block it replaces has the same hash and no rows that the new
block would not write, when neither block's coins were appended at the last height, and
when block 0 keeps its coins while it is the tip. Otherwise an index entry, a row or a
tree leaf of the replaced block stays behind.
-/

set_option autoImplicit false

namespace LightWalletd

open Stateful

/-- The condition on an insert: of the cached blocks exactly the one it replaces has its
hash, and that one leaves no row, no appended coin and no snapshot behind. -/
structure Replaceable (s : Cache) (block : CompactBlock) : Prop where
  hash : ∀ k old, s.db.blocks.compactBlocks.get k = some (.value old) →
    (old.hash = block.hash ↔ k = block.height)
  covers : ∀ old, s.db.blocks.compactBlocks.get block.height = some (.value old) →
    block.Covers old
  last : block.height = u32Max → s.coinsAt u32Max = []
  zero : block.height = 0 → (∀ t, s.db.blocks.tipHeight = some (.value t) → t = 0) →
    s.db.trees.merkleSnapshots.get 0 = none ∨ block.allCoins = s.coinsAt 0

/-- The runs whose inserts all meet the condition and whose rewinds do not wrap. -/
inductive OverwriteRun : Cache → Prop
  | empty (now : ℕ) (s : Cache) : Cache.new now .empty = .ok s → OverwriteRun s
  | insert (now : ℕ) (block : CompactBlock) (s : Cache) : OverwriteRun s →
      block.height ≤ u32Max → block.CanonicalCoins → Replaceable s block →
      OverwriteRun ((insertCompactBlock now block).exec s)
  | rewind (height : ℕ) (s : Cache) : OverwriteRun s → height < u32Max →
      OverwriteRun ((rewindToHeight height).exec s)

/-- Two caches with the same rows derived from blocks, the same tip tree, and the same
snapshots where both have one. -/
structure SameDerived (s t : Cache) : Prop where
  compactBlocks : s.db.blocks.compactBlocks = t.db.blocks.compactBlocks
  blockHashes : s.db.blocks.blockHashes = t.db.blocks.blockHashes
  hashToHeight : s.db.blocks.hashToHeight = t.db.blocks.hashToHeight
  nullifiers : s.db.blocks.nullifiers = t.db.blocks.nullifiers
  coins : s.db.blocks.coins = t.db.blocks.coins
  liveTree : s.tipTree.tree = t.tipTree.tree
  tipMerkleTree : s.db.trees.tipMerkleTree = t.db.trees.tipMerkleTree
  snapshots : ∀ k row row', s.db.trees.merkleSnapshots.get k = some row →
    t.db.trees.merkleSnapshots.get k = some row' → row = row'

/-- The index has exactly the hashes of the blocks. -/
def BlockRows.Indexes (b : BlockRows) (m : BlockMap) : Prop :=
  ∀ hash row, b.hashToHeight.get hash = some row ↔
    ∃ k block, m k = some block ∧ block.hash = hash ∧ row = .value k

/-- The state of such a run: nothing is left of a block that is not in `m`. -/
structure ExactState (m : BlockMap) (s : Cache) : Prop extends TreeState m s where
  index : s.db.blocks.Indexes m
  distinct : ∀ j k a b, m j = some a → m k = some b → a.hash = b.hash → j = k
  fresh : s.tipTree.height = none → ∀ k, m k = none

/-! ## The index -/

/-- Deleting heights removes the index entries of the hashes they had. -/
theorem foldl_delete_hashToHeight (b : BlockRows) (ks : List ℕ) (hks : ks.Nodup) (hash : Bytes32) :
    (ks.foldl BlockRows.delete b).hashToHeight.get hash =
      if ∃ k ∈ ks, b.blockHashes.get k = some (.value hash) then none
      else b.hashToHeight.get hash := by
  induction ks generalizing b with
  | nil => simp
  | cons k ks ih =>
    obtain ⟨hk, hks'⟩ := List.nodup_cons.mp hks
    have hstep : (b.delete k).hashToHeight.get hash =
        if b.blockHashes.get k = some (.value hash) then none else b.hashToHeight.get hash := by
      unfold BlockRows.delete
      rcases b.blockHashes.get k with _ | old | bytes
      · simp
      · simp only [OrderedMap.get_remove, Option.some.injEq, Stored.value.injEq]
        by_cases heq : hash = old <;> simp [heq, eq_comm]
      · simp
    have hlater : (∃ j ∈ ks, (b.delete k).blockHashes.get j = some (.value hash)) ↔
        ∃ j ∈ ks, b.blockHashes.get j = some (.value hash) := by
      refine exists_congr fun j => and_congr_right fun hj => ?_
      have hne : j ≠ k := fun heq => hk (heq ▸ hj)
      show (b.blockHashes.remove k).get j = _ ↔ _
      rw [OrderedMap.get_remove, if_neg hne]
    rw [List.foldl_cons, ih _ hks', hstep]
    simp only [hlater, List.mem_cons, exists_eq_or_imp]
    by_cases h1 : b.blockHashes.get k = some (.value hash) <;>
      by_cases h2 : ∃ j ∈ ks, b.blockHashes.get j = some (.value hash) <;> simp [h1, h2]

/-- The index after a rewind, over rows of blocks with distinct hashes. -/
theorem indexes_rewound {b : BlockRows} {m : BlockMap} {h : ℕ} (hrows : b.Holds m)
    (hindex : b.Indexes m)
    (hdistinct : ∀ j k a b, m j = some a → m k = some b → a.hash = b.hash → j = k)
    (hmax : h < u32Max) : (b.rewound h).Indexes (m.upTo h) := by
  have hfrom : wrappingAdd h 1 = h + 1 := by
    unfold wrappingAdd
    exact Nat.mod_eq_of_lt (by omega)
  have hkeep : (b.rewound h).hashToHeight =
      (b.deleteWhere fun k => decide (h + 1 ≤ k)).hashToHeight := by
    unfold BlockRows.rewound BlockRows.rewoundTip
    rw [hfrom]
    rcases (b.deleteWhere fun k => decide (h + 1 ≤ k)).compactBlocks.get h with _ | block | bytes
    · simp only []
      split_ifs <;> rfl
    · rfl
    · rfl
  have hnodup : (b.compactBlocks.filter fun k => decide (h + 1 ≤ k)).keys.Nodup :=
    (OrderedMap.pairwise_keys _).imp fun hlt => hlt.ne
  intro hash row
  have hdeleted : (∃ k ∈ (b.compactBlocks.filter fun k => decide (h + 1 ≤ k)).keys,
      b.blockHashes.get k = some (.value hash)) ↔ ∃ k block, h < k ∧ m k = some block ∧
        block.hash = hash := by
    constructor
    · rintro ⟨k, hk, hval⟩
      rw [OrderedMap.mem_keys_iff, OrderedMap.get_filter] at hk
      rw [hrows.blockHashes, Option.map_eq_some_iff] at hval
      obtain ⟨block, hblock, heq⟩ := hval
      cases heq
      by_cases hlt : h + 1 ≤ k
      · exact ⟨k, block, hlt, hblock, rfl⟩
      · simp [hlt] at hk
    · rintro ⟨k, block, hlt, hblock, rfl⟩
      refine ⟨k, ?_, ?_⟩
      · rw [OrderedMap.mem_keys_iff, OrderedMap.get_filter,
          if_pos (decide_eq_true (Nat.succ_le_of_lt hlt)), hrows.compactBlocks, hblock]
        rfl
      · rw [hrows.blockHashes, hblock]
        rfl
  rw [hkeep]
  unfold BlockRows.deleteWhere
  rw [foldl_delete_hashToHeight b _ hnodup hash]
  by_cases hgone : ∃ k block, h < k ∧ m k = some block ∧ block.hash = hash
  · rw [if_pos (hdeleted.mpr hgone)]
    obtain ⟨k, block, hlt, hblock, hhash⟩ := hgone
    refine ⟨nofun, ?_⟩
    rintro ⟨j, block', hj, hhash', -⟩
    unfold BlockMap.upTo at hj
    split_ifs at hj with hjh
    have := hdistinct j k block' block hj hblock (hhash'.trans hhash.symm)
    omega
  · rw [if_neg fun hd => hgone (hdeleted.mp hd), hindex hash row]
    refine exists_congr fun k => exists_congr fun block => ?_
    unfold BlockMap.upTo
    by_cases hk : k ≤ h
    · rw [if_pos hk]
    · rw [if_neg hk]
      constructor
      · rintro ⟨hblock, hhash, -⟩
        exact absurd ⟨k, block, by omega, hblock, hhash⟩ hgone
      · rintro ⟨hnone, -⟩
        cases hnone

/-! ## The state of a run -/

section Steps

variable {m : BlockMap} {s : Cache}

/-- A replaceable block can be written over an exact state. -/
theorem ExactState.overwritable {block : CompactBlock} (hs : ExactState m s)
    (hok : Replaceable s block) : Overwritable m s block := by
  refine ⟨fun old hold => hok.covers old ?_, fun hlast => ?_, fun h0 ht => ?_⟩
  · rw [hs.rows.compactBlocks, hold]
    rfl
  · rw [← hs.rows.coinsAt]
    exact hok.last hlast
  · rw [← hs.rows.coinsAt]
    exact hok.zero h0 ht

/-- An insert of it leads to an exact state. -/
theorem ExactState.insert (now : ℕ) {block : CompactBlock} (hs : ExactState m s)
    (hmax : block.height ≤ u32Max) (hcan : block.CanonicalCoins) (hok : Replaceable s block) :
    ∃ merged s', (insertCompactBlock now block).run s = (.ok (), s') ∧
      ExactState (Function.update m block.height (some merged)) s' := by
  obtain ⟨merged, s', hsame, hrun, hstate, H, hlive, -⟩ :=
    hs.toTreeState.insert now hcan hmax (hs.overwritable hok)
  have hhash : ∀ k old, m k = some old → (old.hash = block.hash ↔ k = block.height) := by
    intro k old hold
    refine hok.hash k old ?_
    rw [hs.rows.compactBlocks, hold]
    rfl
  have hindex : ∀ hash, s'.db.blocks.hashToHeight.get hash =
      if hash = block.hash then some (.value block.height)
      else s.db.blocks.hashToHeight.get hash := by
    intro hash
    obtain ⟨merged', hsame', hblocks⟩ := insertCompactBlock_blocks now block s
    unfold Prog.exec at hblocks
    rw [hrun] at hblocks
    have hkeep : (s.db.blocks.inserted merged').hashToHeight =
        s.db.blocks.hashToHeight.insert merged'.hash (.value merged'.height) := by
      unfold BlockRows.inserted
      rcases s.db.blocks.readTip with e | _ | ⟨t, hash⟩
      · rfl
      · rfl
      · simp only []
        split_ifs <;> rfl
    rw [hblocks, hkeep, OrderedMap.get_insert, hsame'.hash, hsame'.height]
    by_cases heq : hash = block.hash <;> simp [heq]
  refine ⟨merged, s', hrun, hstate, ?_, ?_, fun hnone => by rw [hlive] at hnone; cases hnone⟩
  · intro hash row
    rw [hindex hash]
    constructor
    · intro hrow
      by_cases heq : hash = block.hash
      · rw [if_pos heq] at hrow
        cases hrow
        exact ⟨block.height, merged, Function.update_self .., hsame.hash.trans heq.symm, rfl⟩
      · rw [if_neg heq] at hrow
        obtain ⟨k, old, hold, hhk, hval⟩ := (hs.index hash row).mp hrow
        have hk : k ≠ block.height := fun hk => heq (hhk.symm.trans ((hhash k old hold).mpr hk))
        exact ⟨k, old, by rw [Function.update_of_ne hk, hold], hhk, hval⟩
    · rintro ⟨k, old, hold, hhk, rfl⟩
      by_cases hk : k = block.height
      · rw [hk, Function.update_self] at hold
        cases hold
        rw [if_pos (hhk.symm.trans hsame.hash), hk]
      · rw [Function.update_of_ne hk] at hold
        have hne : hash ≠ block.hash := fun heq => hk ((hhash k old hold).mp (hhk.trans heq))
        rw [if_neg hne]
        exact (hs.index hash _).mpr ⟨k, old, hold, hhk, rfl⟩
  · intro j k a b ha hb hab
    by_cases hj : j = block.height <;> by_cases hk : k = block.height
    · rw [hj, hk]
    · rw [hj, Function.update_self] at ha
      rw [Function.update_of_ne hk] at hb
      cases ha
      exact absurd ((hhash k b hb).mp (hab.symm.trans hsame.hash)) hk
    · rw [Function.update_of_ne hj] at ha
      rw [hk, Function.update_self] at hb
      cases hb
      exact absurd ((hhash j a ha).mp (hab.trans hsame.hash)) hj
    · rw [Function.update_of_ne hj] at ha
      rw [Function.update_of_ne hk] at hb
      exact hs.distinct j k a b ha hb hab

/-- A rewind leads to an exact state. -/
theorem ExactState.rewind {h : ℕ} (hs : ExactState m s) (hmax : h < u32Max) :
    ∃ s', (rewindToHeight h).run s = (.ok (), s') ∧ ExactState (m.upTo h) s' := by
  obtain ⟨s', hrun, hstate, hblocks, hlive, -⟩ := hs.toTreeState.rewind hmax
  refine ⟨s', hrun, hstate, ?_, ?_, fun hnone k => ?_⟩
  · rw [hblocks]
    exact indexes_rewound hs.rows hs.index hs.distinct hmax
  · intro j k a b ha hb hab
    unfold BlockMap.upTo at ha hb
    split_ifs at ha hb
    exact hs.distinct j k a b ha hb hab
  · rw [hlive] at hnone
    split_ifs at hnone with hgone
    unfold BlockMap.upTo
    split_ifs with hk
    · rw [show k = 0 by omega]
      exact hgone.2
    · rfl

end Steps

/-- Every run ends in an exact state. -/
theorem OverwriteRun.state {s : Cache} (hs : OverwriteRun s) : ∃ m, ExactState m s := by
  induction hs with
  | empty now s hnew =>
    refine ⟨fun _ => none, TreeState.of_new hnew, fun hash row => ?_, fun _ _ _ _ => nofun,
      fun _ _ => rfl⟩
    rw [(new_empty hnew).1]
    constructor
    · intro hrow
      cases hrow
    · rintro ⟨k, block, hnone, -⟩
      cases hnone
  | insert now block s _ hmax hcan hok ih =>
    obtain ⟨m, hm⟩ := ih
    obtain ⟨merged, s', hrun, hstate⟩ := hm.insert now hmax hcan hok
    refine ⟨Function.update m block.height (some merged), ?_⟩
    unfold Prog.exec
    rw [hrun]
    exact hstate
  | rewind height s _ hmax ih =>
    obtain ⟨m, hm⟩ := ih
    obtain ⟨s', hrun, hstate⟩ := hm.rewind hmax
    refine ⟨m.upTo height, ?_⟩
    unfold Prog.exec
    rw [hrun]
    exact hstate

/-- Two exact states of the same blocks have the same rows and the same trees. -/
theorem ExactState.sameDerived {m : BlockMap} {s t : Cache} (hs : ExactState m s)
    (ht : ExactState m t) (hne : ∃ k, m k ≠ none) : SameDerived s t := by
  have hat : ∀ {u : Cache}, ExactState m u → ∃ H, u.TreeAt (coinsOf m) H := by
    intro u hu
    rcases hu.tree with ⟨hlive, -, -⟩ | hat
    · obtain ⟨k, hk⟩ := hne
      exact absurd (hu.fresh (by rw [hlive]; rfl) k) hk
    · exact hat
  have hindex : s.db.blocks.hashToHeight = t.db.blocks.hashToHeight := by
    apply OrderedMap.get_ext
    intro hash
    apply Option.ext
    intro row
    exact (hs.index hash row).trans (ht.index hash row).symm
  obtain ⟨H, hatS⟩ := hat hs
  obtain ⟨K, hatT⟩ := hat ht
  -- without coins above, trees at two heights have the same leaves
  have hheights : treeTo (coinsOf m) H = treeTo (coinsOf m) K := by
    unfold treeTo
    rcases Nat.le_total H K with hle | hle
    · rw [coinsBelow_eq_of_le (m := H + 1) (n := K + 1) (by omega)
        fun k hk _ => hatS.above k (by omega)]
    · rw [coinsBelow_eq_of_le (m := K + 1) (n := H + 1) (by omega)
        fun k hk _ => hatT.above k (by omega)]
  refine ⟨?_, ?_, hindex, ?_, ?_, ?_, ?_, fun k row row' hrow hrow' => ?_⟩
  · exact OrderedMap.get_ext fun k => by rw [hs.rows.compactBlocks, ht.rows.compactBlocks]
  · exact OrderedMap.get_ext fun k => by rw [hs.rows.blockHashes, ht.rows.blockHashes]
  · exact OrderedMap.get_ext fun k => by rw [hs.rows.nullifiers, ht.rows.nullifiers]
  · exact OrderedMap.get_ext fun k => by rw [hs.rows.coins, ht.rows.coins]
  · rw [hatS.live, hatT.live, hheights]
  · rw [hatS.tipMerkleTree, hatT.tipMerkleTree, hheights]
  · rw [(hatS.snapshots k row hrow).2, (hatT.snapshots k row' hrow').2]

/-- An insert, of a block that is cached at its height too, succeeds in a run whose inserts meet the
condition, and leaves what any such run leaves that caches the same blocks, so one in which the new
block came in place of the old one. -/
theorem overwrite_law {s t : Cache} {now : ℕ} {block : CompactBlock} (hs : OverwriteRun s)
    (hmax : block.height ≤ u32Max) (hcan : block.CanonicalCoins) (hok : Replaceable s block)
    (ht : OverwriteRun t) (hsame : ((insertCompactBlock now block).exec s).db.blocks.compactBlocks =
      t.db.blocks.compactBlocks) :
    ((insertCompactBlock now block).run s).1 = .ok () ∧
      SameDerived ((insertCompactBlock now block).exec s) t := by
  obtain ⟨m, hm⟩ := hs.state
  obtain ⟨m', hm'⟩ := ht.state
  obtain ⟨merged, s', hrun, hstate⟩ := hm.insert now hmax hcan hok
  unfold Prog.exec at hsame ⊢
  rw [hrun] at hsame ⊢
  have heq := hstate.rows.unique hm'.rows hsame
  subst heq
  refine ⟨rfl, hstate.sameDerived hm' ⟨block.height, ?_⟩⟩
  rw [Function.update_self]
  exact nofun

/-- The condition on hashes, read off the rows. -/
def HashesApart (s : Cache) (block : CompactBlock) : Prop :=
  ∀ r ∈ s.db.blocks.compactBlocks.rows, ∀ old ∈ (match r.2 with
    | .value old => some old
    | .raw _ => none), (old.hash = block.hash ↔ r.1 = block.height)

/-- Whether hashes are apart can be checked. -/
instance (s : Cache) (block : CompactBlock) : Decidable (HashesApart s block) := by
  unfold HashesApart
  infer_instance

/-- Among apart hashes the block's own is at its height only. -/
theorem HashesApart.hash {s : Cache} {block : CompactBlock} (h : HashesApart s block) :
    ∀ k old, s.db.blocks.compactBlocks.get k = some (.value old) →
      (old.hash = block.hash ↔ k = block.height) := fun k old hrow =>
  h (k, .value old) ((OrderedMap.get_eq_some_iff _ _ _).mp hrow) old rfl

/-- An insert above 0 and below the last height where nothing is cached meets the condition. -/
theorem replaceable_of_fresh {s : Cache} {block : CompactBlock} (hhash : HashesApart s block)
    (hnone : s.db.blocks.compactBlocks.get block.height = none)
    (hmax : block.height < u32Max)
    (hzero : block.height = 0 → s.db.trees.merkleSnapshots.get 0 = none) : Replaceable s block := by
  refine ⟨hhash.hash, fun old hold => ?_, fun hlast => by omega, fun h0 _ => Or.inl (hzero h0)⟩
  rw [hnone] at hold
  cases hold

/-- Block 0, then a block 1 with one coin. -/
def blockOneFirst : Cache :=
  (insertCompactBlock 0 (.sample 1 2 [2] [])).exec
    ((insertCompactBlock 0 (.sample 0 1 [1] [])).exec .initial)

/-- Block 0, then a block 1 of the same hash with two other coins. -/
def blockOneOther : Cache :=
  (insertCompactBlock 0 (.sample 1 2 [3, 4] [])).exec
    ((insertCompactBlock 0 (.sample 0 1 [1] [])).exec .initial)

/-- Block 1 replaced by another one. -/
theorem overwrite_law_block_one :
    SameDerived ((insertCompactBlock 0 (.sample 1 2 [3, 4] [])).exec blockOneFirst)
      blockOneOther := by
  have hzero : OverwriteRun ((insertCompactBlock 0 (.sample 0 1 [1] [])).exec .initial) :=
    .insert 0 _ _ (.empty 0 _ new_initial) (by decide) (by decide +kernel)
      (replaceable_of_fresh (by decide +kernel) (by decide +kernel) (by decide)
        fun _ => by decide +kernel)
  have hfirst : OverwriteRun blockOneFirst :=
    .insert 0 _ _ hzero (by decide) (by decide +kernel)
      (replaceable_of_fresh (by decide +kernel) (by decide +kernel) (by decide) (by decide))
  have hother : OverwriteRun blockOneOther :=
    .insert 0 _ _ hzero (by decide) (by decide +kernel)
      (replaceable_of_fresh (by decide +kernel) (by decide +kernel) (by decide) (by decide))
  have hold : blockOneFirst.db.blocks.compactBlocks.get 1 =
      some (.value (.sample 1 2 [2] [])) := by
    decide +kernel
  have hapart : HashesApart blockOneFirst (.sample 1 2 [3, 4] []) := by decide +kernel
  refine (overwrite_law hfirst (by decide) (by decide +kernel)
    ⟨hapart.hash, fun old hrow => ?_, fun h => absurd h (by decide),
      fun h => absurd h (by decide)⟩ hother (by decide +kernel)).2
  change blockOneFirst.db.blocks.compactBlocks.get 1 = some (.value old) at hrow
  rw [hold] at hrow
  cases hrow
  exact ⟨by decide, by decide⟩

/-- Block 0 overwritten while it is the tip by a block with another hash and another coin:
the old hash stays in the index and the old coin stays in the tree. -/
theorem overwrite_keeps_old_block :
    let s := (insertCompactBlock 0 (.sample 0 1 [1] [])).exec Cache.initial
    let s' := (insertCompactBlock 0 (.sample 0 2 [2] [])).exec s
    let t := (insertCompactBlock 0 (.sample 0 2 [2] [])).exec Cache.initial
    s'.db.blocks.compactBlocks = t.db.blocks.compactBlocks ∧
      s'.db.blocks.hashToHeight.get (Bytes32.fill 1) = some (.value 0) ∧
      t.db.blocks.hashToHeight.get (Bytes32.fill 1) = none ∧
      s'.tipTree.tree.leafBytes = [Base.zero.repr, Bytes32.fill 1] ∧
      t.tipTree.tree.leafBytes = [Base.zero.repr, Bytes32.fill 2] ∧ ¬ SameDerived s' t := by
  intro s s' t
  have hindex : s'.db.blocks.hashToHeight.get (Bytes32.fill 1) = some (.value 0) := by
    decide +kernel
  have hnone : t.db.blocks.hashToHeight.get (Bytes32.fill 1) = none := by decide +kernel
  refine ⟨by decide +kernel, hindex, hnone, by decide +kernel, by decide +kernel, fun hsame => ?_⟩
  rw [hsame.hashToHeight, hnone] at hindex
  cases hindex

end LightWalletd
