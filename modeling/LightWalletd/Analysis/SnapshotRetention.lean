import LightWalletd.Analysis.QuiescentReplies

/-!
# Which snapshots are retained

In a cache that the poller made of an empty one there is a snapshot at every interval height up
to the tip and at the tip, and no other. An append adds the row of the new tip and drops the one
of the old tip; a rebuild starts at the greatest snapshot that is left and passes no interval
height. So the nearest snapshot below a wallet's birthday is less than one interval away.
-/

set_option autoImplicit false

namespace LightWalletd

open Stateful

/-- The snapshots of a cache with `count` blocks: those of the interval heights and of the tip. -/
def Retained (snaps : OrderedMap ℕ (Stored MerkleTree)) (count : ℕ) : Prop :=
  ∀ k, (snaps.get k).isSome ↔ k < count ∧ (k % merkleSnapshotInterval = 0 ∨ k + 1 = count)

/-- An empty database retains nothing. -/
theorem retained_empty : Retained .empty 0 := by
  intro k
  simp

/-! ## The steps -/

section Steps

variable {snaps new : OrderedMap ℕ (Stored MerkleTree)} {count : ℕ}

/-- An append drops the row of the old tip, unless it is on the interval. -/
theorem Retained.append (h : Retained snaps count) {prev : Option ℕ} (row : Stored MerkleTree)
    (hprev : ∀ k, prev = some k ↔ k + 1 = count) :
    Retained (dropPrevious prev count (snaps.insert count row)) (count + 1) := by
  intro k
  rw [get_dropPrevious, OrderedMap.get_insert]
  by_cases hk : k = count
  · simp [hk]
  · have hnext : ¬ (k + 1 = count + 1) := by omega
    by_cases hint : k % merkleSnapshotInterval = 0
    · -- a row on the interval stays
      simp only [hint, ne_eq, not_true_eq_false, and_false, if_false, if_neg hk, h k, true_or,
        and_true]
      omega
    · simp only [hint, hnext, or_self, and_false, iff_false]
      by_cases htip : k + 1 = count
      · simp [(hprev k).mpr htip, hk, hint]
      · have hno : prev ≠ some k := fun heq => htip ((hprev k).mp heq)
        simp only [hno, false_and, if_false, if_neg hk, h k, hint, htip, or_self, and_false,
          not_false_eq_true]

/-- A rebuild of one of the heights has the interval heights up to there. -/
theorem Retained.rebuild (h : Retained snaps count) {c : ℕ → List Bytes32} {tip : ℕ}
    (hlt : tip < count) (hnew : RebuiltSnapshots c tip (seedHeight snaps tip)
      (snaps.filter fun k => decide (k ≤ tip)) new) : Retained new (tip + 1) := by
  intro k
  by_cases hk : k ≤ tip
  · by_cases hint : k % merkleSnapshotInterval = 0
    · have hold : (snaps.get k).isSome := (h k).mpr ⟨by omega, Or.inl hint⟩
      exact iff_of_true (hnew.interval hk hint (Or.inl hold)) ⟨by omega, Or.inl hint⟩
    · rw [hnew k]
      by_cases htop : k = tip
      · simp [htop]
      · have hold : ¬ (snaps.get k).isSome := fun hsome => by
          have := (h k).mp hsome
          omega
        have hnone : snaps.get k = none := Option.not_isSome_iff_eq_none.mp hold
        simp [htop, hint, hnone]
  · have hfar : ¬ (k = tip) := by omega
    rw [hnew k, if_neg hfar, OrderedMap.get_filter]
    have hcut : ¬ (k < tip + 1) := by omega
    simp [hk, hcut]

/-- The greatest snapshot up to a height of the cache. -/
theorem Retained.lastUpTo (h : Retained snaps count) {b : ℕ} (hb : b < count) :
    ∃ height row, snaps.lastUpTo b = some (height, row) ∧ height ≤ b ∧
      b < height + merkleSnapshotInterval := by
  have hpos : 0 < merkleSnapshotInterval := by decide
  -- the interval height at or below `b` has a row, so the greatest one is no lower
  set floor := b - b % merkleSnapshotInterval with hfloor
  have hmod : b % merkleSnapshotInterval < merkleSnapshotInterval := Nat.mod_lt _ hpos
  have hfloorRow : (snaps.get floor).isSome := by
    apply (h floor).mpr
    refine ⟨by omega, Or.inl ?_⟩
    exact Nat.mod_eq_zero_of_dvd (Nat.dvd_sub_mod b)
  cases hlast : snaps.lastUpTo b with
  | none =>
    have := (OrderedMap.lastUpTo_eq_none_iff _ _).mp hlast floor (by omega)
    rw [this] at hfloorRow
    cases hfloorRow
  | some found =>
    obtain ⟨-, hle, hgreatest⟩ := (OrderedMap.lastUpTo_eq_some_iff _ _ _ _).mp
      (show snaps.lastUpTo b = some (found.1, found.2) from hlast)
    have := hgreatest floor hfloorRow (by omega)
    exact ⟨found.1, found.2, rfl, hle, by omega⟩

end Steps

/-! ## The runs -/

namespace StackState

variable {chain : List CompactBlock} {s : Cache}

/-- The tree in memory is at the tip. -/
theorem treeHeight_eq_some_iff (hs : StackState chain s) {k : ℕ} :
    s.tipTree.height = some k ↔ k + 1 = chain.length := by
  rw [hs.treeHeight]
  cases htip : chainTip chain with
  | none =>
    rw [chainTip_eq_none_iff.mp htip]
    simp
  | some tip =>
    obtain ⟨_, -, hlen, -⟩ := chainTip_eq_some_iff.mp (show chainTip chain = some (tip.1, tip.2)
      from htip)
    simp only [Option.map_some, Option.some.injEq]
    omega

/-- The next height extends the tree in memory. -/
theorem needsRebuild_length (hs : StackState chain s) (hmax : chain.length ≤ u32Max) :
    s.tipTree.needsRebuild chain.length = false := by
  have hloaded : s.tipTree.loadFailed = false := by
    rcases hs.tree with ⟨hlive, -, -⟩ | ⟨H, hat⟩
    · rw [hlive]
      rfl
    · rw [hat.live]
  unfold LiveTipTree.needsRebuild
  rw [hloaded, Bool.false_or]
  cases hheight : s.tipTree.height with
  | none => rfl
  | some prev =>
    have hprev := hs.treeHeight_eq_some_iff.mp hheight
    unfold saturatingAdd
    simp only [decide_eq_false_iff_not]
    omega

/-- What an insert of the next block does to the snapshots. -/
theorem insertMergedBlock_snapshots {block : CompactBlock} (hs : StackState chain s)
    (hcan : Canonical block.allCoins) (hheight : block.height = chain.length)
    (hmax : chain.length ≤ u32Max) :
    ∃ row, ((insertMergedBlock block).exec s).db.trees.merkleSnapshots =
      dropPrevious s.tipTree.height chain.length
        (s.db.trees.merkleSnapshots.insert chain.length row) := by
  set s₁ := s.setBlocks ((s.db.blocks.store block).setTip block.height block.hash) with hs₁
  have hadvance : (insertMergedBlock block).run s =
      (advanceTip block).run (s.setBlocks (s.db.blocks.store block)) := by
    rw [insertMergedBlock_run block hs.readTip]
    cases htip : chainTip chain with
    | none => rfl
    | some tip =>
      obtain ⟨_, -, hlen, -⟩ := chainTip_eq_some_iff.mp (show chainTip chain = some (tip.1, tip.2)
        from htip)
      simp only [if_neg (show ¬ block.height < tip.1 by omega)]
  have hrun : (advanceTip block).run (s.setBlocks (s.db.blocks.store block)) =
      (appendNodes chain.length block.allCoins).run s₁ := by
    have happend := appendCoinsToTipTree_run chain.length block.allCoins s₁
    rw [if_neg (by rw [show s₁.tipTree = s.tipTree from rfl, hs.needsRebuild_length hmax]; nofun)]
      at happend
    rw [← happend, ← hheight]
    rfl
  refine ⟨.value ((block.allCoins.filterMap Base.fromBytes).foldl MerkleTree.append s.tipTree.tree),
    ?_⟩
  unfold Prog.exec
  rw [hadvance, hrun, appendNodes_run _ _ hcan]
  rfl

end StackState

/-- The state after a run: that of some blocks, with their snapshots retained. -/
structure RetainedState (chain : List CompactBlock) (s : Cache) : Prop
    extends StackState chain s where
  retained : Retained s.db.trees.merkleSnapshots chain.length

namespace RetainedState

variable {chain : List CompactBlock} {s : Cache}

/-- A server just opened retains what it should. -/
theorem of_new {now : ℕ} {s : Cache} (h : Cache.new now .empty = .ok s) : RetainedState [] s := by
  refine ⟨.of_new h, ?_⟩
  rw [(new_empty h).2.1]
  exact retained_empty

/-- The next block keeps the snapshots of the interval heights. -/
theorem append (now : ℕ) {block : CompactBlock} (hs : RetainedState chain s)
    (hcan : block.CanonicalCoins) (hheight : block.height = chain.length)
    (hmax : chain.length ≤ u32Max) :
    ∃ merged, RetainedState (chain ++ [merged]) ((insertCompactBlock now block).exec s) := by
  obtain ⟨merged, s₁, hclues, hsame, hbeside⟩ := applyOmrClueHints_run now block s
  have hs₁ := hs.toStackState.congr hbeside
  have hcan₁ : Canonical merged.allCoins := by
    rw [hsame.allCoins]
    exact hcan
  have hheight₁ : merged.height = chain.length := hsame.height.trans hheight
  obtain ⟨s', hrun, hstate⟩ := hs₁.appendMerged hcan₁ hheight₁ hmax
  obtain ⟨row, hsnaps⟩ := hs₁.insertMergedBlock_snapshots hcan₁ hheight₁ hmax
  have htrees : s₁.db.trees = s.db.trees := congrArg (fun p => p.2.1) hbeside
  have hexec : (insertCompactBlock now block).exec s = s' := by
    unfold Prog.exec
    exact congrArg Prod.snd ((Prog.run_bind_of_ok hclues _).trans hrun)
  have hsnaps' : s'.db.trees.merkleSnapshots = dropPrevious s₁.tipTree.height chain.length
      (s.db.trees.merkleSnapshots.insert chain.length row) := by
    unfold Prog.exec at hsnaps
    rw [hrun, htrees] at hsnaps
    exact hsnaps
  refine ⟨merged, ?_⟩
  rw [hexec]
  refine ⟨hstate, ?_⟩
  rw [hsnaps', List.length_append]
  exact hs.retained.append row fun k => hs₁.treeHeight_eq_some_iff

/-- A rewind cuts the snapshots at its target. -/
theorem rewind {h : ℕ} (hs : RetainedState chain s) (hlt : h < chain.length) (hmax : h < u32Max) :
    RetainedState (chain.take (h + 1)) ((rewindToHeight h).exec s) := by
  obtain ⟨s', hrun, hstate⟩ := hs.toStackState.rewind hlt hmax
  obtain ⟨s'', hrun', -, -, -, hsnaps⟩ := hs.toTreeState.rewind hmax
  have hcached : ¬ (h = 0 ∧ chainMap chain 0 = none) := by
    rintro ⟨rfl, hnone⟩
    have hsome := chainMap_isSome.mpr hlt
    rw [hnone] at hsome
    cases hsome
  rw [hrun] at hrun'
  cases hrun'
  have hlen : (chain.take (h + 1)).length = h + 1 := by
    rw [List.length_take]
    omega
  unfold Prog.exec
  rw [hrun]
  refine ⟨hstate, ?_⟩
  rw [hlen]
  exact hs.retained.rebuild hlt (hsnaps hcached)

/-- A reopened cache has its tip tree indexed already. -/
theorem reopen {now : ℕ} {s' : Cache} (hs : RetainedState chain s)
    (hnew : Cache.new now s.db = .ok s') : RetainedState chain s' := by
  obtain ⟨s₁, hnew₁, hstate⟩ := hs.toStackState.reopen now
  obtain ⟨s₂, hnew₂, -, htrees, -⟩ := new_of_current now hs.format hs.sound
  rw [hnew] at hnew₁ hnew₂
  cases hnew₁
  cases hnew₂
  have hindexed : s.db.trees.indexed = s.db.trees := by
    unfold TreeRows.indexed
    rcases hs.tree with ⟨-, hnone, -⟩ | ⟨H, hat⟩
    · rw [hnone]
      rfl
    · have hlen := hs.length_of_treeAt hat
      have hrow : (s.db.trees.merkleSnapshots.get H).isSome :=
        (hs.retained H).mpr ⟨by omega, Or.inr hlen.symm⟩
      obtain ⟨row, hrow⟩ := Option.isSome_iff_exists.mp hrow
      simp only [hat.tipMerkleHeight, hat.tipMerkleTree, hrow]
  refine ⟨hstate, ?_⟩
  rw [htrees, hindexed]
  exact hs.retained

end RetainedState

/-- Every run retains the snapshots. -/
theorem IndexRun.retained {s : Cache} (hs : IndexRun s) : ∃ chain, RetainedState chain s := by
  induction hs with
  | empty now s hnew => exact ⟨[], .of_new hnew⟩
  | insert now block s _ hnext hmax hcan ih =>
    obtain ⟨chain, hchain⟩ := ih
    rw [hchain.nextHeight] at hnext
    obtain ⟨merged, hstate⟩ := hchain.append now hcan hnext (hnext ▸ hmax)
    exact ⟨chain ++ [merged], hstate⟩
  | rewind height s _ hcached hmax ih =>
    obtain ⟨chain, hchain⟩ := ih
    rw [hchain.rows.compactBlocks, Option.isSome_map, chainMap_isSome] at hcached
    exact ⟨chain.take (height + 1), hchain.rewind hcached hmax⟩
  | reopen now s s' _ hnew ih =>
    obtain ⟨chain, hchain⟩ := ih
    exact ⟨chain, hchain.reopen hnew⟩

/-- After every step of a run the snapshots are those of the interval heights up to the tip and
of the tip itself, and the greatest one at or below a height from 1 to the tip is less than one
interval below it. -/
theorem snapshot_retention {s : Cache} (hs : IndexRun s) :
    ∃ tip, getTip.run s = (.ok tip, s) ∧
      (∀ k, (∃ row, (merkleSnapshot k).run s = (.ok (some row), s)) ↔
        ∃ t ∈ tip, k ≤ t.1 ∧ (k % merkleSnapshotInterval = 0 ∨ k = t.1)) ∧
      ∀ b, 1 ≤ b → (∃ t ∈ tip, b ≤ t.1) →
        ∃ height row, (greatestSnapshotAtOrBelow b).run s = (.ok (some (height, row)), s) ∧
          height ≤ b ∧ b - height < merkleSnapshotInterval := by
  obtain ⟨chain, hchain⟩ := hs.retained
  have htip : ∀ k, k < chain.length ↔ ∃ t ∈ chainTip chain, k ≤ t.1 := by
    intro k
    cases htip : chainTip chain with
    | none =>
      rw [chainTip_eq_none_iff.mp htip]
      simp
    | some tip =>
      obtain ⟨_, -, hlen, -⟩ := chainTip_eq_some_iff.mp (show chainTip chain = some (tip.1, tip.2)
        from htip)
      simp only [Option.mem_def, Option.some.injEq, exists_eq_left']
      omega
  have hlast : ∀ k, ∀ t ∈ chainTip chain, k + 1 = chain.length ↔ k = t.1 := by
    intro k t ht
    obtain ⟨_, -, hlen, -⟩ := chainTip_eq_some_iff.mp (show chainTip chain = some (t.1, t.2)
      from ht)
    omega
  refine ⟨chainTip chain, (getTip_run s).trans (Prod.ext hchain.readTip rfl), fun k => ?_,
    fun b _ hb => ?_⟩
  · have hrow : (∃ row, (merkleSnapshot k).run s = (.ok (some row), s)) ↔
        (s.db.trees.merkleSnapshots.get k).isSome := by
      rw [Option.isSome_iff_exists]
      unfold merkleSnapshot
      rw [Tree.run_get merkleSnapshots k s]
      simp [merkleSnapshots]
    rw [hrow, hchain.retained k, htip k]
    constructor
    · rintro ⟨⟨t, ht, hle⟩, hkind⟩
      exact ⟨t, ht, hle, hkind.imp_right (hlast k t ht).mp⟩
    · rintro ⟨t, ht, hle, hkind⟩
      exact ⟨⟨t, ht, hle⟩, hkind.imp_right (hlast k t ht).mpr⟩
  · obtain ⟨height, row, hfound, hle, hlt⟩ := hchain.retained.lastUpTo ((htip b).mpr hb)
    refine ⟨height, row, ?_, hle, by omega⟩
    unfold greatestSnapshotAtOrBelow
    rw [Tree.run_lastUpTo merkleSnapshots b s]
    simp only [merkleSnapshots, hfound]

/-- Three blocks, rewound to the second one. -/
def rewoundCache : Cache :=
  (rewindToHeight 1).exec ((insertCompactBlock 0 (.sample 2 3 [3] [])).exec
    ((insertCompactBlock 0 (.sample 1 2 [2] [])).exec
      ((insertCompactBlock 0 (.sample 0 1 [1] [])).exec .initial)))

/-- After a rewind: the dropped snapshot and the one below it. -/
theorem snapshot_retention_rewound :
    (¬ ∃ row, (merkleSnapshot 2).run rewoundCache = (.ok (some row), rewoundCache)) ∧
      ∃ height row, (greatestSnapshotAtOrBelow 1).run rewoundCache =
        (.ok (some (height, row)), rewoundCache) ∧ height ≤ 1 ∧
          1 - height < merkleSnapshotInterval := by
  have hrun : IndexRun rewoundCache :=
    .rewind 1 _ (.insert 0 _ _ (.insert 0 _ _ (.insert 0 _ _ (.empty 0 _ new_initial)
      (by decide +kernel) (by decide) (by decide +kernel)) (by decide +kernel) (by decide)
      (by decide +kernel)) (by decide +kernel) (by decide) (by decide +kernel))
      (by decide +kernel) (by decide)
  obtain ⟨tip, htip, hrows, hbelow⟩ := snapshot_retention hrun
  have hread : (getTip.run rewoundCache).1 = .ok (some (1, Bytes32.fill 2)) := by decide +kernel
  rw [htip] at hread
  cases hread
  refine ⟨fun hrow => ?_, hbelow 1 le_rfl ⟨_, rfl, le_rfl⟩⟩
  obtain ⟨t, ht, hle, -⟩ := (hrows 2).mp hrow
  cases ht
  exact absurd hle (by decide)

end LightWalletd
