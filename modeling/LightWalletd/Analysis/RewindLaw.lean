import LightWalletd.Analysis.Opening

/-!
# The rewind law

After a rewind to `h` nothing is left above `h`, nothing at or below `h` changed, and
the tip is the greatest cached block at or below `h`, with the tip tree at its height.
The law holds for a target that is cached and for target 0. It fails for every other
target below the tip, since the tip keys are then left as they were, and for the last
height, since the first deleted height wraps to 0.
-/

set_option autoImplicit false

namespace LightWalletd

open Stateful

/-! ## Reachable caches -/

/-- The calls that change which blocks are cached. -/
inductive CacheOp
  | insert (now : ℕ) (block : CompactBlock)
  | rewind (height : ℕ)
  | pruneBelow (minHeight : ℕ)
  | pruneRetention (retentionWindow : ℕ)

/-- The cache after a call, whether or not the call succeeded. -/
def CacheOp.apply : CacheOp → Cache → Cache
  | .insert now block, s => (insertCompactBlock now block).exec s
  | .rewind height, s => (rewindToHeight height).exec s
  | .pruneBelow minHeight, s => (pruneBelowHeight minHeight).exec s
  | .pruneRetention retentionWindow, s => (pruneWithRetention retentionWindow).exec s

/-- The caches that calls lead to, from an empty one. -/
inductive Reachable : Cache → Prop
  | empty (now : ℕ) (s : Cache) : Cache.new now .empty = .ok s → Reachable s
  | step (op : CacheOp) (s : Cache) : Reachable s → Reachable (op.apply s)

/-- `rewind_to_height` leaves the rows up to the height. -/
theorem rewindToHeight_blocks {height : ℕ} {s : Cache} (hs : s.db.blocks.Sound) :
    ((rewindToHeight height).exec s).db.blocks = s.db.blocks.rewound height := by
  have hraw : ∀ bytes, s.db.blocks.compactBlocks.get height ≠ some (.raw bytes) := by
    intro bytes hrow
    obtain ⟨block, heq, -⟩ := hs.block height _ hrow
    cases heq
  have hframe := treeFrame_besideTrees height (s.setBlocks (s.db.blocks.rewound height)).besideTrees
  have hkeeps := (deleteSnapshotsAbove_keeps hframe height).bind fun _ =>
    rebuildTipMerkleTree_keeps hframe le_rfl
  unfold Prog.exec
  rw [rewindToHeight_run hraw]
  exact congrArg Prod.fst (hkeeps.exec rfl)

/-- One call keeps the rows sound. -/
theorem CacheOp.sound_apply {s : Cache} (hs : s.db.blocks.Sound) (op : CacheOp) :
    (op.apply s).db.blocks.Sound := by
  cases op with
  | insert now block =>
    obtain ⟨merged, -, hblocks⟩ := insertCompactBlock_blocks now block s
    show ((insertCompactBlock now block).exec s).db.blocks.Sound
    rw [hblocks]
    exact hs.inserted merged
  | rewind height =>
    show ((rewindToHeight height).exec s).db.blocks.Sound
    rw [rewindToHeight_blocks hs]
    exact hs.rewound height
  | pruneBelow minHeight =>
    show ((pruneBelowHeight minHeight).exec s).db.blocks.Sound
    unfold Prog.exec
    rw [pruneBelowHeight_run]
    exact hs.deleteWhere _
  | pruneRetention retentionWindow =>
    show ((pruneWithRetention retentionWindow).exec s).db.blocks.Sound
    unfold Prog.exec pruneWithRetention
    obtain ⟨tip, htip⟩ := hs.readTip
    rw [Prog.bind_eq, Prog.run_bind, getTip_run, htip]
    rcases tip with _ | ⟨t, hash⟩
    · exact hs
    · simp only []
      by_cases hle : t ≤ retentionWindow
      · rw [if_pos hle]
        exact hs
      · rw [if_neg hle, Prog.bind_eq, Prog.run_bind_of_ok (pruneBelowHeight_run _ s)]
        exact hs.deleteWhere _

/-- Every reachable cache has sound rows. -/
theorem Reachable.sound {s : Cache} (hs : Reachable s) : s.db.blocks.Sound := by
  induction hs with
  | empty now s h =>
    rw [(new_empty h).1]
    exact BlockRows.sound_empty
  | step op s _ ih => exact op.sound_apply ih

/-- The cache after a list of calls. -/
def runCalls (ops : List CacheOp) (s : Cache) : Cache := ops.foldl (fun s op => op.apply s) s

/-- A reachable cache stays reachable. -/
theorem Reachable.runCalls {s : Cache} (hs : Reachable s) (ops : List CacheOp) :
    Reachable (runCalls ops s) := by
  induction ops generalizing s with
  | nil => exact hs
  | cons op ops ih => exact ih (.step op s hs)

/-! ## What a successful rebuild leaves -/

/-- No snapshot lies above `height`. -/
def NoSnapshotAbove (height : ℕ) (s : Cache) : Prop :=
  ∀ k, height < k → s.db.trees.merkleSnapshots.get k = none

/-- The persisted tip tree and the one in memory are at `height`. -/
def TreeHeight (height : Option ℕ) (s : Cache) : Prop :=
  s.tipTree.height = height ∧ s.db.trees.tipMerkleHeight = height.map Stored.value

/-- That there is no snapshot above a height survives the writes of a rebuild. -/
theorem treeFrame_noSnapshotAbove (height : ℕ) : TreeFrame height (NoSnapshotAbove height) where
  snapshot := by
    intro s k v hk hs j hj
    show (s.db.trees.merkleSnapshots.insert k v).get j = none
    rw [OrderedMap.get_insert, if_neg (show ¬ j = k by omega)]
    exact hs j hj
  removed := by
    intro s k hs j hj
    show (s.db.trees.merkleSnapshots.remove k).get j = none
    rw [OrderedMap.get_remove, hs j hj]
    simp
  tipKeys := fun _ _ _ hs => hs
  live := fun _ _ hs => hs

/-- `delete_snapshots_above` leaves no snapshot above the height. -/
theorem noSnapshotAbove_deleteSnapshotsAbove {height : ℕ} (h : height < u32Max) (s : Cache) :
    NoSnapshotAbove height ((deleteSnapshotsAbove height).exec s) := by
  intro k hk
  unfold Prog.exec
  rw [deleteSnapshotsAbove_run height s (fun heq => absurd heq (by omega))]
  show (s.db.trees.merkleSnapshots.filter fun h => decide (h ≤ height)).get k = none
  rw [OrderedMap.get_filter, if_neg (by simpa using hk)]

/-- The two last steps of a rebuild put the tree at its height. -/
theorem treeHeight_of_store {prev : Option ℕ} {height : ℕ} {tree : MerkleTree} {s s' : Cache}
    (h : ((storeTipTree prev height tree).bind fun _ =>
      Prog.update fun s => { s with tipTree := ⟨some height, tree, false⟩ }).run s = (.ok (), s')) :
    TreeHeight (some height) s' := by
  rw [Prog.run_bind_of_ok (storeTipTree_run _ _ _ _)] at h
  cases h
  exact ⟨rfl, rfl⟩

/-- A replay ends at its tip. -/
theorem treeHeight_replayFromSeed {tip : ℕ} {seed : Option ℕ} {tree : MerkleTree} {s s' : Cache}
    (h : (replayFromSeed tip seed tree).run s = (.ok (), s')) : TreeHeight (some tip) s' := by
  have htail : ∀ ranges t, ((rebuildLoop tip (tip + 1) (seed.getD 0) seed.isSome ranges tree).bind
      fun r => (liftExcept (appendCoins (r.1.flatMap Prod.snd) r.2)).bind fun tree =>
        (storeTipTree seed tip tree).bind fun _ =>
          Prog.update fun s => { s with tipTree := ⟨some tip, tree, false⟩ }).run t =
        (.ok (), s') → TreeHeight (some tip) s' := by
    intro ranges t ht
    obtain ⟨r, t₁, -, ht⟩ := Prog.run_bind_eq_ok ht
    obtain ⟨tree, t₂, -, ht⟩ := Prog.run_bind_eq_ok ht
    exact treeHeight_of_store ht
  unfold replayFromSeed at h
  simp only [Prog.bind_eq, Prog.pure_eq] at h
  split_ifs at h
  · exact htail _ _ h
  · obtain ⟨ranges, t, -, h⟩ := Prog.run_bind_eq_ok h
    exact htail _ _ h

/-- A rebuild that succeeds ends with the tree at its height; with no tree at all when
there is no genesis block to rebuild height 0 from. -/
theorem treeHeight_rebuildTipMerkleTree {tip : ℕ} {s s' : Cache} (hs : s.db.blocks.Sound)
    (h : (rebuildTipMerkleTree tip).run s = (.ok (), s')) :
    TreeHeight (if tip = 0 ∧ s.db.blocks.compactBlocks.get 0 = none then none else some tip) s' := by
  have hreplay : (rebuildFromSnapshots tip).run s = (.ok (), s') →
      TreeHeight (some tip) s' := by
    intro ht
    obtain ⟨_, t₁, -, ht⟩ := Prog.run_bind_eq_ok ht
    obtain ⟨seed, t₂, -, ht⟩ := Prog.run_bind_eq_ok ht
    cases seed with
    | none =>
      change (replayFromSeed tip none emptyTipTree).run _ = _ at ht
      exact treeHeight_replayFromSeed ht
    | some seed =>
      obtain ⟨height, tree⟩ := seed
      unfold rebuildFrom at ht
      by_cases hge : height ≥ tip
      · simp only [if_pos hge] at ht
        exact treeHeight_of_store ht
      · simp only [if_neg hge] at ht
        exact treeHeight_replayFromSeed ht
  rw [rebuildTipMerkleTree_eq] at h
  by_cases h0 : tip = 0
  · rw [if_pos h0] at h
    cases hrow : s.db.blocks.compactBlocks.get 0 with
    | none =>
      rw [Prog.run_bind_of_ok (getCompactBlock_run_of_none hrow)] at h
      change clearTipTree.run s = _ at h
      simp only [clearTipTree, Prog.bind_eq] at h
      rw [if_pos ⟨h0, rfl⟩]
      rw [Prog.run_bind_of_ok (Cell.run_remove _ _), Prog.run_bind_of_ok (Cell.run_remove _ _),
        Prog.run_bind_of_ok (clearMerkleSnapshots_run _)] at h
      cases h
      exact ⟨rfl, rfl⟩
    | some row =>
      obtain ⟨block, rfl, -⟩ := hs.block 0 row hrow
      rw [Prog.run_bind_of_ok (getCompactBlock_run_of_value hrow)] at h
      rw [if_neg (by simp)]
      exact hreplay h
  · rw [if_neg h0] at h
    rw [if_neg (fun hc => h0 hc.1)]
    exact hreplay h

/-! ## The law -/

/-- The greatest cached block at or below `h`, as a tip. -/
def BlockRows.greatestTip (b : BlockRows) (h : ℕ) : Option (ℕ × Bytes32) :=
  (b.compactBlocks.lastUpTo h).bind fun
    | (k, .value block) => some (k, block.hash)
    | (_, .raw _) => none

/-- What a rewind of `s` to `h` that ends in `s'` ought to do. -/
structure RewindLaw (h : ℕ) (s s' : Cache) : Prop where
  above : ∀ k, h < k → s'.db.blocks.compactBlocks.get k = none ∧
    s'.db.blocks.blockHashes.get k = none ∧ s'.db.blocks.nullifiers.get k = none ∧
    s'.db.blocks.coins.get k = none ∧ s'.db.trees.merkleSnapshots.get k = none
  below : ∀ k ≤ h, s'.db.blocks.compactBlocks.get k = s.db.blocks.compactBlocks.get k ∧
    s'.db.blocks.blockHashes.get k = s.db.blocks.blockHashes.get k ∧
    s'.db.blocks.nullifiers.get k = s.db.blocks.nullifiers.get k ∧
    s'.db.blocks.coins.get k = s.db.blocks.coins.get k
  tip : s'.db.blocks.readTip = .ok (s'.db.blocks.greatestTip h)
  treeHeight : TreeHeight ((s'.db.blocks.greatestTip h).map Prod.fst) s'

/-- A cached height is the greatest cached one up to itself. -/
theorem BlockRows.greatestTip_of_cached {b : BlockRows} {h : ℕ} {block : CompactBlock}
    (hrow : b.compactBlocks.get h = some (.value block)) :
    b.greatestTip h = some (h, block.hash) := by
  unfold BlockRows.greatestTip
  rw [(OrderedMap.lastUpTo_eq_some_iff _ h h (.value block)).mpr ⟨hrow, le_rfl, fun _ _ hk => hk⟩]
  rfl

/-- Rows after a rewind that does not wrap, apart from the tip keys. -/
theorem BlockRows.rewound_rows {b : BlockRows} {h : ℕ} (hb : b.Sound) (hmax : h < u32Max) :
    (b.rewound h).compactBlocks = b.compactBlocks.filter (fun k => decide (k ≤ h)) ∧
    (b.rewound h).blockHashes = b.blockHashes.filter (fun k => decide (k ≤ h)) ∧
    (b.rewound h).nullifiers = b.nullifiers.filter (fun k => decide (k ≤ h)) ∧
    (b.rewound h).coins = b.coins.filter (fun k => decide (k ≤ h)) := by
  have hfrom : wrappingAdd h 1 = h + 1 := by
    unfold wrappingAdd
    exact Nat.mod_eq_of_lt (by omega)
  have hkeep : (fun k : ℕ => !decide (wrappingAdd h 1 ≤ k)) = fun k => decide (k ≤ h) := by
    funext k
    rw [hfrom, Bool.eq_iff_iff]
    simp only [Bool.not_eq_true', decide_eq_false_iff_not, decide_eq_true_eq]
    omega
  have hrows : ∀ b' : BlockRows, (b'.rewoundTip h).compactBlocks = b'.compactBlocks ∧
      (b'.rewoundTip h).blockHashes = b'.blockHashes ∧
      (b'.rewoundTip h).nullifiers = b'.nullifiers ∧ (b'.rewoundTip h).coins = b'.coins := by
    intro b'
    unfold BlockRows.rewoundTip
    rcases b'.compactBlocks.get h with _ | block | bytes
    · simp only []
      split_ifs <;> exact ⟨rfl, rfl, rfl, rfl⟩
    · exact ⟨rfl, rfl, rfl, rfl⟩
    · exact ⟨rfl, rfl, rfl, rfl⟩
  obtain ⟨h1, h2, h3, h4⟩ := hrows (b.deleteWhere fun k => decide (wrappingAdd h 1 ≤ k))
  unfold BlockRows.rewound
  rw [h1, h2, h3, h4, BlockRows.deleteWhere_compactBlocks, hb.deleteWhere_blockHashes,
    hb.deleteWhere_nullifiers, hb.deleteWhere_coins, hkeep]
  exact ⟨rfl, rfl, rfl, rfl⟩

/-- The tip keys after a rewind. A target that is not cached leaves them alone, unless it is 0. -/
theorem BlockRows.rewound_readTip {b : BlockRows} {h : ℕ} (hb : b.Sound) :
    (b.rewound h).readTip = match (b.rewound h).compactBlocks.get h with
      | some (.value block) => .ok (some (h, block.hash))
      | _ => if h = 0 then .ok none else b.readTip := by
  have hdel := hb.deleteWhere fun k => decide (wrappingAdd h 1 ≤ k)
  unfold BlockRows.rewound BlockRows.rewoundTip
  rcases hrow : (b.deleteWhere fun k => decide (wrappingAdd h 1 ≤ k)).compactBlocks.get h
    with _ | block | bytes
  · simp only []
    by_cases h0 : h = 0
    · simp only [if_pos h0, hrow]
      rfl
    · simp only [if_neg h0, hrow]
      exact BlockRows.deleteWhere_readTip b _
  · have hsame : ((b.deleteWhere fun k => decide (wrappingAdd h 1 ≤ k)).setTip h
        block.hash).compactBlocks.get h = some (.value block) := hrow
    simp only [hsame]
    exact BlockRows.readTip_setTip h block.hash
  · obtain ⟨block, heq, -⟩ := hdel.block h _ hrow
    cases heq

/-- The last height is its own successor, and a rewind to it empties the rows. -/
theorem BlockRows.rewound_lastHeight (b : BlockRows) :
    (b.rewound u32Max).compactBlocks.get u32Max = none := by
  have hwrap : wrappingAdd u32Max 1 = 0 := by decide
  have hdel : (b.deleteWhere fun k => decide (wrappingAdd u32Max 1 ≤ k)).compactBlocks.get u32Max =
      none := by
    rw [BlockRows.deleteWhere_compactBlocks, OrderedMap.get_filter, hwrap]
    simp
  unfold BlockRows.rewound BlockRows.rewoundTip
  simp only [hdel]
  split_ifs <;> exact hdel

section Law

variable {s s' : Cache} {h t : ℕ} {hash : Bytes32}

/-- The tip after a rewind is the block at the height, if there is one. -/
theorem readTip_of_rewound (hsound : s.db.blocks.Sound)
    (htip : s.db.blocks.readTip = .ok (some (t, hash)))
    (hblocks : s'.db.blocks = s.db.blocks.rewound h) :
    s'.db.blocks.readTip = match s'.db.blocks.compactBlocks.get h with
      | some (.value block) => .ok (some (h, block.hash))
      | _ => if h = 0 then .ok none else .ok (some (t, hash)) := by
  rw [hblocks, BlockRows.rewound_readTip hsound, htip]

/-- Where the law holds, the target had a block or was 0: else the old tip is still there. -/
theorem RewindLaw.cached (law : RewindLaw h s s') (hsound : s.db.blocks.Sound)
    (htip : s.db.blocks.readTip = .ok (some (t, hash))) (hle : h ≤ t)
    (hblocks : s'.db.blocks = s.db.blocks.rewound h) :
    ((s.db.blocks.compactBlocks.get h).isSome ∨ h = 0) ∧ h ≠ u32Max := by
  have hreadTip := readTip_of_rewound hsound htip hblocks
  have hzero : (0 : ℕ) ≠ u32Max := by decide
  by_contra hcond
  have hgone : s'.db.blocks.compactBlocks.get h = none := by
    by_cases hmax : h = u32Max
    · rw [hblocks, hmax]
      exact BlockRows.rewound_lastHeight _
    · have hnone : s.db.blocks.compactBlocks.get h = none := by
        by_contra hsome
        exact hcond ⟨Or.inl (Option.isSome_iff_ne_none.mpr hsome), hmax⟩
      rw [(law.below h le_rfl).1, hnone]
  have hpos : h ≠ 0 := fun h0 => hcond ⟨Or.inr h0, h0 ▸ hzero⟩
  rw [hgone] at hreadTip
  simp only [if_neg hpos] at hreadTip
  have hgreat := law.tip
  rw [hreadTip] at hgreat
  -- the old tip would have to be cached, at the target itself
  unfold BlockRows.greatestTip at hgreat
  rcases hlast : s'.db.blocks.compactBlocks.lastUpTo h with _ | ⟨k, row⟩
  · rw [hlast] at hgreat
    cases hgreat
  · obtain ⟨hk, hkle, -⟩ := (OrderedMap.lastUpTo_eq_some_iff _ _ _ _).mp hlast
    rw [hlast] at hgreat
    cases row with
    | raw bytes => cases hgreat
    | value block =>
      have htk : t = k := by
        injection hgreat with hgreat
        injection hgreat with hgreat
        exact congrArg Prod.fst hgreat
      have hkh : k = h := by omega
      rw [hkh, hgone] at hk
      cases hk

/-- A rewind drops the snapshots above the target and leaves the tree there. -/
theorem rewindToHeight_tree (hsound : s.db.blocks.Sound) (hlt : h < u32Max)
    (hok : (rewindToHeight h).run s = (.ok (), s')) :
    NoSnapshotAbove h s' ∧ TreeHeight (if h = 0 ∧
      (s.db.blocks.rewound h).compactBlocks.get 0 = none then none else some h) s' := by
  have hraw : ∀ bytes, s.db.blocks.compactBlocks.get h ≠ some (.raw bytes) := by
    intro bytes hrow
    obtain ⟨block, heq, -⟩ := hsound.block h _ hrow
    cases heq
  have hrun := rewindToHeight_run hraw
  rw [hok] at hrun
  obtain ⟨_, t₁, hrun₁, hrun₂⟩ := Prog.run_bind_eq_ok hrun.symm
  have hafter : NoSnapshotAbove h t₁ := by
    have hexec := noSnapshotAbove_deleteSnapshotsAbove hlt (s.setBlocks (s.db.blocks.rewound h))
    unfold Prog.exec at hexec
    rwa [hrun₁] at hexec
  have hblocks₁ : t₁.db.blocks = s.db.blocks.rewound h := by
    have hframe := treeFrame_besideTrees h (s.setBlocks (s.db.blocks.rewound h)).besideTrees
    exact congrArg Prod.fst ((deleteSnapshotsAbove_keeps hframe h).run rfl hrun₁)
  have hheight := treeHeight_rebuildTipMerkleTree (by rw [hblocks₁]; exact hsound.rewound h) hrun₂
  rw [hblocks₁] at hheight
  exact ⟨(rebuildTipMerkleTree_keeps (treeFrame_noSnapshotAbove h) le_rfl).run hafter hrun₂,
    hheight⟩

/-- A target that has a block or is 0 gets the law. -/
theorem rewindLaw_of_cached (hsound : s.db.blocks.Sound)
    (htip : s.db.blocks.readTip = .ok (some (t, hash))) (hlt : h < u32Max)
    (hcached : (s.db.blocks.compactBlocks.get h).isSome ∨ h = 0)
    (hblocks : s'.db.blocks = s.db.blocks.rewound h)
    (hok : (rewindToHeight h).run s = (.ok (), s')) : RewindLaw h s s' := by
  have hreadTip := readTip_of_rewound hsound htip hblocks
  obtain ⟨hsnaps, hheight⟩ := rewindToHeight_tree hsound hlt hok
  obtain ⟨h1, h2, h3, h4⟩ := BlockRows.rewound_rows hsound hlt
  rw [← hblocks] at h1 h2 h3 h4 hheight
  have hat : s'.db.blocks.compactBlocks.get h = s.db.blocks.compactBlocks.get h := by
    rw [h1, OrderedMap.get_filter, if_pos (by simp)]
  have hgreat : s'.db.blocks.readTip = .ok (s'.db.blocks.greatestTip h) ∧
      TreeHeight ((s'.db.blocks.greatestTip h).map Prod.fst) s' := by
    rcases hrow : s'.db.blocks.compactBlocks.get h with _ | block | bytes
    · have h0 : h = 0 := by
        rcases hcached with hsome | h0
        · rw [← hat, hrow] at hsome
          cases hsome
        · exact h0
      have hnone : s'.db.blocks.greatestTip h = none := by
        unfold BlockRows.greatestTip
        rw [(OrderedMap.lastUpTo_eq_none_iff _ h).mpr fun k hk => by
          have hk0 : k = h := by omega
          rw [hk0, hrow]]
        rfl
      rw [hrow] at hreadTip
      simp only [if_pos h0] at hreadTip
      rw [hnone, hreadTip]
      rw [h0] at hrow
      rw [if_pos ⟨h0, hrow⟩] at hheight
      exact ⟨rfl, hheight⟩
    · rw [BlockRows.greatestTip_of_cached hrow, hreadTip, hrow]
      have hno : ¬ (h = 0 ∧ s'.db.blocks.compactBlocks.get 0 = none) := by
        rintro ⟨h0, hnone⟩
        rw [h0, hnone] at hrow
        cases hrow
      rw [if_neg hno] at hheight
      exact ⟨rfl, hheight⟩
    · rw [hat] at hrow
      obtain ⟨block, heq, -⟩ := hsound.block h _ hrow
      cases heq
  refine ⟨fun k hk => ?_, fun k hk => ?_, hgreat.1, hgreat.2⟩
  · have hno : decide (k ≤ h) = false := by simpa using hk
    rw [h1, h2, h3, h4]
    simp only [OrderedMap.get_filter, hno, Bool.false_eq_true, if_false, true_and]
    exact hsnaps k hk
  · have hyes : decide (k ≤ h) = true := by simpa using hk
    rw [h1, h2, h3, h4]
    simp only [OrderedMap.get_filter, hyes, if_true, and_self]

end Law

/-- For a cache that calls lead to and a target at or below the tip, a rewind that
succeeds obeys the law exactly when the target is cached or 0 and is not the last height. -/
theorem rewind_law_iff {s s' : Cache} {h t : ℕ} {hash : Bytes32} (hs : Reachable s)
    (htip : s.db.blocks.readTip = .ok (some (t, hash))) (hle : h ≤ t) (hu32 : h ≤ u32Max)
    (hok : (rewindToHeight h).run s = (.ok (), s')) :
    RewindLaw h s s' ↔
      ((s.db.blocks.compactBlocks.get h).isSome ∨ h = 0) ∧ h ≠ u32Max := by
  have hsound := hs.sound
  have hblocks : s'.db.blocks = s.db.blocks.rewound h := by
    rw [← rewindToHeight_blocks hsound]
    unfold Prog.exec
    rw [hok]
  constructor
  · exact fun law => law.cached hsound htip hle hblocks
  · rintro ⟨hcached, hmax⟩
    exact rewindLaw_of_cached hsound htip (by omega) hcached hblocks hok

/-- Blocks 0 and 1. -/
def blocksZeroOne : Cache :=
  runCalls [.insert 0 (.sample 0 1 [1] []), .insert 0 (.sample 1 2 [2] [])] .initial

/-- Blocks 5 and 10. -/
def blocksFiveTen : Cache :=
  runCalls [.insert 0 (.sample 5 1 [1] []), .insert 0 (.sample 10 2 [2] [])] .initial

/-- The law for the genesis block of two. -/
theorem rewind_law_iff_zero : RewindLaw 0 blocksZeroOne ((rewindToHeight 0).exec blocksZeroOne) :=
  (rewind_law_iff ((Reachable.empty 0 _ new_initial).runCalls _)
    (show blocksZeroOne.db.blocks.readTip = .ok (some (1, Bytes32.fill 2)) by decide +kernel)
    (by decide) (by decide) (Prod.ext (by decide +kernel) rfl)).mpr
    ⟨Or.inr rfl, by decide⟩

/-- Rewinding blocks 5 and 10 to height 7 deletes block 10 and leaves the tip there. -/
theorem rewind_to_hole_keeps_tip :
    Reachable blocksFiveTen ∧
      blocksFiveTen.db.blocks.readTip = .ok (some (10, Bytes32.fill 2)) ∧
      ((rewindToHeight 7).run blocksFiveTen).1 = .ok () ∧
      ((rewindToHeight 7).exec blocksFiveTen).db.blocks.readTip =
        .ok (some (10, Bytes32.fill 2)) ∧
      ¬ RewindLaw 7 blocksFiveTen ((rewindToHeight 7).exec blocksFiveTen) := by
  have htip : ((rewindToHeight 7).exec blocksFiveTen).db.blocks.readTip =
      .ok (some (10, Bytes32.fill 2)) := by
    decide +kernel
  have hgreat : ((rewindToHeight 7).exec blocksFiveTen).db.blocks.greatestTip 7 =
      some (5, Bytes32.fill 1) := by
    decide +kernel
  refine ⟨(Reachable.empty 0 _ new_initial).runCalls _, by decide +kernel, by decide +kernel, htip,
    fun law => ?_⟩
  have hlaw := law.tip
  rw [htip, hgreat] at hlaw
  cases hlaw

end LightWalletd
