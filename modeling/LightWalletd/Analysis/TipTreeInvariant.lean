import LightWalletd.Analysis.TreeState

/-!
# The tip-tree invariant

In every run that inserts blocks at heights not yet cached, rewinds to cached heights
and reopens the cache, the tip tree in memory and on disk sits at the tip and has the
sentinel and the coins of all cached blocks as leaves, in ascending height; every
snapshot has those up to its height. So the tree depends on which blocks are cached and
not on how they came.
-/

set_option autoImplicit false

namespace LightWalletd

open Stateful

/-- The runs of the invariant. -/
inductive CleanRun : Cache → Prop
  | empty (now : ℕ) (s : Cache) : Cache.new now .empty = .ok s → CleanRun s
  | insert (now : ℕ) (block : CompactBlock) (s : Cache) : CleanRun s →
      s.db.blocks.compactBlocks.get block.height = none → block.height < u32Max →
      block.CanonicalCoins → CleanRun ((insertCompactBlock now block).exec s)
  | rewind (height : ℕ) (s : Cache) : CleanRun s →
      (s.db.blocks.compactBlocks.get height).isSome → CleanRun ((rewindToHeight height).exec s)
  | reopen (now : ℕ) (s s' : Cache) : CleanRun s → Cache.new now s.db = .ok s' → CleanRun s'

/-- The coins of the cached blocks that satisfy `p`, in ascending height. -/
def Cache.cachedCoins (s : Cache) (p : ℕ → Bool) : List Bytes32 :=
  (s.db.blocks.compactBlocks.filter p).rows.flatMap fun r => blockCoins r.2

/-- What holds after every step. -/
structure TipTreeInvariant (s : Cache) : Prop where
  /-- The tree in memory is at the tip. -/
  liveHeight : s.tipTree.height.map Stored.value = s.db.blocks.tipHeight
  liveLeaves : s.tipTree.tree.leafBytes = Base.zero.repr :: s.cachedCoins fun _ => true
  /-- The persisted tree is the one in memory. -/
  persisted : getTipTreeState.run s =
    (.ok (s.tipTree.height.map fun height => (height, .value s.tipTree.tree)), s)
  snapshots : ∀ k row, s.db.trees.merkleSnapshots.get k = some row →
    ∃ tree, row = .value tree ∧
      tree.leafBytes = Base.zero.repr :: s.cachedCoins fun h => decide (h ≤ k)

/-- The state of a clean run: what the cached blocks make of it, with a tip that is cached. -/
structure CleanState (m : BlockMap) (s : Cache) : Prop extends TreeState m s where
  below : ∀ k, (m k).isSome → k < u32Max
  liveHeight : s.tipTree.height.map Stored.value = s.db.blocks.tipHeight
  cached : ∀ H, s.tipTree.height = some H → (m H).isSome

section State

variable {m : BlockMap} {s : Cache}

/-- The coins of the cached blocks up to `k` are those of the map. -/
theorem BlockRows.Holds.cachedCoins (h : s.db.blocks.Holds m) (k : ℕ) :
    s.cachedCoins (fun j => decide (j ≤ k)) = coinsBelow (coinsOf m) (k + 1) := by
  unfold Cache.cachedCoins coinsBelow
  rw [OrderedMap.rows_flatMap_eq_range _ (fun _ row => blockCoins row) (k + 1)]
  · apply List.flatMap_congr
    intro j hj
    have hjk : j ≤ k := by
      have := List.mem_range.mp hj
      omega
    rw [OrderedMap.get_filter, if_pos (by simpa using hjk), h.compactBlocks]
    unfold coinsOf
    cases m j <;> rfl
  · intro j hj
    rw [OrderedMap.get_filter] at hj
    by_cases hjk : j ≤ k
    · omega
    · simp [hjk] at hj

/-- Above the blocks the bound does not matter. -/
theorem BlockRows.Holds.cachedCoins_all (h : s.db.blocks.Holds m) {k : ℕ}
    (hk : ∀ j, (m j).isSome → j ≤ k) :
    s.cachedCoins (fun _ => true) = coinsBelow (coinsOf m) (k + 1) := by
  rw [← h.cachedCoins]
  unfold Cache.cachedCoins
  have heq : (s.db.blocks.compactBlocks.filter fun _ => true) =
      s.db.blocks.compactBlocks.filter fun j => decide (j ≤ k) := by
    apply OrderedMap.get_ext
    intro j
    rw [OrderedMap.get_filter, OrderedMap.get_filter, h.compactBlocks]
    cases hj : m j with
    | none => simp
    | some block => simp [hk j (by rw [hj]; rfl)]
  rw [heq]

/-- A clean state has the invariant. -/
theorem CleanState.invariant (hs : CleanState m s) : TipTreeInvariant s := by
  have hcan : ∀ k, Canonical (coinsOf m k) := hs.canonical_coinsOf
  rcases hs.tree with ⟨hlive, htrees, hnil⟩ | ⟨H, hat⟩
  · have hnone : ∀ k, m k = none := by
      rcases hs.tip with ⟨-, -, hnone⟩ | ⟨t, hash, h1, -⟩
      · exact hnone
      · have hheight := hs.liveHeight
        rw [hlive, h1] at hheight
        cases hheight
    have hall : s.cachedCoins (fun _ => true) = [] := by
      rw [hs.rows.cachedCoins_all (k := 0) fun j hj => by rw [hnone j] at hj; cases hj]
      exact List.flatMap_eq_nil_iff.mpr fun k _ => hnil k
    refine ⟨hs.liveHeight, ?_, ?_, fun k row hrow => ?_⟩
    · rw [hall, hlive]
      rfl
    · rw [getTipTreeState_run, htrees, hlive]
      rfl
    · rw [htrees] at hrow
      cases hrow
  · have hle : ∀ j, (m j).isSome → j ≤ H := by
      rcases hs.tip with ⟨-, -, hnone⟩ | ⟨t, hash, h1, -, -, hle⟩
      · intro j hj
        rw [hnone j] at hj
        cases hj
      · have hheight := hs.liveHeight
        rw [hat.live, h1] at hheight
        cases hheight
        exact hle
    refine ⟨hs.liveHeight, ?_, ?_, fun k row hrow => ?_⟩
    · rw [hs.rows.cachedCoins_all hle, hat.live]
      exact leafBytes_treeTo fun k _ => hcan k
    · rw [getTipTreeState_run, hat.tipMerkleHeight, hat.tipMerkleTree, hat.live]
      rfl
    · refine ⟨_, (hat.snapshots k row hrow).2, ?_⟩
      rw [hs.rows.cachedCoins]
      exact leafBytes_treeTo fun j _ => hcan j

/-- Inserting a block at a height that is not cached succeeds and keeps the state. -/
theorem CleanState.insert (now : ℕ) {block : CompactBlock} (hs : CleanState m s)
    (hfresh : m block.height = none) (hmax : block.height < u32Max)
    (hcan : block.CanonicalCoins) :
    ∃ merged s', (insertCompactBlock now block).run s = (.ok (), s') ∧
      CleanState (Function.update m block.height (some merged)) s' := by
  have hok : Overwritable m s block := by
    refine overwritable_of_fresh hfresh fun h0 ht => ?_
    rcases hs.tree with ⟨-, htrees, -⟩ | ⟨H, hat⟩
    · rw [htrees]
      rfl
    · -- the tree is at the tip, which would have to be height 0 itself
      have hheight := hs.liveHeight
      rw [hat.live] at hheight
      have hH0 := ht H hheight.symm
      have hcached := hs.cached H (by rw [hat.live])
      rw [hH0, ← h0, hfresh] at hcached
      cases hcached
  obtain ⟨merged, s', -, hrun, hstate, H, hlive, htip, hH⟩ :=
    hs.toTreeState.insert now hcan hmax.le hok
  refine ⟨merged, s', hrun, hstate, fun k hk => ?_, by rw [hlive, htip]; rfl, fun H' hH' => ?_⟩
  · by_cases heq : k = block.height
    · omega
    · rw [Function.update_of_ne heq] at hk
      exact hs.below k hk
  · rw [hlive] at hH'
    cases hH'
    by_cases heq : H = block.height
    · rw [heq, Function.update_self]
      rfl
    · have hold : s.tipTree.height = some H := by
        have hheight := hs.liveHeight
        rw [hH.resolve_left heq] at hheight
        obtain ⟨H', hsome, hval⟩ := Option.map_eq_some_iff.mp hheight
        cases hval
        exact hsome
      rw [Function.update_of_ne heq]
      exact hs.cached H hold

/-- Rewinding to a cached height succeeds and keeps the state. -/
theorem CleanState.rewind {h : ℕ} (hs : CleanState m s) (hcached : (m h).isSome) :
    ∃ s', (rewindToHeight h).run s = (.ok (), s') ∧ CleanState (m.upTo h) s' := by
  have hmax := hs.below h hcached
  obtain ⟨s', hrun, hstate, hblocks, hlive, -⟩ := hs.toTreeState.rewind hmax
  obtain ⟨block, hblock⟩ := Option.isSome_iff_exists.mp hcached
  have hno : ¬ (h = 0 ∧ m 0 = none) := by
    rintro ⟨h0, hnone⟩
    rw [h0, hnone] at hblock
    cases hblock
  have hself : m.upTo h h = some block := by
    unfold BlockMap.upTo
    rw [if_pos le_rfl, hblock]
  rw [if_neg hno] at hlive
  refine ⟨s', hrun, hstate, fun k hk => ?_, ?_, fun H hH => ?_⟩
  · unfold BlockMap.upTo at hk
    split_ifs at hk
    · exact hs.below k hk
    · cases hk
  · have hread := BlockRows.rewound_readTip (h := h) hs.sound
    rw [← hblocks, hstate.rows.compactBlocks, hself] at hread
    rcases hstate.tip with ⟨-, -, hnone⟩ | ⟨t, hash, h1, h2, -⟩
    · rw [hnone h] at hself
      cases hself
    · unfold BlockRows.readTip at hread
      rw [h1, h2] at hread
      cases hread
      rw [hlive, h1]
      rfl
  · rw [hlive] at hH
    cases hH
    rw [hself]
    rfl

/-- A clean state can be opened again. -/
theorem CleanState.reopen (now : ℕ) (hs : CleanState m s) :
    ∃ s', Cache.new now s.db = .ok s' ∧ CleanState m s' := by
  obtain ⟨s', hnew, hstate, hblocks, hlive⟩ := hs.toTreeState.reopen now
  exact ⟨s', hnew, hstate, hs.below, by rw [hblocks, hlive]; exact hs.liveHeight,
    by rw [hlive]; exact hs.cached⟩

end State

/-- Every clean run ends in a clean state of the blocks it caches. -/
theorem CleanRun.state {s : Cache} (hs : CleanRun s) : ∃ m, CleanState m s := by
  induction hs with
  | empty now s hnew =>
    have hlive := (new_empty hnew).2.2.2
    refine ⟨fun _ => none, TreeState.of_new hnew, fun k hk => absurd hk (by simp), ?_,
      fun H hH => ?_⟩
    · rw [hlive, (new_empty hnew).1]
      rfl
    · rw [hlive] at hH
      cases hH
  | insert now block s _ hfresh hmax hcan ih =>
    obtain ⟨m, hm⟩ := ih
    have hnone : m block.height = none := by
      rwa [hm.rows.compactBlocks, Option.map_eq_none_iff] at hfresh
    obtain ⟨merged, s', hrun, hstate⟩ := hm.insert now hnone hmax hcan
    refine ⟨Function.update m block.height (some merged), ?_⟩
    unfold Prog.exec
    rw [hrun]
    exact hstate
  | rewind height s _ hcached ih =>
    obtain ⟨m, hm⟩ := ih
    have hsome : (m height).isSome := by
      rwa [hm.rows.compactBlocks, Option.isSome_map] at hcached
    obtain ⟨s', hrun, hstate⟩ := hm.rewind hsome
    refine ⟨m.upTo height, ?_⟩
    unfold Prog.exec
    rw [hrun]
    exact hstate
  | reopen now s s' _ hnew ih =>
    obtain ⟨m, hm⟩ := ih
    obtain ⟨s'', hnew', hstate⟩ := hm.reopen now
    rw [hnew] at hnew'
    cases hnew'
    exact ⟨m, hstate⟩

/-- The tip-tree invariant holds after every step of a clean run, and two clean runs that
cache the same blocks have the same tree. -/
theorem tip_tree_invariant :
    (∀ s, CleanRun s → TipTreeInvariant s) ∧
      ∀ s s', CleanRun s → CleanRun s' →
        s.db.blocks.compactBlocks = s'.db.blocks.compactBlocks → s.tipTree.tree = s'.tipTree.tree := by
  have hinv : ∀ s, CleanRun s → TipTreeInvariant s := by
    intro s hs
    obtain ⟨m, hm⟩ := hs.state
    exact hm.invariant
  refine ⟨hinv, fun s s' hs hs' heq => leafBytes_injective ?_⟩
  rw [(hinv s hs).liveLeaves, (hinv s' hs').liveLeaves]
  unfold Cache.cachedCoins
  rw [heq]

/-- Blocks 3 and 5 in ascending order. -/
def threeThenFive : Cache :=
  (insertCompactBlock 0 (.sample 5 2 [2, 3] [])).exec
    ((insertCompactBlock 0 (.sample 3 1 [1] [])).exec .initial)

/-- Blocks 3 and 5, the lower one as a backfill. -/
def fiveThenThree : Cache :=
  (insertCompactBlock 0 (.sample 3 1 [1] [])).exec
    ((insertCompactBlock 0 (.sample 5 2 [2, 3] [])).exec .initial)

/-- Blocks 3 and 5 in either order. -/
theorem tip_tree_invariant_three_five :
    TipTreeInvariant fiveThenThree ∧ threeThenFive.tipTree.tree = fiveThenThree.tipTree.tree := by
  have hup : CleanRun threeThenFive :=
    .insert 0 _ _ (.insert 0 _ _ (.empty 0 _ new_initial) (by decide +kernel) (by decide)
      (by decide +kernel)) (by decide +kernel) (by decide) (by decide +kernel)
  have hdown : CleanRun fiveThenThree :=
    .insert 0 _ _ (.insert 0 _ _ (.empty 0 _ new_initial) (by decide +kernel) (by decide)
      (by decide +kernel)) (by decide +kernel) (by decide) (by decide +kernel)
  exact ⟨tip_tree_invariant.1 _ hdown, tip_tree_invariant.2 _ _ hup hdown (by decide +kernel)⟩

end LightWalletd
