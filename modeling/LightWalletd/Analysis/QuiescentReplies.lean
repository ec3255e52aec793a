import Mathlib.Order.Bounds.Basic
import LightWalletd.Analysis.TreeReplies

/-!
# Tree replies of a cache at rest

Between two operations of the poller a tree request runs alone. What it hands out is then the
tree that the indexer has for the height of the reply: the sentinel and the coins of all cached
blocks up to there, so that a wallet may append the coins of the next block. The one exception
is the tree of an empty cache, which has no sentinel.
-/

set_option autoImplicit false

namespace LightWalletd

open Stateful

/-! ## Runs -/

/-- The height of the next block: 0 in an empty cache, else the one above the tip. -/
def Cache.nextHeight (s : Cache) : ℕ :=
  match s.db.blocks.readTip with
  | .ok (some (tip, _)) => tip + 1
  | _ => 0

/-- The caches that the poller makes of an empty one. A rewind does not go to the last height
of all. -/
inductive IndexRun : Cache → Prop
  | empty (now : ℕ) (s : Cache) : Cache.new now .empty = .ok s → IndexRun s
  | insert (now : ℕ) (block : CompactBlock) (s : Cache) : IndexRun s →
      block.height = s.nextHeight → block.height ≤ u32Max → block.CanonicalCoins →
      IndexRun ((insertCompactBlock now block).exec s)
  | rewind (height : ℕ) (s : Cache) : IndexRun s →
      (s.db.blocks.compactBlocks.get height).isSome → height < u32Max →
      IndexRun ((rewindToHeight height).exec s)
  | reopen (now : ℕ) (s s' : Cache) : IndexRun s → Cache.new now s.db = .ok s' → IndexRun s'

/-- The next height of a stack is its length. -/
theorem StackState.nextHeight {chain : List CompactBlock} {s : Cache} (hs : StackState chain s) :
    s.nextHeight = chain.length := by
  unfold Cache.nextHeight
  rw [hs.readTip]
  cases htip : chainTip chain with
  | none => rw [chainTip_eq_none_iff.mp htip, List.length_nil]
  | some tip =>
    obtain ⟨_, -, hlen, -⟩ := chainTip_eq_some_iff.mp (show chainTip chain = some (tip.1, tip.2)
      from htip)
    exact hlen.symm

/-- Every run ends in what some blocks at the heights from 0 on make of the cache. -/
theorem IndexRun.state {s : Cache} (hs : IndexRun s) : ∃ chain, StackState chain s := by
  induction hs with
  | empty now s hnew => exact ⟨[], .of_new hnew⟩
  | insert now block s _ hnext hmax hcan ih =>
    obtain ⟨chain, hchain⟩ := ih
    rw [hchain.nextHeight] at hnext
    obtain ⟨merged, s', -, hrun, hstate⟩ := hchain.append now hcan hnext (hnext ▸ hmax)
    refine ⟨chain ++ [merged], ?_⟩
    unfold Prog.exec
    rw [hrun]
    exact hstate
  | rewind height s _ hcached hmax ih =>
    obtain ⟨chain, hchain⟩ := ih
    rw [hchain.rows.compactBlocks, Option.isSome_map, chainMap_isSome] at hcached
    obtain ⟨s', hrun, hstate⟩ := hchain.rewind hcached hmax
    refine ⟨chain.take (height + 1), ?_⟩
    unfold Prog.exec
    rw [hrun]
    exact hstate
  | reopen now s s' _ hnew ih =>
    obtain ⟨chain, hchain⟩ := ih
    obtain ⟨s'', hnew', hstate⟩ := hchain.reopen now
    rw [hnew] at hnew'
    cases hnew'
    exact ⟨chain, hstate⟩

/-! ## The requests only read -/

section ReadOnly

/-- Raising a known result changes nothing. -/
theorem readOnly_liftExcept {α : Type} (r : Except LightWalletError α) :
    (liftExcept r).ReadOnly := by
  cases r <;> trivial

/-- `get_tip` changes nothing. -/
theorem readOnly_getTip : getTip.ReadOnly := by
  unfold getTip
  refine Prog.ReadOnly.bind (fun _ => trivial) fun row => ?_
  cases row with
  | none => trivial
  | some row =>
    refine Prog.ReadOnly.bind (readOnly_liftExcept _) fun height => ?_
    refine Prog.ReadOnly.bind (fun _ => trivial) fun row => ?_
    cases row with
    | none => trivial
    | some row => exact Prog.ReadOnly.bind (readOnly_liftExcept _) fun hash => trivial

/-- `get_block_hash` changes nothing. -/
theorem readOnly_getBlockHash (height : ℕ) : (getBlockHash height).ReadOnly := by
  unfold getBlockHash
  refine Prog.ReadOnly.bind (fun _ => trivial) fun row => ?_
  cases row with
  | none => trivial
  | some row => exact Prog.ReadOnly.bind (readOnly_liftExcept _) fun hash => trivial

/-- The hash of a reply changes nothing. -/
theorem readOnly_blockHashVec (height : ℕ) : (blockHashVec height).ReadOnly := by
  unfold blockHashVec
  refine Prog.ReadOnly.bind ((readOnly_getBlockHash height).attempt.mapError _) fun r => ?_
  rcases r with e | hash
  · trivial
  · cases hash <;> trivial

/-- `get_tip_tree_state` changes nothing. -/
theorem readOnly_getTipTreeState : getTipTreeState.ReadOnly := by
  unfold getTipTreeState
  refine Prog.ReadOnly.bind (fun _ => trivial) fun row => ?_
  rcases row with _ | height | bytes
  · trivial
  · refine Prog.ReadOnly.bind (fun _ => trivial) fun tree => ?_
    cases tree <;> trivial
  · trivial

/-- `GetTreeState` changes nothing. -/
theorem readOnly_getTreeState (w : Wire) (height : ℕ) : (getTreeState w height).ReadOnly := by
  unfold getTreeState
  refine Prog.ReadOnly.bind (readOnly_getTip.mapError _) fun cachedTip => ?_
  dsimp only
  by_cases hask : height = (cachedTip.map Prod.fst).getD 0
  · rw [if_pos hask]
    refine Prog.ReadOnly.bind (readOnly_getTipTreeState.mapError _) fun keys => ?_
    cases keys with
    | none => split_ifs <;> trivial
    | some keys =>
      dsimp only
      split_ifs
      · exact Prog.ReadOnly.bind (readOnly_blockHashVec _) fun hash => trivial
      · trivial
  · rw [if_neg hask]
    refine Prog.ReadOnly.bind (fun _ => trivial) fun tree => ?_
    cases tree with
    | none => exact Prog.ReadOnly.bind (fun _ => trivial) fun lower => trivial
    | some tree => exact Prog.ReadOnly.bind (readOnly_blockHashVec _) fun hash => trivial

/-- The rest of a checkpoint reply changes nothing. -/
theorem readOnly_foundSnapshot (w : Wire) (found : Option (ℕ × Stored MerkleTree)) :
    Prog.ReadOnly (match found with
      | none => Prog.fail ⟨.notFound, "no checkpoint snapshot at or below the requested height"⟩
      | some (treeHeight, row) => do
        let treeData := w.treeBytes row
        let blockHash ← blockHashVec treeHeight
        pure ((treeChunks treeData).map fun chunk => {
          height := treeHeight
          blockHash := blockHash
          stateRoot := (w.blake3 treeData).1
          treeData := chunk
          nullifierIndex := []
          scanCursor := treeHeight
          snapshotHash := (snapshotIntegrityHash w treeHeight treeData []).1 }) :
      Handler (List Proto.CheckpointSnapshot)) := by
  cases found with
  | none => trivial
  | some found => exact Prog.ReadOnly.bind (readOnly_blockHashVec _) fun hash => trivial

/-- `GetCheckpointSnapshot` changes nothing. -/
theorem readOnly_getCheckpointSnapshot (w : Wire) (allowed : Bool) (preferred : ℕ) :
    (getCheckpointSnapshot w allowed preferred).ReadOnly := by
  unfold getCheckpointSnapshot
  cases allowed with
  | false => trivial
  | true =>
    have hfound := readOnly_foundSnapshot w
    by_cases h0 : preferred = 0
    · simp only [Bool.not_true, Bool.false_eq_true, if_false, if_pos h0]
      exact Prog.ReadOnly.bind (fun _ => trivial) hfound
    · simp only [Bool.not_true, Bool.false_eq_true, if_false, if_neg h0]
      exact Prog.ReadOnly.bind (fun _ => trivial) hfound

end ReadOnly

/-! ## Indexed trees -/

/-- `treeData` is the tree that the indexer has for `height`: its leaves are the sentinel and
the coins of the cached blocks up to there. -/
def IndexedTree (w : Wire) (s : Cache) (height : ℕ) (treeData : Bytes) : Prop :=
  ∃ tree, treeData = w.serialize tree ∧
    tree.leafBytes = Base.zero.repr :: s.cachedCoins fun k => decide (k ≤ height)

section Quiescent

variable {w : Wire} {chain : List CompactBlock} {s : Cache}

/-- The tree of a stack state at a height is the tree of the coins it indexes. -/
theorem StackState.indexedTree (hs : StackState chain s) (height : ℕ) :
    IndexedTree w s height (w.serialize (treeTo (coinsOf (chainMap chain)) height)) := by
  refine ⟨_, rfl, ?_⟩
  rw [hs.rows.cachedCoins]
  exact leafBytes_treeTo fun k _ => hs.canonical_coinsOf k

/-- Every snapshot is the tree of its height. -/
theorem StackState.snapshot (hs : StackState chain s) {height : ℕ} {row : Stored MerkleTree}
    (hrow : s.db.trees.merkleSnapshots.get height = some row) :
    height ≤ u32Max ∧ row = .value (treeTo (coinsOf (chainMap chain)) height) ∧ chain ≠ [] := by
  rcases hs.tree with ⟨-, htrees, -⟩ | ⟨H, hat⟩
  · rw [htrees] at hrow
    cases hrow
  · obtain ⟨hle, hvalue⟩ := hat.snapshots height row hrow
    refine ⟨hle.trans hat.le_max, hvalue, fun hnil => ?_⟩
    have hlen := hs.length_of_treeAt hat
    rw [hnil] at hlen
    cases hlen

/-- The tip tree is that of its height. -/
theorem StackState.tipTree (hs : StackState chain s) {height : ℕ} {row : Stored MerkleTree}
    (hheight : s.db.trees.tipMerkleHeight = some (.value height))
    (hrow : s.db.trees.tipMerkleTree = some row) :
    row = .value (treeTo (coinsOf (chainMap chain)) height) ∧ chain ≠ [] := by
  rcases hs.tree with ⟨-, htrees, -⟩ | ⟨H, hat⟩
  · rw [htrees] at hrow
    cases hrow
  · rw [hat.tipMerkleHeight] at hheight
    cases hheight
    rw [hat.tipMerkleTree] at hrow
    cases hrow
    refine ⟨rfl, fun hnil => ?_⟩
    have hlen := hs.length_of_treeAt hat
    rw [hnil] at hlen
    cases hlen

/-- Without a tip tree there are no blocks. -/
theorem StackState.eq_nil_of_no_tipTree (hs : StackState chain s)
    (hnone : getTipTreeState.observe (fun _ => s) = .ok none) : chain = [] := by
  rcases hs.tree with ⟨hlive, -, -⟩ | ⟨H, hat⟩
  · have hheight := hs.treeHeight
    rw [hlive] at hheight
    exact chainTip_eq_none_iff.mp (Option.map_eq_none_iff.mp hheight.symm)
  · rw [getTipTreeState_observe, hat.tipMerkleHeight, hat.tipMerkleTree] at hnone
    cases hnone

/-- There are no block rows exactly where the chain is empty. -/
theorem StackState.compactBlocks_eq_empty_iff (hs : StackState chain s) :
    s.db.blocks.compactBlocks = .empty ↔ chain = [] := by
  constructor
  · intro hempty
    have hrow := hs.rows.compactBlocks 0
    rw [hempty] at hrow
    have hlen := List.getElem?_eq_none_iff.mp (Option.map_eq_none_iff.mp hrow.symm)
    exact List.length_eq_zero_iff.mp (Nat.le_zero.mp hlen)
  · rintro rfl
    apply OrderedMap.get_ext
    intro k
    rw [hs.rows.compactBlocks]
    rfl

/-- The tree without any leaf is not an indexed one. -/
theorem not_indexedTree_new (hw : Function.Injective w.serialize) (height : ℕ) :
    ¬ IndexedTree w s height (w.serialize MerkleTree.new) := by
  rintro ⟨tree, htree, hleaves⟩
  rw [← hw htree] at hleaves
  cases hleaves

end Quiescent

/-! ## Replies at rest -/

section Replies

variable {w : Wire} {chain : List CompactBlock} {s : Cache}

/-- A tree reply is for the height that was asked. It is the indexed tree of that height, but
in an empty cache. -/
theorem StackState.getTreeState_ok (hs : StackState chain s) {height : ℕ} {reply : Proto.TreeState}
    (h : ((getTreeState w height).run s).1 = .ok reply) :
    reply.height = height ∧
      (chain ≠ [] ∧ reply.treeData = w.serialize (treeTo (coinsOf (chainMap chain)) height) ∨
        chain = [] ∧ height = 0 ∧ reply.treeData = w.serialize MerkleTree.new) := by
  rw [(readOnly_getTreeState w height).run_eq] at h
  have hseen : (getTreeState w height).observe (fun _ => s) = .ok reply := h
  obtain ⟨-, ⟨hheight, tree, htree, rfl⟩ | ⟨hzero, hnone, hreply, hdata, -⟩⟩ | ⟨-, tree, hrow, rfl⟩ :=
    getTreeState_observe_ok w hseen
  · obtain ⟨rfl, hne⟩ := hs.tipTree hheight htree
    exact ⟨rfl, Or.inl ⟨hne, rfl⟩⟩
  · exact ⟨hreply.trans hzero.symm, Or.inr ⟨hs.eq_nil_of_no_tipTree hnone, hzero, hdata⟩⟩
  · obtain ⟨-, rfl, hne⟩ := hs.snapshot hrow
    exact ⟨rfl, Or.inl ⟨hne, rfl⟩⟩

/-- The checkpoint of a request is the greatest snapshot that it allows. -/
theorem StackState.checkpoint (hs : StackState chain s) {preferred height : ℕ}
    {row : Stored MerkleTree} (h : s.checkpoint preferred = some (height, row)) :
    s.db.trees.merkleSnapshots.get height = some row ∧
      IsGreatest {k | (s.db.trees.merkleSnapshots.get k).isSome ∧ (preferred ≠ 0 → k ≤ preferred)}
        height := by
  obtain ⟨hrow, hle, hmax⟩ := (OrderedMap.lastUpTo_eq_some_iff _ _ _ _).mp h
  refine ⟨hrow, ⟨by rw [hrow]; rfl, fun h0 => ?_⟩, fun k ⟨hk, hkp⟩ => hmax k hk ?_⟩
  · rwa [if_neg h0] at hle
  · by_cases h0 : preferred = 0
    · rw [if_pos h0]
      obtain ⟨tree, htree⟩ := Option.isSome_iff_exists.mp hk
      exact (hs.snapshot htree).1
    · rw [if_neg h0]
      exact hkp h0

/-- In a cache at rest a tree reply is for the height that was asked, and it is the indexed
tree of that height exactly when the request was not for height 0 of an empty cache. A
checkpoint reply is for one height, that of the greatest snapshot that it allows, and adds up to
the stored tree, which is the indexed one. -/
theorem quiescent_replies (hw : Function.Injective w.serialize) (hs : IndexRun s) :
    (∀ height reply, ((getTreeState w height).run s).1 = .ok reply →
      reply.height = height ∧
        (IndexedTree w s height reply.treeData ↔
          ¬ (s.db.blocks.compactBlocks = .empty ∧ height = 0))) ∧
    ∀ allowed preferred messages,
      ((getCheckpointSnapshot w allowed preferred).run s).1 = .ok messages →
      ∃ height tree, messages ≠ [] ∧ (∀ m ∈ messages, m.height = height) ∧
        IsGreatest {k | (s.db.trees.merkleSnapshots.get k).isSome ∧
          (preferred ≠ 0 → k ≤ preferred)} height ∧
        s.db.trees.merkleSnapshots.get height = some tree ∧
        messages.flatMap Proto.CheckpointSnapshot.treeData = w.treeBytes tree ∧
        IndexedTree w s height (w.treeBytes tree) := by
  obtain ⟨chain, hchain⟩ := hs.state
  refine ⟨fun height reply hreply => ?_, fun allowed preferred messages hreply => ?_⟩
  · obtain ⟨hheight, ⟨hne, hdata⟩ | ⟨hnil, hzero, hdata⟩⟩ := hchain.getTreeState_ok hreply
    · rw [hdata]
      refine ⟨hheight, fun _ hempty => ?_, fun _ => hchain.indexedTree height⟩
      exact hne (hchain.compactBlocks_eq_empty_iff.mp hempty.1)
    · rw [hdata]
      refine ⟨hheight, fun hindexed => ?_, fun hother => ?_⟩
      · exact (not_indexedTree_new hw height hindexed).elim
      · exact (hother ⟨hchain.compactBlocks_eq_empty_iff.mpr hnil, hzero⟩).elim
  · rw [(readOnly_getCheckpointSnapshot w allowed preferred).run_eq] at hreply
    obtain ⟨height, tree, hfound, hne, hmessages, hdata⟩ := getCheckpointSnapshot_observe_ok w hreply
    obtain ⟨hrow, hgreatest⟩ := hchain.checkpoint hfound
    obtain ⟨-, rfl, -⟩ := hchain.snapshot hrow
    exact ⟨height, _, hne, fun m hm => (hmessages m hm).1, hgreatest, hrow, hdata,
      hchain.indexedTree height⟩

end Replies

/-! ## A cache that was rewound, and one without blocks -/

/-- The plain wire format tells trees apart. -/
theorem Wire.injective_plain : Function.Injective Wire.plain.serialize := by
  have hflat : ∀ xs ys : List Bytes32, xs.flatMap Subtype.val = ys.flatMap Subtype.val → xs = ys := by
    intro xs
    induction xs with
    | nil =>
      intro ys h
      cases ys with
      | nil => rfl
      | cons y ys =>
        have hlen := congrArg List.length h
        rw [List.flatMap_cons, List.length_append, y.2] at hlen
        simp only [List.flatMap_nil, List.length_nil] at hlen
        omega
    | cons x xs ih =>
      intro ys h
      cases ys with
      | nil =>
        have hlen := congrArg List.length h
        rw [List.flatMap_cons, List.length_append, x.2] at hlen
        simp only [List.flatMap_nil, List.length_nil] at hlen
        omega
      | cons y ys =>
        rw [List.flatMap_cons, List.flatMap_cons] at h
        obtain ⟨hhead, htail⟩ := List.append_inj h (x.2.trans y.2.symm)
        rw [Subtype.ext hhead, ih ys htail]
  exact fun tree tree' h => leafBytes_injective (hflat _ _ h)

/-- A cache with two blocks and two coins in the second, which was the tip, was built on and is the
tip again. -/
def cutBackCache : Cache :=
  (rewindToHeight 1).exec ((insertCompactBlock 0 (.sample 2 3 [4] [])).exec
    ((insertCompactBlock 0 (.sample 1 2 [2, 3] [])).exec
      ((insertCompactBlock 0 (.sample 0 1 [1] [])).exec .initial)))

/-- The tree state of the second block. -/
def cutBackReply : Proto.TreeState :=
  persistedTreeState .plain 1
    (Wire.plain.serialize (tipTreeOf [Bytes32.fill 1, Bytes32.fill 2, Bytes32.fill 3]))
    (Bytes32.fill 2).1

/-- The cache that was cut back is the end of an indexing run. -/
theorem indexRun_cutBackCache : IndexRun cutBackCache :=
  .rewind 1 _ (.insert 0 _ _ (.insert 0 _ _ (.insert 0 _ _ (.empty 0 _ new_initial)
    (by decide +kernel) (by decide) (by decide +kernel)) (by decide +kernel) (by decide)
    (by decide +kernel)) (by decide +kernel) (by decide) (by decide +kernel)) (by decide +kernel)
    (by decide)

/-- Both replies at height 1, the tip again after a rewind of the third block. -/
theorem quiescent_replies_rewound :
    IndexedTree .plain cutBackCache 1 cutBackReply.treeData ∧
      ∃ height tree, IsGreatest {k | (cutBackCache.db.trees.merkleSnapshots.get k).isSome ∧
        (1 ≠ 0 → k ≤ 1)} height ∧
        IndexedTree .plain cutBackCache height (Wire.plain.treeBytes tree) := by
  obtain ⟨htree, hcheckpoint⟩ := quiescent_replies Wire.injective_plain indexRun_cutBackCache
  have hreply : ((getTreeState .plain 1).run cutBackCache).1 = .ok cutBackReply := by
    decide +kernel
  have hfound : (((getCheckpointSnapshot .plain true 1).run cutBackCache).1).isOk = true := by
    decide +kernel
  obtain ⟨messages, hmessages⟩ : ∃ messages,
      ((getCheckpointSnapshot .plain true 1).run cutBackCache).1 = .ok messages := by
    cases hresult : ((getCheckpointSnapshot .plain true 1).run cutBackCache).1 with
    | ok messages => exact ⟨messages, rfl⟩
    | error e =>
      rw [hresult] at hfound
      cases hfound
  refine ⟨(htree 1 _ hreply).2.mpr fun hempty => absurd hempty.2 (by decide), ?_⟩
  obtain ⟨height, tree, -, -, hgreatest, -, -, hindexed⟩ := hcheckpoint true 1 messages hmessages
  exact ⟨height, tree, hgreatest, hindexed⟩

/-- The tree of an empty cache has no sentinel. -/
theorem empty_cache_reply : IndexRun .initial ∧
    ∃ reply, ((getTreeState .plain 0).run .initial).1 = .ok reply ∧
      ¬ IndexedTree .plain .initial 0 reply.treeData := by
  refine ⟨.empty 0 _ new_initial, ⟨0, Wire.plain.serialize MerkleTree.new, [],
    (Wire.plain.blake3 (Wire.plain.serialize MerkleTree.new)).1, false⟩, by decide +kernel, ?_⟩
  exact not_indexedTree_new Wire.injective_plain 0

end LightWalletd
