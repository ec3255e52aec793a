import LightWalletd.Analysis.TipTreeSpec
import LightWalletd.Computation.ProgramClass
import LightWalletd.Model.Cache

/-!
# The commands of the chain

The functions that index, rewind and prune read the rows derived from blocks and the tree in memory,
and write nothing else. They are gone through here once, for every class of programs that has these
commands. What they keep, what they uphold beside other programs and what they do not depend on are
three such classes.
-/

set_option autoImplicit false

namespace LightWalletd

open Stateful

variable {P : ∀ α : Type, CacheM α → Prop}

/-! ## Reads -/

/-- A class with the reads of the rows derived from blocks and of the tree in memory. -/
structure ChainReads (P : ∀ α : Type, CacheM α → Prop) : Prop extends Prog.Closed P where
  get : ∀ {β : Type} (f : BlockRows → TreeRows → LiveTipTree → β),
    P β (Prog.get fun s => f s.db.blocks s.db.trees s.tipTree)

/-- Reads keep every predicate. -/
theorem chainReads_keeps (I : Cache → Prop) : ChainReads fun _ p => p.Keeps I :=
  ⟨Prog.closed_keeps I, fun _ => Prog.keeps_get _⟩

/-- Reads uphold every predicate. -/
theorem chainReads_upholds (I : Cache → Prop) : ChainReads fun _ p => p.Upholds I Prog.Any :=
  ⟨Prog.closed_upholds I, fun _ _ _ => trivial⟩

namespace ChainReads

variable (hP : ChainReads P)
include hP

/-- Raising a known result. -/
theorem liftExcept {α : Type} (r : Except LightWalletError α) : P α (liftExcept r) := by
  cases r with
  | ok a => exact hP.ret a
  | error e => exact hP.fail e

/-- `get_tip_tree_state`. -/
theorem getTipTreeState : P _ getTipTreeState := by
  refine hP.bind (hP.get fun _ t _ => t.tipMerkleHeight) fun row => ?_
  rcases row with _ | height | bytes
  · exact hP.ret _
  · refine hP.bind (hP.get fun _ t _ => t.tipMerkleTree) fun tree => ?_
    cases tree with
    | none => exact hP.ret _
    | some data => exact hP.ret _
  · exact hP.ret _

/-- `get_tip`. -/
theorem getTip : P _ getTip := by
  refine hP.bind (hP.get fun b _ _ => b.tipHeight) fun height => ?_
  cases height with
  | none => exact hP.ret _
  | some row =>
    refine hP.bind (hP.liftExcept _) fun height => ?_
    refine hP.bind (hP.get fun b _ _ => b.tipHash) fun hash => ?_
    cases hash with
    | none => exact hP.ret _
    | some row => exact hP.bind (hP.liftExcept _) fun _ => hP.ret _

/-- `get_compact_block`. -/
theorem getCompactBlock (height : ℕ) : P _ (getCompactBlock height) := by
  refine hP.bind (hP.get fun b _ _ => b.compactBlocks.get height) fun row => ?_
  cases row with
  | none => exact hP.ret _
  | some row => exact hP.bind (hP.liftExcept _) fun _ => hP.ret _

/-- `get_coins_range`. -/
theorem getCoinsRange (start last : ℕ) : P _ (getCoinsRange start last) := by
  refine Prog.Closed.ite (hP.fail _) ?_
  exact hP.bind (hP.get fun b _ _ => (b.coins.filter _).rows) fun _ => hP.liftExcept _

/-- `seed_snapshot`. -/
theorem seedSnapshot (tipHeight : ℕ) : P _ (seedSnapshot tipHeight) := by
  refine hP.bind (hP.get fun _ t _ => t.merkleSnapshots.lastUpTo tipHeight) fun row => ?_
  rcases row with _ | ⟨height, tree | bytes⟩
  · exact hP.ret _
  · exact hP.ret _
  · exact hP.ret _

end ChainReads

/-! ## The Money tree -/

/-- A class with the writes of the Money tree, those of snapshots above `bound` apart. -/
structure TreeCommands (bound : ℕ) (P : ∀ α : Type, CacheM α → Prop) : Prop extends
    ChainReads P where
  insertSnapshot : ∀ (k : ℕ) (v : Stored MerkleTree), k ≤ bound → P _ (merkleSnapshots.insert k v)
  removeSnapshot : ∀ k : ℕ, P _ (merkleSnapshots.remove k)
  insertTree : ∀ v : Stored MerkleTree, P _ (metaTipMerkleTree.insert v)
  removeTree : P _ metaTipMerkleTree.remove
  insertHeight : ∀ v : Stored ℕ, P _ (metaTipMerkleHeight.insert v)
  removeHeight : P _ metaTipMerkleHeight.remove
  setLive : ∀ f : LiveTipTree → LiveTipTree, P _ (Prog.update fun s => s.setLive (f s.tipTree))

/-- The next boundary of a rebuild is not above the tip. -/
theorem nextBoundary_le (boundary tip : ℕ) : nextBoundary boundary tip ≤ tip := by
  unfold nextBoundary
  simp only []
  split_ifs <;> omega

namespace TreeCommands

variable {bound : ℕ} (hP : TreeCommands bound P)
include hP

/-- Removing the snapshots of a list of heights. -/
theorem removeSnapshots (heights : List ℕ) : P _ (removeSnapshots heights) :=
  hP.forEach (fun h => hP.bind (hP.removeSnapshot h) fun _ => hP.ret _) heights

/-- `store_tip_tree` at a height within the bound. -/
theorem storeTipTree (prev : Option ℕ) {height : ℕ} (h : height ≤ bound) (tree : MerkleTree) :
    P _ (storeTipTree prev height tree) := by
  have hdrop : P _ (dropNonIntervalSnapshotsExcept prev height) := by
    cases prev with
    | none => exact hP.ret ()
    | some prev =>
      refine Prog.Closed.ite ?_ (hP.ret ())
      exact hP.bind (hP.removeSnapshot prev) fun _ => hP.ret _
  refine hP.bind (hP.insertTree _) fun _ => hP.bind (hP.insertHeight _) fun _ => ?_
  refine Prog.Closed.ite ?_ (Prog.Closed.ite hdrop (hP.ret ()))
  exact hP.bind (hP.insertSnapshot _ _ h) fun _ => Prog.Closed.ite hdrop (hP.ret ())

/-- `delete_snapshots_at_or_above`. -/
theorem deleteSnapshotsAtOrAbove (height : ℕ) : P _ (deleteSnapshotsAtOrAbove height) :=
  hP.bind (hP.get fun _ t _ => (t.merkleSnapshots.filter _).keys) fun _ => hP.removeSnapshots _

/-- `delete_snapshots_above`. -/
theorem deleteSnapshotsAbove (height : ℕ) : P _ (deleteSnapshotsAbove height) :=
  Prog.Closed.ite (hP.ret ()) (hP.deleteSnapshotsAtOrAbove _)

/-- The loop of a rebuild up to a tip within the bound. -/
theorem rebuildLoop {tip : ℕ} (htip : tip ≤ bound) (fuel : ℕ) {boundary : ℕ} (hb : boundary ≤ tip)
    (skipped : Bool) (ranges : List (ℕ × List Bytes32)) (tree : MerkleTree) :
    P _ (rebuildLoop tip fuel boundary skipped ranges tree) := by
  induction fuel generalizing boundary skipped ranges tree with
  | zero => exact hP.ret _
  | succ fuel ih =>
    -- every branch ends in the next round
    have hnext : ∀ r : List (ℕ × List Bytes32) × MerkleTree,
        P _ (if boundary ≥ tip then Prog.ret (r.1, r.2) else LightWalletd.rebuildLoop tip fuel
          (nextBoundary boundary tip) false r.1 r.2) :=
      fun r => Prog.Closed.ite (hP.ret _) (ih (nextBoundary_le boundary tip) _ _ _)
    unfold LightWalletd.rebuildLoop
    refine Prog.Closed.ite (hP.bind (hP.ret _) hnext) ?_
    refine hP.bind (hP.liftExcept _) fun r => ?_
    refine Prog.Closed.ite ?_ (hP.bind (hP.ret _) hnext)
    exact hP.bind (hP.insertSnapshot _ _ (hb.trans htip)) fun _ => hP.bind (hP.ret _) hnext

/-- The replay from a seed up to a tip within the bound. -/
theorem replayFromSeed {tip : ℕ} (htip : tip ≤ bound) (seed : Option ℕ)
    (hseed : seed.getD 0 ≤ tip) (tree : MerkleTree) : P _ (replayFromSeed tip seed tree) := by
  have htail : ∀ ranges, P _ ((LightWalletd.rebuildLoop tip (tip + 1) (seed.getD 0) seed.isSome
      ranges tree).bind fun r => (LightWalletd.liftExcept
        (appendCoins (r.1.flatMap Prod.snd) r.2)).bind fun tree =>
          (LightWalletd.storeTipTree seed tip tree).bind fun _ =>
            Prog.update fun s => { s with tipTree := ⟨some tip, tree, false⟩ }) := by
    intro ranges
    refine hP.bind (hP.rebuildLoop htip _ hseed _ _ _) fun r => ?_
    refine hP.bind (hP.liftExcept _) fun tree => ?_
    exact hP.bind (hP.storeTipTree _ htip _) fun _ => hP.setLive fun _ => ⟨some tip, tree, false⟩
  exact Prog.Closed.ite (hP.bind (hP.ret _) htail) (hP.bind (hP.getCoinsRange _ _) htail)

/-- A rebuild writes no snapshot above its height. -/
theorem rebuildTipMerkleTree {tip : ℕ} (htip : tip ≤ bound) : P _ (rebuildTipMerkleTree tip) := by
  have hclear : P _ clearTipTree := by
    refine hP.bind hP.removeTree fun _ => hP.bind hP.removeHeight fun _ => ?_
    refine hP.bind (hP.bind (hP.get fun _ t _ => (t.merkleSnapshots.filter _).keys) fun _ =>
      hP.removeSnapshots _) fun _ => ?_
    exact hP.setLive fun _ => ⟨none, emptyTipTree, false⟩
  have hreplay : P _ (rebuildFromSnapshots tip) := by
    refine hP.bind (hP.deleteSnapshotsAbove tip) fun _ => hP.bind (hP.seedSnapshot _) fun seed => ?_
    rcases seed with _ | ⟨h, tree⟩
    · exact hP.replayFromSeed htip none (Nat.zero_le tip) _
    · unfold rebuildFrom
      by_cases hge : h ≥ tip
      · simp only [if_pos hge]
        exact hP.bind (hP.storeTipTree _ htip _) fun _ =>
          hP.setLive fun _ => ⟨some tip, tree, false⟩
      · simp only [if_neg hge]
        exact hP.replayFromSeed htip (some h) (show h ≤ tip by omega) _
  rw [rebuildTipMerkleTree_eq]
  refine Prog.Closed.ite ?_ hreplay
  exact hP.bind (hP.getCompactBlock 0) fun block => Prog.Closed.ite hclear hreplay

/-- `reload_live_tip_locked`. -/
theorem reloadLiveTipLocked : P _ reloadLiveTipLocked := by
  refine hP.bind (hP.attempt hP.getTipTreeState) fun r => ?_
  rcases r with e | _ | ⟨height, tree | bytes⟩
  · exact hP.setLive fun _ => ⟨none, emptyTipTree, true⟩
  · exact hP.setLive fun _ => ⟨none, emptyTipTree, true⟩
  · exact hP.setLive fun _ => ⟨some height, tree, false⟩
  · exact hP.setLive fun _ => ⟨none, emptyTipTree, true⟩

/-- `append_nodes` at a height within the bound. -/
theorem appendNodes {height : ℕ} (h : height ≤ bound) (coins : List Bytes32) :
    P _ (appendNodes height coins) := by
  refine hP.bind (hP.liftExcept _) fun nodes => hP.bind (hP.get fun _ _ live => live) fun live => ?_
  refine hP.bind (hP.setLive fun l => { l with tree := nodes.foldl MerkleTree.append live.tree })
    fun _ => ?_
  refine hP.bind (hP.attempt (hP.storeTipTree _ h _)) fun r => ?_
  cases r with
  | ok _ => exact hP.setLive fun _ => ⟨some height, _, false⟩
  | error e => exact hP.bind hP.reloadLiveTipLocked fun _ => hP.fail e

/-- An append writes no snapshot above its height. -/
theorem appendCoinsToTipTree {height : ℕ} (h : height ≤ bound) (coins : List Bytes32) :
    P _ (appendCoinsToTipTree height coins) := by
  refine hP.bind (hP.get fun _ _ live => live) fun live => ?_
  refine Prog.Closed.ite ?_ (hP.appendNodes h _)
  refine Prog.Closed.ite (hP.rebuildTipMerkleTree (Nat.zero_le bound)) ?_
  refine hP.bind (hP.rebuildTipMerkleTree (show height - 1 ≤ bound by omega)) fun _ => ?_
  exact hP.appendNodes h _

end TreeCommands

/-! ## Blocks -/

/-- A class that also has the writes of the rows of blocks, those of blocks outside `B` apart. -/
structure ChainCommands (B : CompactBlock → Prop) (P : ∀ α : Type, CacheM α → Prop) : Prop where
  tree : ∀ bound : ℕ, TreeCommands bound P
  storeBlock : ∀ (height : ℕ) (block : CompactBlock), B block →
    P _ (compactBlocks.insert height (.value block))
  removeBlock : ∀ height : ℕ, P _ (compactBlocks.remove height)
  putRows : ∀ f : BlockRows → BlockRows, (∀ b, (f b).compactBlocks = b.compactBlocks) →
    P _ (Prog.put sledError fun s => { s with db := { s.db with blocks := f s.db.blocks } })
  swapRows : ∀ {β : Type} (old : BlockRows → β) (f : BlockRows → BlockRows),
    (∀ b, (f b).compactBlocks = b.compactBlocks) →
    P _ (Prog.swap sledError (fun s => old s.db.blocks) fun s =>
      { s with db := { s.db with blocks := f s.db.blocks } })

namespace ChainCommands

variable {B : CompactBlock → Prop} (hP : ChainCommands B P)
include hP

/-- `store_block_rows` of a block of the class. -/
theorem storeBlockRows {block : CompactBlock} (hblock : B block) : P _ (storeBlockRows block) := by
  have hcoins : P _ (if block.allCoins.isEmpty then pure ()
      else coins.insert block.height (.value block.allCoins)) :=
    Prog.Closed.ite ((hP.tree 0).ret _) (hP.putRows (fun b => { b with
      coins := b.coins.insert block.height (.value block.allCoins) }) fun _ => rfl)
  refine (hP.tree 0).bind (hP.storeBlock _ block hblock) fun _ => ?_
  refine (hP.tree 0).bind (hP.putRows (fun b => { b with
    blockHashes := b.blockHashes.insert block.height (.value block.hash) }) fun _ => rfl) fun _ => ?_
  refine (hP.tree 0).bind (hP.putRows (fun b => { b with
    hashToHeight := b.hashToHeight.insert block.hash (.value block.height) }) fun _ => rfl)
    fun _ => ?_
  exact Prog.Closed.ite hcoins ((hP.tree 0).bind (hP.putRows (fun b => { b with
    nullifiers := b.nullifiers.insert block.height (.value block.allNullifiers) }) fun _ => rfl)
    fun _ => hcoins)

/-- `advance_tip`. -/
theorem advanceTip (block : CompactBlock) : P _ (advanceTip block) := by
  have htree := hP.tree block.height
  refine htree.bind (hP.putRows (fun b => { b with tipHeight := some (.value block.height) })
    fun _ => rfl) fun _ => ?_
  refine htree.bind (hP.putRows (fun b => { b with tipHash := some (.value block.hash) })
    fun _ => rfl) fun _ => ?_
  exact htree.appendCoinsToTipTree le_rfl _

/-- The insert of a merged block of the class. -/
theorem insertMergedBlock {block : CompactBlock} (hblock : B block) :
    P _ (insertMergedBlock block) := by
  refine (hP.tree 0).bind (hP.storeBlockRows hblock) fun _ => ?_
  refine (hP.tree 0).bind (hP.tree 0).getTip fun tip => ?_
  cases tip with
  | none => exact hP.advanceTip block
  | some tip =>
    refine Prog.Closed.ite ?_ (hP.advanceTip block)
    exact (hP.tree tip.1).bind ((hP.tree tip.1).deleteSnapshotsAtOrAbove _) fun _ =>
      (hP.tree tip.1).rebuildTipMerkleTree le_rfl

/-- `delete_block_rows`. -/
theorem deleteBlockRows (height : ℕ) : P _ (deleteBlockRows height) := by
  have htree := hP.tree 0
  have hrest : P _ (do
      let _ ← nullifiers.remove height
      let _ ← coins.remove height
      pure () : CacheM Unit) := by
    refine htree.bind (hP.swapRows (fun b => b.nullifiers.get height) (fun b =>
      { b with nullifiers := b.nullifiers.remove height }) fun _ => rfl) fun _ => ?_
    refine htree.bind (hP.swapRows (fun b => b.coins.get height) (fun b =>
      { b with coins := b.coins.remove height }) fun _ => rfl) fun _ => ?_
    exact htree.ret _
  refine htree.bind (hP.removeBlock height) fun _ => ?_
  refine htree.bind (hP.swapRows (fun b => b.blockHashes.get height) (fun b =>
    { b with blockHashes := b.blockHashes.remove height }) fun _ => rfl) fun hash => ?_
  rcases hash with _ | hash | bytes
  · exact hrest
  · exact htree.bind (hP.swapRows (fun b => b.hashToHeight.get hash) (fun b =>
      { b with hashToHeight := b.hashToHeight.remove hash }) fun _ => rfl) fun _ => hrest
  · exact hrest

/-- `rewind_tip`. -/
theorem rewindTip (height : ℕ) : P _ (rewindTip height) := by
  have htree := hP.tree 0
  refine htree.bind (htree.getCompactBlock height) fun block => ?_
  cases block with
  | some block =>
    refine htree.bind (hP.putRows (fun b => { b with tipHeight := some (.value height) })
      fun _ => rfl) fun _ => ?_
    exact hP.putRows (fun b => { b with tipHash := some (.value block.hash) }) fun _ => rfl
  | none =>
    refine Prog.Closed.ite ?_ (htree.ret _)
    refine htree.bind (hP.putRows (fun b => { b with tipHeight := none }) fun _ => rfl)
      fun _ => ?_
    exact hP.putRows (fun b => { b with tipHash := none }) fun _ => rfl

/-- `rewind_to_height`. -/
theorem rewindToHeight (height : ℕ) : P _ (rewindToHeight height) := by
  have htree := hP.tree height
  refine htree.bind (htree.get fun b _ _ => (b.compactBlocks.filter _).keys) fun heights => ?_
  refine htree.bind (htree.forEach hP.deleteBlockRows heights) fun _ => ?_
  refine htree.bind (hP.rewindTip height) fun _ => ?_
  exact htree.bind (htree.deleteSnapshotsAbove height) fun _ => htree.rebuildTipMerkleTree le_rfl

/-- `prune_with_retention`. -/
theorem pruneWithRetention (retentionWindow : ℕ) : P _ (pruneWithRetention retentionWindow) := by
  have htree := hP.tree 0
  refine htree.bind htree.getTip fun tip => ?_
  cases tip with
  | none => exact htree.ret _
  | some tip =>
    refine Prog.Closed.ite (htree.ret _) (htree.bind ?_ fun _ => htree.ret _)
    refine Prog.Closed.ite (htree.ret _) ?_
    refine htree.bind (htree.get fun b _ _ => (b.compactBlocks.filter _).keys) fun heights => ?_
    exact htree.forEach hP.deleteBlockRows heights

end ChainCommands

end LightWalletd
