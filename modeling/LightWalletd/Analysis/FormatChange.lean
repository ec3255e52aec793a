import LightWalletd.Analysis.ClueIdempotence
import LightWalletd.Analysis.ReorgReplay
import LightWalletd.Analysis.TreeState

/-!
# A change of format

Opening a database of another format ought to be as good as opening an empty one, as far as
blocks and trees go. The rows are the same; the tree in memory is not, for the clear leaves it
without the sentinel. The difference comes out with the first insert, unless a rewind or a
reopening came before it and made the tree anew.

Clues and metadata that wait for a block are not derived from blocks and outlive the clear, so a
block that is inserted later takes them in. Apart from that the two caches go alongside each
other: equal rows of blocks and trees, and equal trees in memory.
-/

set_option autoImplicit false

namespace LightWalletd

open Stateful

/-- The calls after opening. -/
inductive LaterCall
  | insert (now : ℕ) (block : CompactBlock)
  | rewind (height : ℕ)
  | reopen (now : ℕ)

/-- The cache after a call. -/
def LaterCall.apply : LaterCall → Cache → Cache
  | .insert now block, s => (insertCompactBlock now block).exec s
  | .rewind height, s => (rewindToHeight height).exec s
  | .reopen now, s => (Cache.new now s.db).toOption.getD s

/-- The cache after a list of calls. -/
def runLater (calls : List LaterCall) (s : Cache) : Cache :=
  calls.foldl (fun s call => call.apply s) s

/-- The compact blocks, block hashes, tip, tip tree and snapshots agree. -/
def SameView (s t : Cache) : Prop :=
  s.db.blocks = t.db.blocks ∧ s.db.trees = t.db.trees

/-! ## Blocks that no pending row changes -/

/-- What the clues of a list filled in was there before: none of them was left to place. -/
theorem settled_of_filledIn {outputs : List CompactOutput} {clues : List (Option ℕ × Bytes)}
    (h : FilledIn (clues.foldl mergeClue outputs) outputs) {c : Option ℕ × Bytes} (hc : c ∈ clues) :
    Settled outputs c := by
  have hidle : mergeClue outputs c = outputs := settles_mergeClue.step_foldl h hc
  have hsettled := settled_mergeClue outputs c
  rwa [hidle] at hsettled

/-- Clues that are all in the outputs, or have no place there, change nothing when merged. -/
theorem foldl_mergeClue_of_settled {outputs : List CompactOutput} {clues : List (Option ℕ × Bytes)}
    (h : ∀ c ∈ clues, Settled outputs c) : clues.foldl mergeClue outputs = outputs := by
  induction clues with
  | nil => rfl
  | cons c clues ih =>
    rw [List.foldl_cons, (h c (List.mem_cons_self ..)).mergeClue]
    exact ih fun c' hc' => h c' (List.mem_cons_of_mem _ hc')

/-- A merge leaves the transactions as they are exactly when every clue is settled and no metadata
row fills an output. -/
theorem mergedTxs_eq_self_iff {hints : Bytes32 → HintRow} {metadata : Bytes32 → Option Bytes}
    {txs : List CompactTx} : mergedTxs hints metadata txs = txs ↔
      (∀ tx ∈ txs, ∀ c ∈ (hints tx.txHash).clues, Settled tx.outputs c) ∧
        ¬ PendingMetadata metadata txs := by
  have hmap : (∀ tx ∈ txs, ∀ c ∈ (hints tx.txHash).clues, Settled tx.outputs c) →
      txs.map (fun tx => tx.withClues (hints tx.txHash)) = txs := by
    intro h
    refine (List.map_congr_left fun tx htx => ?_).trans (List.map_id txs)
    unfold CompactTx.withClues
    rw [foldl_mergeClue_of_settled (h tx htx), id_eq]
  constructor
  · intro h
    have hall := forall₂_mergedTxs hints metadata txs
    rw [h, List.forall₂_same] at hall
    have hsettled : ∀ tx ∈ txs, ∀ c ∈ (hints tx.txHash).clues, Settled tx.outputs c := by
      intro tx htx c hc
      obtain ⟨row, hrow⟩ := hall tx htx
      -- the clues go in first, and metadata does not take them out again
      have hfill := filledIn_withMetadata row (tx.withClues (hints tx.txHash))
      rw [← hrow] at hfill
      exact settled_of_filledIn hfill hc
    exact ⟨hsettled, (mergedTxs_eq_map_iff hints metadata txs).mp (h.trans (hmap hsettled).symm)⟩
  · rintro ⟨hsettled, hpending⟩
    exact ((mergedTxs_eq_map_iff hints metadata txs).mpr hpending).trans (hmap hsettled)

/-- No clue and no metadata that waits in the cache fills an output of the block. -/
def Cache.TakesAsIs (s : Cache) (now : ℕ) (block : CompactBlock) : Prop :=
  (∀ tx ∈ block.txs, ∀ c ∈ (s.liveRow now tx.txHash).clues, Settled tx.outputs c) ∧
    ¬ PendingMetadata s.metadataRow block.txs

/-- A block is taken as it is exactly where the merged rows leave it. -/
theorem takesAsIs_iff {s : Cache} {now : ℕ} {block : CompactBlock} :
    s.TakesAsIs now block ↔
      { block with txs := mergedTxs (s.liveRow now) s.metadataRow block.txs } = block := by
  unfold Cache.TakesAsIs
  rw [← mergedTxs_eq_self_iff]
  refine ⟨fun h => by rw [h], fun h => congrArg CompactBlock.txs h⟩

/-- No clue and no metadata waits in the cache. -/
def Cache.NoPending (s : Cache) : Prop :=
  ∀ txHash, s.hintRow txHash = (none, none) ∧ s.metadataRow txHash = none

namespace Cache.NoPending

variable {s s' : Cache}

/-- Only the rows of clues and metadata count. -/
theorem of_omr (hs : s.NoPending) (h : s'.db.omr = s.db.omr) : s'.NoPending := by
  intro txHash
  unfold Cache.hintRow Cache.metadataRow
  rw [h]
  exact hs txHash

/-- Without pending rows every block is taken as it is. -/
theorem takesAsIs (hs : s.NoPending) (now : ℕ) (block : CompactBlock) : s.TakesAsIs now block := by
  refine ⟨fun tx _ c hc => ?_, ?_⟩
  · unfold Cache.liveRow at hc
    rw [(hs tx.txHash).1] at hc
    exact absurd hc List.not_mem_nil
  · rintro ⟨txHash, tx, stored, -, hrow, -⟩
    rw [(hs txHash).2] at hrow
    cases hrow

/-- An insert parks no clue. -/
theorem insert (hs : s.NoPending) (now : ℕ) (block : CompactBlock) :
    ((insertCompactBlock now block).exec s).NoPending := by
  obtain ⟨s₁, hrun, hsame, hmeta, -⟩ := applyOmrClueHints_run_eq now block s
  have hs₁ : s₁.NoPending := by
    refine fun txHash => ⟨?_, ?_⟩
    · rcases hsame txHash with h | ⟨h, -⟩
      · exact h.trans (hs txHash).1
      · exact h
    · rw [hmeta, (hs txHash).2, ite_self]
  have hexec : (insertCompactBlock now block).exec s = (insertMergedBlock _).exec s₁ :=
    congrArg Prod.snd (Prog.run_bind_of_ok hrun _)
  rw [hexec]
  exact hs₁.of_omr (insertMergedBlock_omr _ s₁)

/-- A rewind parks no clue. -/
theorem rewind (hs : s.NoPending) (height : ℕ) : ((rewindToHeight height).exec s).NoPending :=
  hs.of_omr (rewindToHeight_omr height s)

/-- The removal of expired clues parks no clue. -/
theorem prune (hs : s.NoPending) (now : ℕ) :
    ((pruneExpiredOmrClueHints now).exec s).NoPending := by
  obtain ⟨s₁, hrun, hsame⟩ := pruneExpiredOmrClueHints_run now s
  have hexec : (pruneExpiredOmrClueHints now).exec s = s₁ := congrArg Prod.snd hrun
  rw [hexec]
  refine fun txHash => ⟨?_, ?_⟩
  · rw [hsame.row txHash (by rw [(hs txHash).1]; exact HintRow.fresh_none now)]
    exact (hs txHash).1
  · have hmeta := congrArg (fun q => q.1.omr.omrMetadataEnc.get txHash) hsame.beside
    exact hmeta.trans (hs txHash).2

/-- Opening takes over the rows of the clue trees, or sweeps them. -/
theorem reopen (hs : s.NoPending) (now : ℕ) (hcur : s.db.Current) (hsound : s.db.blocks.Sound)
    (hnew : Cache.new now s.db = .ok s') : s'.NoPending := by
  rw [new_eq_of_current now hcur hsound] at hnew
  cases hnew
  have hopened : s.db.asOpened.NoPending := fun txHash => hs txHash
  exact hopened.prune now

end Cache.NoPending

/-! ## Caches alongside each other -/

/-- The rows of blocks and trees, and the tree in memory. -/
def Cache.chain (s : Cache) : BlockRows × TreeRows × LiveTipTree :=
  (s.db.blocks, s.db.trees, s.tipTree)

/-- The chain of `s` in the place of that of `t`. -/
def Cache.withChain (t s : Cache) : Cache :=
  ⟨⟨s.db.blocks, s.db.trees, t.db.omr, t.db.server⟩, s.tipTree, t.omrHintSweepUnix⟩

/-- Two caches of one chain differ by the rest of their state only. -/
theorem withChain_eq {s t : Cache} (h : s.chain = t.chain) : t.withChain s = t := by
  obtain ⟨⟨blocks, trees, omr, server⟩, live, sweep⟩ := t
  unfold Cache.chain at h
  simp only [Prod.mk.injEq] at h
  obtain ⟨hblocks, htrees, hlive⟩ := h
  unfold Cache.withChain
  rw [hblocks, htrees, hlive]

/-- Inserts and rewinds do not depend on what lies beside the chain. -/
theorem chainCommands_withChain (t : Cache) :
    ChainCommands (fun _ => True) fun _ p => p.Ignores t.withChain where
  tree _ :=
    { toClosed := Prog.closed_ignores _
      get := fun _ => Prog.ignores_get fun _ => rfl
      insertSnapshot := fun _ _ _ => Prog.ignores_put _ fun _ => rfl
      removeSnapshot := fun _ => Prog.ignores_swap _ (fun _ => rfl) fun _ => rfl
      insertTree := fun _ => Prog.ignores_put _ fun _ => rfl
      removeTree := Prog.ignores_put _ fun _ => rfl
      insertHeight := fun _ => Prog.ignores_put _ fun _ => rfl
      removeHeight := Prog.ignores_put _ fun _ => rfl
      setLive := fun _ => Prog.ignores_update fun _ => rfl }
  storeBlock _ _ _ := Prog.ignores_put _ fun _ => rfl
  removeBlock _ := Prog.ignores_swap _ (fun _ => rfl) fun _ => rfl
  putRows _ _ := Prog.ignores_put _ fun _ => rfl
  swapRows _ _ _ := Prog.ignores_swap _ (fun _ => rfl) fun _ => rfl

section Chain

variable {p : CacheM Unit} (hp : ∀ t : Cache, p.Ignores t.withChain)
include hp

/-- Such a program makes equal chains of equal chains. -/
theorem exec_chain {s t : Cache} (h : s.chain = t.chain) : (p.exec s).chain = (p.exec t).chain := by
  have hrun := congrArg Prod.snd (hp t s)
  rw [withChain_eq h] at hrun
  have hexec : p.exec t = t.withChain (p.exec s) := hrun
  rw [hexec]
  rfl

/-- A chain command leaves the server's own rows. -/
theorem exec_server (s : Cache) : (p.exec s).db.server = s.db.server := by
  have hexec : p.exec (s.withChain s) = s.withChain (p.exec s) := congrArg Prod.snd (hp s s)
  rw [withChain_eq rfl] at hexec
  rw [hexec]
  rfl

end Chain

/-- Inserting a merged block does the same whatever the rest of the state. -/
theorem insertMergedBlock_withChain (block : CompactBlock) (t : Cache) :
    (insertMergedBlock block).Ignores t.withChain :=
  (chainCommands_withChain t).insertMergedBlock trivial

/-- Rewinding does the same whatever the rest of the state. -/
theorem rewindToHeight_withChain (height : ℕ) (t : Cache) :
    (rewindToHeight height).Ignores t.withChain :=
  (chainCommands_withChain t).rewindToHeight height

/-- An insert merges first, beside the chain, and then stores what the merge returns. -/
theorem insertCompactBlock_exec (now : ℕ) (block : CompactBlock) (s : Cache) :
    ∃ s₁, s₁.chain = s.chain ∧ s₁.db.server = s.db.server ∧
      (insertCompactBlock now block).exec s = (insertMergedBlock { block with
        txs := mergedTxs (s.liveRow now) s.metadataRow block.txs }).exec s₁ := by
  obtain ⟨s₁, hrun, -⟩ := applyOmrClueHints_run_eq now block s
  have hbeside := (applyOmrClueHints_keeps now block (p := s.besideOmr)).run rfl hrun
  refine ⟨s₁, ?_, congrArg (fun q => q.2.2.1) hbeside, congrArg Prod.snd (Prog.run_bind_of_ok hrun _)⟩
  exact congrArg (fun q => (q.1, q.2.1, q.2.2.2)) hbeside

/-- Two caches with one chain that open as they are. Nothing waits in the second. -/
structure Alongside (s f : Cache) : Prop where
  chain : s.chain = f.chain
  format : s.db.Current
  format' : f.db.Current
  sound : s.db.blocks.Sound
  noPending : f.NoPending

namespace Alongside

variable {s f : Cache}

/-- Caches alongside each other are read alike. -/
theorem sameView (h : Alongside s f) : SameView s f :=
  ⟨congrArg Prod.fst h.chain, congrArg (fun q => q.2.1) h.chain⟩

/-- An insert taken as it is keeps the caches alongside each other. -/
theorem insert (h : Alongside s f) {now : ℕ} {block : CompactBlock} (htakes : s.TakesAsIs now block) :
    Alongside ((insertCompactBlock now block).exec s) ((insertCompactBlock now block).exec f) := by
  obtain ⟨s₁, hchain₁, hserver₁, hexec⟩ := insertCompactBlock_exec now block s
  obtain ⟨f₁, hchain₂, hserver₂, hexec'⟩ := insertCompactBlock_exec now block f
  rw [takesAsIs_iff.mp htakes] at hexec
  rw [takesAsIs_iff.mp (h.noPending.takesAsIs now block)] at hexec'
  have hblocks : ((insertCompactBlock now block).exec s).db.blocks = s.db.blocks.inserted block := by
    have hblocks₁ : s₁.db.blocks = s.db.blocks := congrArg Prod.fst hchain₁
    rw [hexec, insertMergedBlock_blocks, hblocks₁]
  refine ⟨?_, ?_, ?_, hblocks ▸ h.sound.inserted block, h.noPending.insert now block⟩
  · rw [hexec, hexec']
    exact exec_chain (insertMergedBlock_withChain block)
      (hchain₁.trans (h.chain.trans hchain₂.symm))
  · unfold Db.Current
    rw [hexec, exec_server (insertMergedBlock_withChain block), hserver₁]
    exact h.format
  · unfold Db.Current
    rw [hexec', exec_server (insertMergedBlock_withChain block), hserver₂]
    exact h.format'

/-- So does a rewind. -/
theorem rewind (h : Alongside s f) (height : ℕ) :
    Alongside ((rewindToHeight height).exec s) ((rewindToHeight height).exec f) := by
  refine ⟨exec_chain (rewindToHeight_withChain height) h.chain, ?_, ?_,
    rewindToHeight_blocks h.sound ▸ h.sound.rewound height, h.noPending.rewind height⟩
  · unfold Db.Current
    rw [exec_server (rewindToHeight_withChain height)]
    exact h.format
  · unfold Db.Current
    rw [exec_server (rewindToHeight_withChain height)]
    exact h.format'

end Alongside

/-- What opening reads of a current database are its rows of blocks and trees. -/
theorem alongside_reopen {s f : Cache} (hview : SameView s f) (hs : s.db.Current) (hf : f.db.Current)
    (hsound : s.db.blocks.Sound) (hpending : f.NoPending) (now : ℕ) :
    Alongside (LaterCall.apply (.reopen now) s) (LaterCall.apply (.reopen now) f) := by
  obtain ⟨hblocks, htrees⟩ := hview
  have hsound' : f.db.blocks.Sound := hblocks ▸ hsound
  obtain ⟨s', hnew, h1, h2, h3, h4⟩ := new_of_current now hs hsound
  obtain ⟨f', hnew', h1', h2', h3', h4'⟩ := new_of_current now hf hsound'
  have hs' : LaterCall.apply (.reopen now) s = s' := by
    rw [LaterCall.apply, hnew]
    rfl
  have hf' : LaterCall.apply (.reopen now) f = f' := by
    rw [LaterCall.apply, hnew']
    rfl
  rw [hs', hf']
  refine ⟨?_, h3, h3', h1 ▸ hsound, hpending.reopen now hf hsound' hnew'⟩
  unfold Cache.chain
  rw [h1, h2, h4, h1', h2', h4', hblocks, htrees]

/-- Every insert of the calls finds nothing in the cache that its block would take in. -/
def TakesAll (calls : List LaterCall) (s : Cache) : Prop :=
  ∀ pre now block, pre ++ [.insert now block] <+: calls → (runLater pre s).TakesAsIs now block

/-- Later calls run one after the other. -/
theorem runLater_append (calls calls' : List LaterCall) (s : Cache) :
    runLater (calls ++ calls') s = runLater calls' (runLater calls s) := List.foldl_append

/-- Any later call keeps them so, if its block is taken as it is. -/
theorem Alongside.apply {s f : Cache} (h : Alongside s f) (call : LaterCall)
    (htakes : ∀ now block, call = .insert now block → s.TakesAsIs now block) :
    Alongside (call.apply s) (call.apply f) := by
  cases call with
  | insert now block => exact h.insert (htakes now block rfl)
  | rewind height => exact h.rewind height
  | reopen now => exact alongside_reopen h.sameView h.format h.format' h.sound h.noPending now

/-- Caches that are alongside each other stay so as long as every block is taken as it is. -/
theorem Alongside.runLater {s f : Cache} (h : Alongside s f) {calls : List LaterCall}
    (htakes : TakesAll calls s) :
    Alongside (LightWalletd.runLater calls s) (LightWalletd.runLater calls f) := by
  induction calls using List.reverseRecOn with
  | nil => exact h
  | append_singleton calls call ih =>
    have hbefore := ih fun pre now block hpre =>
      htakes pre now block (hpre.trans (List.prefix_append ..))
    rw [runLater_append, runLater_append]
    exact hbefore.apply call fun now block hcall =>
      htakes calls now block (hcall ▸ List.prefix_rfl)

/-! ## The first call -/

section FirstCall

variable {f : Cache} (hblocks : f.db.blocks = .empty)
include hblocks

/-- A rewind of a cache without derived rows does not depend on the tree in memory. -/
theorem rewind_setLive_eq (htrees : f.db.trees = .empty) (live : LiveTipTree) {height : ℕ}
    (hmax : height ≤ u32Max) :
    (rewindToHeight height).exec (f.setLive live) = (rewindToHeight height).exec f := by
  have hrewound : ∀ g : Cache, g.db.blocks = .empty → g.db.blocks.rewound height = .empty := by
    intro g hg
    rw [hg]
    unfold BlockRows.rewound BlockRows.rewoundTip BlockRows.deleteWhere
    by_cases h0 : height = 0
    · subst h0
      rfl
    · show (if height = 0 then _ else BlockRows.empty) = _
      rw [if_neg h0]
  -- both runs end in the state that a rebuild without coins leaves
  have hrun : ∀ g : Cache, g.db.blocks = .empty → g.db.trees = .empty →
      (rewindToHeight height).run g = (rebuildTipMerkleTree height).run (g.setBlocks .empty) := by
    intro g hg ht
    have hdel := deleteSnapshotsAbove_run height (g.setBlocks .empty) (fun _ k hk => by
      rw [setBlocks_trees, ht] at hk
      cases hk)
    have hself : (g.setBlocks .empty).setSnapshots
        ((g.setBlocks .empty).db.trees.merkleSnapshots.filter fun h => decide (h ≤ height)) =
        g.setBlocks .empty := by
      have hempty : ((g.setBlocks .empty).db.trees.merkleSnapshots.filter fun h =>
          decide (h ≤ height)) = (g.setBlocks .empty).db.trees.merkleSnapshots := by
        rw [setBlocks_trees, ht]
        rfl
      rw [hempty, setSnapshots_self]
    rw [rewindToHeight_run (fun bytes => by rw [hg]; exact nofun), hrewound g hg]
    rw [hself] at hdel
    exact Prog.run_bind_of_ok hdel _
  unfold Prog.exec
  rw [hrun (f.setLive live) hblocks htrees, hrun f hblocks htrees]
  by_cases h0 : height = 0
  · subst h0
    rw [rebuildTipMerkleTree_run_absent (s := (f.setLive live).setBlocks .empty) rfl,
      rebuildTipMerkleTree_run_absent (s := f.setBlocks .empty) rfl]
    rfl
  · have hsnaps : ∀ g : Cache, g.db.trees = .empty → ∃ snaps,
        (rebuildTipMerkleTree height).run (g.setBlocks .empty) =
          (.ok (), (g.setBlocks .empty).rebuilt (fun _ => []) height snaps) ∧
        RebuiltSnapshots (fun _ => []) height none .empty snaps := by
      intro g ht
      have hnone : (g.setBlocks .empty).db.trees.merkleSnapshots = .empty := by
        rw [setBlocks_trees, ht]
        rfl
      obtain ⟨snaps, hreb, hnew⟩ := rebuildTipMerkleTree_run (s := g.setBlocks .empty)
        (c := fun _ => []) hmax (fun _ k hk => by rw [hnone] at hk; cases hk)
        (fun heq => absurd heq h0) (fun _ _ => Or.inl ⟨rfl, rfl⟩)
        (fun _ _ coin hcoin => by cases hcoin) (fun k _ row hrow => by rw [hnone] at hrow; cases hrow)
      rw [hnone] at hnew
      exact ⟨snaps, hreb, hnew⟩
    obtain ⟨snaps, hreb, hnew⟩ := hsnaps f htrees
    obtain ⟨snaps', hreb', hnew'⟩ := hsnaps (f.setLive live) htrees
    have heq : snaps = snaps' := OrderedMap.get_ext fun k => (hnew k).trans (hnew' k).symm
    rw [hreb, hreb', heq]
    rfl

/-- The first block becomes the tip, its coins appended to the tree in memory. -/
theorem firstInsert_tipMerkleTree (hlive : f.tipTree.height = none)
    (hload : f.tipTree.loadFailed = false) (now : ℕ) {block : CompactBlock}
    (hcan : block.CanonicalCoins) :
    ((insertCompactBlock now block).exec f).db.trees.tipMerkleTree =
      some (.value ⟨f.tipTree.tree.leaves ++ block.allCoins.filterMap Base.fromBytes⟩) := by
  obtain ⟨merged, f₁, hmerge, hsame, hbeside⟩ := applyOmrClueHints_run now block f
  have hblocks₁ : f₁.db.blocks = .empty := (congrArg Prod.fst hbeside).trans hblocks
  have hlive₁ : f₁.tipTree = f.tipTree := congrArg (fun q => q.2.2.2) hbeside
  have hcoins := hsame.allCoins
  have htip : getTip.run (f₁.setBlocks (f₁.db.blocks.store merged)) =
      (.ok none, f₁.setBlocks (f₁.db.blocks.store merged)) := by
    rw [getTip_run, setBlocks_blocks, hblocks₁]
    rfl
  have hneeds : f.tipTree.needsRebuild merged.height = false := by
    unfold LiveTipTree.needsRebuild
    rw [hlive, hload]
    rfl
  have happend := appendNodes_run merged.height
    (f₁.setBlocks ((f₁.db.blocks.store merged).setTip merged.height merged.hash))
    (show Canonical merged.allCoins by rw [hcoins]; exact hcan)
  have hrun : (insertCompactBlock now block).run f = (appendNodes merged.height merged.allCoins).run
      (f₁.setBlocks ((f₁.db.blocks.store merged).setTip merged.height merged.hash)) := by
    refine (Prog.run_bind_of_ok hmerge _).trans ?_
    unfold insertMergedBlock
    rw [Prog.bind_eq, Prog.run_bind_of_ok (storeBlockRows_run merged f₁), Prog.bind_eq,
      Prog.run_bind_of_ok htip]
    show (appendCoinsToTipTree merged.height merged.allCoins).run
      (f₁.setBlocks ((f₁.db.blocks.store merged).setTip merged.height merged.hash)) = _
    rw [appendCoinsToTipTree_run, setBlocks_tipTree, hlive₁, hneeds]
    rfl
  unfold Prog.exec
  rw [hrun, happend]
  show some (Stored.value (List.foldl MerkleTree.append f₁.tipTree.tree _)) = _
  rw [hlive₁, hcoins, foldl_append_leaves]

end FirstCall

/-- What opening a database of another format comes to, and opening an empty one. -/
structure OpenedBeside (s f : Cache) : Prop where
  blocks : s.db.blocks = .empty
  blocks' : f.db.blocks = .empty
  trees : s.db.trees = .empty
  trees' : f.db.trees = .empty
  live : s.tipTree = ⟨none, .new, false⟩
  live' : f.tipTree = .fresh
  format : s.db.Current
  format' : f.db.Current
  noPending : f.NoPending

/-- A database of another format opens beside an empty one. -/
theorem openedBeside {now now' : ℕ} {db : Db} {s f : Cache} (hother : ¬ db.Current)
    (hs : Cache.new now db = .ok s) (hf : Cache.new now' .empty = .ok f) : OpenedBeside s f := by
  obtain ⟨s', hnew, hblocks, htrees, hformat, hlive⟩ := @new_of_other now db hother
  obtain rfl : s' = s := Except.ok.inj (hnew.symm.trans hs)
  obtain ⟨hblocks', htrees', hformat', hlive'⟩ := new_empty hf
  have hnone : (Cache.unopened .empty).NoPending := fun _ => ⟨rfl, rfl⟩
  exact ⟨hblocks, hblocks', htrees, htrees', hlive, hlive', hformat, hformat',
    hnone.reopen now' (Or.inl rfl) BlockRows.sound_empty hf⟩

namespace OpenedBeside

variable {s f : Cache} (h : OpenedBeside s f)
include h

/-- Right after opening the two are read alike. -/
theorem sameView : SameView s f :=
  ⟨h.blocks.trans h.blocks'.symm, h.trees.trans h.trees'.symm⟩

/-- A rewind after opening brings them alongside each other. -/
theorem rewind {height : ℕ} (hmax : height ≤ u32Max) :
    Alongside ((rewindToHeight height).exec s) ((rewindToHeight height).exec f) := by
  have hsound : s.db.blocks.Sound := h.blocks ▸ BlockRows.sound_empty
  refine ⟨?_, ?_, ?_, rewindToHeight_blocks hsound ▸ hsound.rewound height,
    h.noPending.rewind height⟩
  · have hchain : s.chain = (f.setLive s.tipTree).chain := by
      unfold Cache.chain
      rw [h.blocks, h.trees]
      exact congrArg₂ (fun b t => (b, t, s.tipTree)) h.blocks'.symm h.trees'.symm
    rw [exec_chain (rewindToHeight_withChain height) hchain,
      rewind_setLive_eq h.blocks' h.trees' _ hmax]
  · unfold Db.Current
    rw [exec_server (rewindToHeight_withChain height)]
    exact h.format
  · unfold Db.Current
    rw [exec_server (rewindToHeight_withChain height)]
    exact h.format'

/-- So does opening them again. -/
theorem reopen (now : ℕ) :
    Alongside (LaterCall.apply (.reopen now) s) (LaterCall.apply (.reopen now) f) :=
  alongside_reopen h.sameView h.format h.format' (h.blocks ▸ BlockRows.sound_empty) h.noPending now

/-- The first insert brings out that one of the trees has no sentinel. -/
theorem insert_ne (now : ℕ) {block : CompactBlock} (hcan : block.CanonicalCoins) :
    ¬ SameView ((insertCompactBlock now block).exec s) ((insertCompactBlock now block).exec f) := by
  intro hview
  have hleft := firstInsert_tipMerkleTree h.blocks (by rw [h.live]) (by rw [h.live]) now hcan
  have hright := firstInsert_tipMerkleTree h.blocks' (by rw [h.live']; rfl) (by rw [h.live']; rfl)
    now hcan
  have htree := congrArg TreeRows.tipMerkleTree hview.2
  rw [hleft, hright, h.live, h.live', Option.some_inj, Stored.value.injEq] at htree
  have hlength := congrArg (fun tree : MerkleTree => tree.leaves.length) htree
  simp [LiveTipTree.fresh, MerkleTree.new, emptyTipTree, MerkleTree.append] at hlength

/-- Whatever is called, nothing waits in the cache that was empty. -/
theorem noPending_runLater (calls : List LaterCall) : (runLater calls f).NoPending := by
  have hself : Alongside (runLater calls f) (runLater calls f) := by
    induction calls using List.reverseRecOn with
    | nil => exact ⟨rfl, h.format', h.format', h.blocks' ▸ BlockRows.sound_empty, h.noPending⟩
    | append_singleton calls call ih =>
      rw [runLater_append]
      exact ih.apply call fun now block _ => ih.noPending.takesAsIs now block
  exact hself.noPending

end OpenedBeside

/-! ## The equivalence -/

/-- The block that an insert stores is the one it was given exactly when it is taken as it is. -/
theorem takesAsIs_of_sameView {s f : Cache} (hf : f.NoPending) {now : ℕ} {block : CompactBlock}
    (hview : SameView ((insertCompactBlock now block).exec s)
      ((insertCompactBlock now block).exec f)) : s.TakesAsIs now block := by
  obtain ⟨hleft, -⟩ := insertCompactBlock_merge now block s
  obtain ⟨hright, -⟩ := insertCompactBlock_merge now block f
  rw [takesAsIs_iff.mp (hf.takesAsIs now block)] at hright
  rw [hview.1, hright, Option.some_inj, Stored.value.injEq] at hleft
  exact takesAsIs_iff.mpr hleft.symm

/-- Whether the calls begin with an insert. -/
def BeginsWithInsert : List LaterCall → Prop
  | .insert _ _ :: _ => True
  | _ => False

/-- The first call of a sequence that begins with an insert. -/
theorem exists_of_beginsWithInsert {calls : List LaterCall} (h : BeginsWithInsert calls) :
    ∃ now block rest, calls = .insert now block :: rest := by
  cases calls with
  | nil => exact h.elim
  | cons call rest =>
    cases call with
    | insert now block => exact ⟨now, block, rest, rfl⟩
    | rewind height => exact h.elim
    | reopen now => exact h.elim

/-- Opened over a database of another format and over an empty one, the caches agree after every
call of a sequence exactly when the sequence does not begin with an insert and every block is
taken as it is. -/
theorem format_change_equivalence {now now' : ℕ} {db : Db} {s f : Cache} (hother : ¬ db.Current)
    (hs : Cache.new now db = .ok s) (hf : Cache.new now' .empty = .ok f)
    (calls : List LaterCall) (hheight : ∀ height, .rewind height ∈ calls → height ≤ u32Max)
    (hcan : ∀ now block rest, calls = .insert now block :: rest → block.CanonicalCoins) :
    (∀ pre, pre <+: calls → SameView (runLater pre s) (runLater pre f)) ↔
      ¬ BeginsWithInsert calls ∧ TakesAll calls s := by
  have hopened := openedBeside hother hs hf
  constructor
  · intro hsame
    constructor
    · intro hbegin
      obtain ⟨now', block, rest, rfl⟩ := exists_of_beginsWithInsert hbegin
      exact hopened.insert_ne now' (hcan now' block rest rfl) (hsame [.insert now' block] ⟨rest, rfl⟩)
    · intro pre now' block hpre
      have hview := hsame _ hpre
      rw [runLater_append, runLater_append] at hview
      exact takesAsIs_of_sameView (hopened.noPending_runLater pre) hview
  · rintro ⟨hbegin, htakes⟩ pre hpre
    cases pre with
    | nil => exact hopened.sameView
    | cons call pre =>
      obtain ⟨rest, rfl⟩ := hpre
      -- a rewind and a reopening make the tree in memory anew
      have hfirst : Alongside (call.apply s) (call.apply f) := by
        cases call with
        | insert now' block => exact absurd trivial hbegin
        | rewind height => exact hopened.rewind (hheight height (List.mem_cons_self ..))
        | reopen now' => exact hopened.reopen now'
      refine (hfirst.runLater fun pre' now' block hpre' => ?_).sameView
      refine htakes (call :: pre') now' block ?_
      exact List.cons_prefix_cons.mpr ⟨rfl, hpre'.trans (List.prefix_append pre rest)⟩

/-- A database of format 1 with one block, and with a clue that waits for a later one. -/
def formatOne : Db :=
  let db := ((insertCompactBlock 0 (.sample 0 1 [1] [])).exec .initial).db
  let db := ((storeOmrClueHint 0 (Bytes32.fill 9) [1, 2] (some 0)).exec
    { Cache.initial with db := db }).db
  { db with server.cacheFormat := some (.value 1) }

/-- What opening a database leads to. -/
def opened (db : Db) : Cache := (openSteps 0).exec (Cache.unopened db)

/-- The cache that `opened` names is the one `Cache::new` returns. -/
theorem new_opened {db : Db} (h : ((openSteps 0).run (Cache.unopened db)).1 = .ok ()) :
    Cache.new 0 db = .ok (opened db) := by
  have hrun : (openSteps 0).run (Cache.unopened db) = (.ok (), opened db) := Prod.ext h rfl
  unfold Cache.new
  rw [hrun]

/-- A rewind, then an insert of a block that no pending row is for. -/
theorem format_change_equivalence_rewind_first :
    SameView (runLater [.rewind 0, .insert 0 (.sample 0 1 [1] [])] (opened formatOne))
      (runLater [.rewind 0, .insert 0 (.sample 0 1 [1] [])] Cache.initial) :=
  (format_change_equivalence (by unfold Db.Current; decide +kernel)
    (new_opened (by decide +kernel)) new_initial
    [.rewind 0, .insert 0 (.sample 0 1 [1] [])] (fun height hmem => by
      simp only [List.mem_cons, LaterCall.rewind.injEq, reduceCtorEq, List.not_mem_nil,
        or_false] at hmem
      rw [hmem]
      decide) (fun _ _ _ => nofun)).mpr ⟨fun h => h, fun pre now block hpre => by
        -- the only insert comes second, and the clue that waits is for another transaction
        rcases pre with _ | ⟨call, _ | ⟨call', pre⟩⟩
        · simp [List.cons_prefix_cons] at hpre
        · simp only [List.cons_append, List.nil_append, List.cons_prefix_cons,
            LaterCall.insert.injEq, List.prefix_rfl, and_true] at hpre
          obtain ⟨rfl, rfl, rfl⟩ := hpre
          exact takesAsIs_iff.mpr (by decide +kernel)
        · have hlength := hpre.length_le
          simp only [List.length_append, List.length_cons, List.length_nil] at hlength
          omega⟩ _ List.prefix_rfl

/-- The first insert after a change of format writes a tree without the sentinel. -/
theorem format_change_drops_sentinel :
    Cache.new 0 formatOne = .ok (opened formatOne) ∧ Cache.new 0 .empty = .ok Cache.initial ∧
      (runLater [.insert 0 (.sample 0 1 [1] [])] (opened formatOne)).tipTree.tree.leafBytes =
        [Bytes32.fill 1] ∧
      (runLater [.insert 0 (.sample 0 1 [1] [])] Cache.initial).tipTree.tree.leafBytes =
        [Base.zero.repr, Bytes32.fill 1] ∧
      ¬ SameView (runLater [.insert 0 (.sample 0 1 [1] [])] (opened formatOne))
        (runLater [.insert 0 (.sample 0 1 [1] [])] Cache.initial) := by
  refine ⟨new_opened (by decide +kernel), new_initial, by decide +kernel, by decide +kernel, ?_⟩
  unfold SameView
  decide +kernel

end LightWalletd
