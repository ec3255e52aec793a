import LightWalletd.Analysis.DirectoryPrivacy
import LightWalletd.Analysis.ServerLife
import LightWalletd.Computation.Relations
import LightWalletd.Model.TipHandlers

/-!
# Replicas

Two servers with the same tip, whatever their nodes answered and whatever reorgs, failures, restarts
and requests each has behind it, hold the same tree and the same snapshots, and blocks that differ in
their clues at most: the tip block's hash decides for the whole chain. So a wallet may ask either of
them, and go on with the other.
-/

set_option autoImplicit false

namespace LightWalletd

open Stateful

/-! ## One index -/

/-- Two caches with one tip and tree, and with blocks that differ in their clues at most. -/
structure SameIndex (s s' : Cache) : Prop where
  tip : s.db.blocks.readTip = s'.db.blocks.readTip
  trees : s.db.trees = s'.db.trees
  chains : ∃ chain chain', ChainState chain s ∧ ChainState chain' s' ∧
    chain.map CompactBlock.unclued = chain'.map CompactBlock.unclued

/-- The coins of a block do not depend on its clues. -/
theorem CompactBlock.allCoins_unclued (block : CompactBlock) :
    block.unclued.allCoins = block.allCoins := by
  simp [CompactBlock.allCoins, CompactBlock.unclued, CompactTx.unclued, CompactOutput.unclued,
    List.flatMap_map, Function.comp_def]

section Chains

variable {chain chain' : List CompactBlock} {s s' : Cache}

/-- With one tip hash, two chains of linked blocks are one, but for their clues. -/
theorem unclued_eq_of_tip (hs : ServedState chain s) (hs' : ServedState chain' s')
    (htip : s.db.blocks.readTip = s'.db.blocks.readTip) (hid : HashesIdentifyCached [s, s']) :
    chain.map CompactBlock.unclued = chain'.map CompactBlock.unclued := by
  have hat : chainTip chain = chainTip chain' := by
    have h := hs.readTip.symm.trans (htip.trans hs'.readTip)
    simpa using h
  have hnames : ∀ x ∈ chain, ∀ y ∈ chain', x.hash = y.hash → x.unclued = y.unclued := by
    intro x hx y hy hhash
    obtain ⟨i, hi⟩ := List.getElem?_of_mem hx
    obtain ⟨j, hj⟩ := List.getElem?_of_mem hy
    exact hid s (by simp) s' (by simp) i j x y ((hs.chainState.blockAt i).trans hi)
      ((hs'.chainState.blockAt j).trans hj) hhash
  cases htop : chainTip chain with
  | none =>
    have htop' : chainTip chain' = none := hat ▸ htop
    rw [chainTip_eq_none_iff.mp htop, chainTip_eq_none_iff.mp htop']
  | some top =>
    obtain ⟨t, hash⟩ := top
    obtain ⟨x, hx, hlen, hxhash⟩ := chainTip_eq_some_iff.mp htop
    obtain ⟨y, hy, hlen', hyhash⟩ := chainTip_eq_some_iff.mp (hat ▸ htop)
    apply List.ext_getElem?
    intro k
    rw [List.getElem?_map, List.getElem?_map]
    by_cases hk : k ≤ t
    · -- the heights below the tip are on both chains by their hashes
      obtain ⟨n, rfl⟩ := Nat.exists_eq_add_of_le hk
      obtain ⟨low, low', hlow, hlow', hhash⟩ := HashChains.Linked.hash_below hs.linked hs'.linked
        (fun x hx y hy h => CompactBlock.prevHash_eq_of_unclued (hnames x hx y hy h)) n
        ⟨x, y, hx, hy, hxhash.trans hyhash.symm⟩
      rw [hlow, hlow']
      simp [hnames low (List.mem_of_getElem? hlow) low' (List.mem_of_getElem? hlow') hhash]
    · rw [List.getElem?_eq_none (by omega), List.getElem?_eq_none (by omega)]

/-- The coins of a chain do not depend on its clues. -/
theorem coinsOf_eq_of_unclued
    (h : chain.map CompactBlock.unclued = chain'.map CompactBlock.unclued) :
    coinsOf (chainMap chain) = coinsOf (chainMap chain') := by
  funext k
  have hk := congrArg (fun blocks => blocks[k]?) h
  simp only [List.getElem?_map] at hk
  unfold coinsOf chainMap
  cases hx : chain[k]? <;> cases hy : chain'[k]? <;> simp [hx, hy] at hk ⊢
  rw [← CompactBlock.allCoins_unclued, hk, CompactBlock.allCoins_unclued]

/-- The snapshots that are kept are given by the length of the chain, and each by the coins. -/
theorem snapshots_eq {snaps snaps' : OrderedMap ℕ (Stored MerkleTree)} {count : ℕ}
    {c : ℕ → List Bytes32} (h : Retained snaps count) (h' : Retained snaps' count)
    (hrow : ∀ k row, snaps.get k = some row → row = .value (treeTo c k))
    (hrow' : ∀ k row, snaps'.get k = some row → row = .value (treeTo c k)) : snaps = snaps' := by
  apply OrderedMap.get_ext
  intro k
  have hsome : (snaps.get k).isSome ↔ (snaps'.get k).isSome := (h k).trans (h' k).symm
  cases hk : snaps.get k with
  | none =>
    have hk' : snaps'.get k = none := by simpa [hk] using hsome
    rw [hk']
  | some row =>
    rw [hk] at hsome
    obtain ⟨row', hk'⟩ := Option.isSome_iff_exists.mp (hsome.mp rfl)
    rw [hk', hrow k row hk, hrow' k row' hk']

/-- The tree rows are given by the coins of the chain. -/
theorem trees_eq_of_unclued (hs : ServedState chain s) (hs' : ServedState chain' s')
    (h : chain.map CompactBlock.unclued = chain'.map CompactBlock.unclued) :
    s.db.trees = s'.db.trees := by
  have hlen : chain.length = chain'.length := by simpa using congrArg List.length h
  have hcoins := coinsOf_eq_of_unclued h
  rcases hs.tree with ⟨hfresh, hempty, -⟩ | ⟨H, hat⟩
  · rcases hs'.tree with ⟨-, hempty', -⟩ | ⟨H', hat'⟩
    · rw [hempty, hempty']
    · have hnone : chain = [] := by
        rw [← chainTip_eq_none_iff]
        simpa [hfresh, LiveTipTree.fresh] using hs.treeHeight
      have hlen' := hs'.chainState.length_of_treeAt hat'
      simp [hnone, hlen'] at hlen
  · have hH := hs.chainState.length_of_treeAt hat
    rcases hs'.tree with ⟨hfresh', -, -⟩ | ⟨H', hat'⟩
    · have hnone : chain' = [] := by
        rw [← chainTip_eq_none_iff]
        simpa [hfresh', LiveTipTree.fresh] using hs'.treeHeight
      simp [hnone, hH] at hlen
    · have hH' := hs'.chainState.length_of_treeAt hat'
      obtain rfl : H = H' := by omega
      rw [← hcoins] at hat'
      have hsnaps := snapshots_eq hs.retained (hlen ▸ hs'.retained)
        (fun k row hrow => (hat.snapshots k row hrow).2)
        fun k row hrow => (hat'.snapshots k row hrow).2
      calc s.db.trees = ⟨s.db.trees.merkleSnapshots, s.db.trees.tipMerkleTree,
              s.db.trees.tipMerkleHeight⟩ := rfl
        _ = ⟨s'.db.trees.merkleSnapshots, s'.db.trees.tipMerkleTree,
              s'.db.trees.tipMerkleHeight⟩ := by
            rw [hsnaps, hat.tipMerkleTree, hat.tipMerkleHeight, hat'.tipMerkleTree,
              hat'.tipMerkleHeight]
        _ = s'.db.trees := rfl

/-- Two served chains with one tip, under hashes that identify blocks, are one but for clues. -/
theorem SameIndex.of_tip (hs : ServedState chain s) (hs' : ServedState chain' s')
    (htip : s.db.blocks.readTip = s'.db.blocks.readTip) (hid : HashesIdentifyCached [s, s']) :
    SameIndex s s' :=
  have hblocks := unclued_eq_of_tip hs hs' htip hid
  ⟨htip, trees_eq_of_unclued hs hs' hblocks, chain, chain', hs.chainState, hs'.chainState, hblocks⟩

end Chains

/-! ## Replies -/

/-- The outcomes on caches with one index are related by `V`. -/
abbrev Replicates {ε T : Type} (V : T → T → Prop) (prog : Prog ε Cache T) : Prop :=
  prog.Relates SameIndex V prog

section Reads

/-- `get_tip` on two servers of one chain. -/
theorem getTip_replicates : Replicates Eq getTip := by
  refine Prog.Relates.of_runs fun s s' h => ⟨_, _, getTip_run s, getTip_run s', ?_⟩
  simp [h.tip]

/-- `get_compact_block` on two servers of one chain: the blocks are one but for clues. -/
theorem getCompactBlock_replicates (height : ℕ) :
    Replicates (fun b b' => b.map CompactBlock.unclued = b'.map CompactBlock.unclued)
      (getCompactBlock height) := by
  refine Prog.Relates.of_runs fun s s' h => ?_
  obtain ⟨chain, chain', hs, hs', hblocks⟩ := h.chains
  refine ⟨_, _, getCompactBlock_run hs.rows height, getCompactBlock_run hs'.rows height, .ok ?_⟩
  simpa [chainMap] using congrArg (fun blocks => blocks[height]?) hblocks

/-- `get_block_hash` on two servers of one chain. -/
theorem getBlockHash_replicates (height : ℕ) : Replicates Eq (getBlockHash height) := by
  refine Prog.Relates.of_runs fun s s' h => ?_
  obtain ⟨chain, chain', hs, hs', hblocks⟩ := h.chains
  refine ⟨_, _, getBlockHash_run hs.rows height, getBlockHash_run hs'.rows height, .ok ?_⟩
  have hblock := congrArg (fun blocks => (blocks[height]?).map CompactBlock.hash) hblocks
  simpa [Function.comp_def, CompactBlock.unclued, chainMap] using hblock

/-- The hash of a reply on two servers of one chain. -/
theorem blockHashVec_replicates (height : ℕ) : Replicates Eq (blockHashVec height) := by
  refine ((getBlockHash_replicates height).attempt_eq.mapError cacheStatus).bind_eq fun r => ?_
  rcases r with e | _ | hash <;> exact Prog.relates_ret rfl

/-- `get_tip_tree_state` on two servers of one chain. -/
theorem getTipTreeState_replicates : Replicates Eq getTipTreeState := by
  refine Prog.Relates.of_runs fun s s' h =>
    ⟨_, _, getTipTreeState_run s, getTipTreeState_run s', ?_⟩
  simp [h.trees]

/-- A snapshot on two servers of one chain. -/
theorem merkleSnapshot_replicates (height : ℕ) : Replicates Eq (merkleSnapshot height) :=
  Prog.relates_get fun _ _ h => congrArg (fun trees => trees.merkleSnapshots.get height) h.trees

/-- The greatest snapshot at or below a height on two servers of one chain. -/
theorem greatestSnapshotAtOrBelow_replicates (height : ℕ) :
    Replicates Eq (greatestSnapshotAtOrBelow height) :=
  Prog.relates_get fun _ _ h =>
    congrArg (fun trees => trees.merkleSnapshots.lastUpTo height) h.trees

end Reads

section Replies

/-- `GetTreeState` on two servers of one chain. -/
theorem getTreeState_replicates (w : Wire) (height : ℕ) :
    Replicates Eq (getTreeState w height) := by
  unfold getTreeState
  refine (getTip_replicates.mapError _).bind_eq fun cachedTip => ?_
  refine Prog.Relates.ite (fun _ => ?_) fun _ => ?_
  · refine (getTipTreeState_replicates.mapError _).bind_eq fun found => ?_
    cases found with
    | none => exact Prog.Relates.ite (fun _ => Prog.relates_ret rfl) fun _ => Prog.relates_fail _
    | some found =>
      refine Prog.Relates.ite (fun _ => ?_) fun _ => Prog.relates_fail _
      exact (blockHashVec_replicates _).bind_eq fun _ => Prog.relates_ret rfl
  · refine ((merkleSnapshot_replicates height).mapError _).bind_eq fun found => ?_
    cases found with
    | none =>
      exact ((greatestSnapshotAtOrBelow_replicates height).mapError _).bind_eq fun _ =>
        Prog.relates_fail _
    | some row => exact (blockHashVec_replicates height).bind_eq fun _ => Prog.relates_ret rfl

/-- `GetCheckpointSnapshot` on two servers of one chain. -/
theorem getCheckpointSnapshot_replicates (w : Wire) (allowed : Bool) (preferred : ℕ) :
    Replicates Eq (getCheckpointSnapshot w allowed preferred) := by
  unfold getCheckpointSnapshot
  refine Prog.Relates.ite (fun _ => Prog.relates_fail _) fun _ => ?_
  -- The last snapshot is the greatest one at or below the last height.
  have hfind : ∀ height, Replicates Eq
      ((greatestSnapshotAtOrBelow height).mapError cacheStatus) := fun height =>
    (greatestSnapshotAtOrBelow_replicates height).mapError _
  refine Prog.Relates.ite (fun _ => (hfind u32Max).bind_eq fun found => ?_) fun _ =>
    (hfind preferred).bind_eq fun found => ?_
  all_goals
    cases found with
    | none => exact Prog.relates_fail _
    | some found => exact (blockHashVec_replicates found.1).bind_eq fun _ => Prog.relates_ret rfl

/-- `GetChainTip` on two servers of one chain. -/
theorem getChainTip_replicates (allowed : Bool) (blockTarget : ℕ → Bytes32 → ℕ) :
    Replicates Eq (getChainTip allowed blockTarget) := by
  unfold getChainTip
  refine Prog.Relates.ite (fun _ => Prog.relates_fail _) fun _ => ?_
  refine (getTip_replicates.mapError _).bind_eq fun tip => ?_
  rcases tip with _ | ⟨height, hash⟩
  · exact Prog.relates_fail _
  · refine ((getCompactBlock_replicates height).mapError _).bind fun b b' h => ?_
    apply Prog.relates_ret
    have htimestamp : b.map CompactBlock.timestamp = b'.map CompactBlock.timestamp := by
      simpa [Function.comp_def, CompactBlock.unclued] using
        congrArg (fun block => block.map CompactBlock.timestamp) h
    have hprev : b.map CompactBlock.prevHash = b'.map CompactBlock.prevHash := by
      simpa [Function.comp_def, CompactBlock.unclued] using
        congrArg (fun block => block.map CompactBlock.prevHash) h
    have hprevBytes := congrArg (fun prev => prev.map Subtype.val) hprev
    simp only [Option.map_map, Function.comp_def] at hprevBytes
    simp [htimestamp, hprevBytes]

end Replies

/-! ## Streams -/

/-- A message without what a later registration adds to it. -/
def Proto.CompactOutputBody.unclued (m : Proto.CompactOutputBody) : Proto.CompactOutputBody :=
  { m with omrClue := [], omrMetadataEnc := [] }

/-- The message of a block without clues and metadata. -/
def Proto.CompactBlock.unclued (m : Proto.CompactBlock) : Proto.CompactBlock :=
  { m with
    txs := m.txs.map fun tx => { tx with
      outputs := tx.outputs.map fun o => { o with omrClue := [], omrMetadataEnc := [] } } }

/-- Taking the clues out and sending a block can be done in either order. -/
theorem toProto_unclued (block : CompactBlock) : block.toProto.unclued = block.unclued.toProto := by
  simp [CompactBlock.toProto, Proto.CompactBlock.unclued, CompactBlock.unclued, CompactTx.unclued,
    CompactOutput.unclued, Function.comp_def]

/-- The output bodies of a block, clues aside, are those of the block without clues. -/
theorem outputBodies_unclued (block : CompactBlock) :
    block.outputBodies.map Proto.CompactOutputBody.unclued = block.unclued.outputBodies := by
  simp [CompactBlock.outputBodies, CompactBlock.outputBody, Proto.CompactOutputBody.unclued,
    CompactBlock.unclued, CompactTx.unclued, CompactOutput.unclued, List.map_flatMap,
    List.flatMap_map, Function.comp_def]

/-- The same for the bodies of one function code. -/
theorem outputsByFunc_unclued (funcCode : ℕ) (block : CompactBlock) :
    (block.outputsByFunc funcCode).map Proto.CompactOutputBody.unclued =
      block.unclued.outputsByFunc funcCode := by
  have hevent : ∀ event, (block.eventBody event).unclued = block.unclued.eventBody event :=
    fun _ => rfl
  have houtput : ∀ tx output, (block.outputBody tx output).unclued =
      block.unclued.outputBody tx.unclued output.unclued := fun _ _ => rfl
  have htxs : block.unclued.txs = block.txs.map CompactTx.unclued := rfl
  have hevents : block.unclued.funcEvents = block.funcEvents := rfl
  have houtputs : ∀ tx : CompactTx, tx.unclued.outputs = tx.outputs.map CompactOutput.unclued :=
    fun _ => rfl
  have hcode : ∀ output : CompactOutput, output.unclued.funcCode = output.funcCode := fun _ => rfl
  simp [CompactBlock.outputsByFunc, hevent, houtput, htxs, hevents, houtputs, hcode,
    List.map_flatMap, List.flatMap_map, List.filter_map, Function.comp_def]

/-- Two streams end alike, with messages that `g` does not tell apart. -/
structure SameStream {T U : Type} (g : T → U) (r r' : Streamed T) : Prop where
  messages : r.messages.map g = r'.messages.map g
  ending : r.ending = r'.ending

section Streams

variable {T U : Type} {g : T → U} {takes : ℕ → Bool} {messages : CompactBlock → List T}
  {allowed : Bool}

/-- Two lists that are one but for clues are sent alike: as many messages, to the same end. -/
theorem sendStream_same {sent sent' : List T} (hsent : sent.map g = sent'.map g) {ms ms' : List T}
    (hms : ms.map g = ms'.map g) :
    (sendStream takes sent ms).1.map g = (sendStream takes sent' ms').1.map g ∧
      (sendStream takes sent ms).2 = (sendStream takes sent' ms').2 := by
  induction ms generalizing sent sent' ms' with
  | nil =>
    obtain rfl : ms' = [] := by simpa using hms.symm
    exact ⟨hsent, rfl⟩
  | cons m ms ih =>
    cases ms' with
    | nil => simp at hms
    | cons m' ms' =>
      simp only [List.map_cons, List.cons.injEq] at hms
      have hlen : sent.length = sent'.length := by simpa using congrArg List.length hsent
      unfold sendStream
      rw [hlen]
      split_ifs
      · exact ih (by simp [hsent, hms.1]) hms.2
      · exact ⟨hsent, rfl⟩

/-- Two such streams end alike. -/
theorem endStream_same {sent sent' : List T} (hsent : sent.map g = sent'.map g)
    (status : RangeStatus) :
    SameStream g (endStream takes sent status) (endStream takes sent' status) := by
  have hlen : sent.length = sent'.length := by simpa using congrArg List.length hsent
  exact ⟨hsent, by simp [endStream, hlen]⟩

/-- Whether a block continues a stream does not depend on clues. -/
theorem continuesStream_same {start : ℕ} {prev prev' : Option CompactBlock}
    {block block' : CompactBlock}
    (hprev : prev.map CompactBlock.unclued = prev'.map CompactBlock.unclued)
    (hblock : block.unclued = block'.unclued) :
    continuesStream start prev block = continuesStream start prev' block' := by
  have hunclued : ∀ (prev : Option CompactBlock) (block : CompactBlock),
      continuesStream start prev block =
        continuesStream start (prev.map CompactBlock.unclued) block.unclued := by
    intro prev block
    cases prev <;> rfl
  rw [hunclued prev, hunclued prev', hprev, hblock]

/-- The streaming loop on two servers of one chain, for messages that are one but for clues. -/
theorem streamBlocks_replicates {start : ℕ}
    (hmessages : ∀ b b', b.unclued = b'.unclued → (messages b).map g = (messages b').map g)
    (heights : List ℕ) {prev prev' : Option CompactBlock}
    (hprev : prev.map CompactBlock.unclued = prev'.map CompactBlock.unclued)
    {sent sent' : List T} (hsent : sent.map g = sent'.map g) :
    (streamBlocks takes messages start heights prev sent).Relates SameIndex (SameStream g)
      (streamBlocks takes messages start heights prev' sent') := by
  induction heights generalizing prev prev' sent sent' with
  | nil => exact Prog.relates_ret ⟨hsent, rfl⟩
  | cons height heights ih =>
    refine ((getCompactBlock_replicates height).attempt.mapError cacheStatus).bind
      fun found found' h => ?_
    cases h with
    | error e => exact Prog.relates_ret (endStream_same hsent _)
    | ok hfound =>
      rename_i b b'
      rcases b with _ | block <;> rcases b' with _ | block' <;> simp only [Option.map_none,
        Option.map_some, reduceCtorEq, Option.some.injEq] at hfound
      · exact Prog.relates_ret (endStream_same hsent _)
      · dsimp only
        rw [continuesStream_same hprev hfound]
        cases continuesStream start prev' block' with
        | error status => exact Prog.relates_ret (endStream_same hsent _)
        | ok _ =>
          have hsend := @sendStream_same _ _ g takes _ _ hsent _ _ (hmessages block block' hfound)
          rcases hout : sendStream takes sent (messages block) with ⟨out, sentAll⟩
          rcases hout' : sendStream takes sent' (messages block') with ⟨out', sentAll'⟩
          simp only [hout, hout'] at hsend
          obtain ⟨hsame, rfl⟩ := hsend
          cases sentAll with
          | true => exact ih (by simp [hfound]) hsame
          | false => exact Prog.relates_ret ⟨hsame, rfl⟩

/-- A known status is raised on both servers. -/
theorem liftStatus_replicates {R : Type} (r : Except Status R) : Replicates Eq (liftStatus r) := by
  cases r with
  | ok a => exact Prog.relates_ret rfl
  | error e => exact Prog.relates_fail e

/-- A range is admitted by both servers or by neither. -/
theorem requirePaddedBlockRange_replicates (start last : ℕ) :
    Replicates Eq (requirePaddedBlockRange start last) := by
  refine (getTip_replicates.mapError _).bind_eq fun tip => ?_
  cases tip with
  | none => exact Prog.relates_fail _
  | some tip =>
    dsimp only
    rcases paddedRangeRejection start last tip.1 maxBlocksPerRequest with _ | _ | reason
    · exact Prog.relates_fail _
    · exact Prog.relates_ret rfl
    · exact Prog.relates_fail _

/-- The end of a range is resolved alike. -/
theorem resolveBlockRange_replicates (start last : ℕ) :
    Replicates Eq (resolveBlockRange start last) := by
  refine (getTip_replicates.mapError _).bind_eq fun tip => ?_
  cases tip with
  | none => exact Prog.relates_fail _
  | some tip =>
    refine Prog.Relates.ite (fun _ => Prog.relates_fail _) fun _ => ?_
    exact (liftStatus_replicates _).bind_eq fun _ => Prog.relates_ret rfl

/-- A padded range is streamed alike. -/
theorem streamPadded_replicates
    (hmessages : ∀ b b', b.unclued = b'.unclued → (messages b).map g = (messages b').map g)
    (start last : ℕ) :
    Replicates (SameStream g) (streamPadded takes allowed messages start last) := by
  refine (liftStatus_replicates _).bind_eq fun _ => ?_
  refine (requirePaddedBlockRange_replicates start last).bind_eq fun range => ?_
  exact streamBlocks_replicates hmessages _ rfl rfl

/-- `GetBlockRange` on two servers of one chain. -/
theorem getBlockRange_replicates (start last : ℕ) :
    Replicates (SameStream Proto.CompactBlock.unclued)
      (getBlockRange takes allowed start last) := by
  refine (liftStatus_replicates _).bind_eq fun _ => ?_
  refine (resolveBlockRange_replicates start last).bind_eq fun range => ?_
  refine streamBlocks_replicates (fun b b' h => ?_) _ rfl rfl
  simp [toProto_unclued, h]

/-- A block or `NOT_FOUND` on two servers of one chain. -/
theorem blockOrNotFound_replicates (height : ℕ) :
    Replicates (fun b b' => b.unclued = b'.unclued) (blockOrNotFound height) := by
  refine ((getCompactBlock_replicates height).mapError _).bind fun b b' h => ?_
  rcases b with _ | b <;> rcases b' with _ | b' <;> simp only [Option.map_none, Option.map_some,
    reduceCtorEq, Option.some.injEq] at h
  · exact Prog.relates_fail _
  · exact Prog.relates_ret h

/-- `GetBlock` on two servers of one chain. -/
theorem getBlock_replicates (height : ℕ) :
    Replicates (fun m m' => m.unclued = m'.unclued) (getBlock allowed height) := by
  refine (liftStatus_replicates _).bind_eq fun _ => ?_
  refine (blockOrNotFound_replicates height).bind fun b b' h => Prog.relates_ret ?_
  rw [toProto_unclued, toProto_unclued, h]

/-- Whether neighbours in a sparse reply belong together does not depend on clues. -/
theorem checkAdjacentPairs_same {blocks blocks' : List CompactBlock}
    (h : List.Forall₂ (fun b b' => b.unclued = b'.unclued) blocks blocks') :
    checkAdjacentPairs blocks = checkAdjacentPairs blocks' := by
  induction h with
  | nil => rfl
  | cons hhead htail ih =>
    cases htail with
    | nil => rfl
    | cons hnext hrest =>
      have hunclued : ∀ low high : CompactBlock,
          checkAdjacentPair low high = checkAdjacentPair low.unclued high.unclued :=
        fun _ _ => rfl
      simp only [checkAdjacentPairs, ih]
      rw [hunclued, hhead, hnext, ← hunclued]

/-- `GetCompactBlocksAtHeights` on two servers of one chain. -/
theorem getCompactBlocksAtHeights_replicates (heights : List ℕ) :
    Replicates (SameStream Proto.CompactBlock.unclued)
      (getCompactBlocksAtHeights takes allowed heights) := by
  have hread : Replicates (List.Forall₂ fun b b' => b.unclued = b'.unclued)
      (readSparseBlocks allowed heights) := by
    refine (liftStatus_replicates _).bind_eq fun _ => ?_
    refine Prog.Relates.ite (fun _ => Prog.relates_fail _) fun _ => ?_
    refine Prog.Relates.ite (fun _ => Prog.relates_fail _) fun _ => ?_
    exact Prog.relates_mapEach _ fun height _ => blockOrNotFound_replicates height
  refine (hread.mapError _).bind fun blocks blocks' h => ?_
  rw [checkAdjacentPairs_same h]
  cases checkAdjacentPairs blocks' with
  | error status => exact Prog.relates_fail _
  | ok _ =>
    have hmessages : (blocks.map CompactBlock.toProto).map Proto.CompactBlock.unclued =
        (blocks'.map CompactBlock.toProto).map Proto.CompactBlock.unclued := by
      simp only [List.map_map]
      refine map_eq_map_of_forall₂ (h.imp fun b b' hb => ?_)
      simp only [Function.comp_apply, toProto_unclued, hb]
    obtain ⟨hsame, hall⟩ := @sendStream_same _ _ _ takes [] [] rfl _ _ hmessages
    exact Prog.relates_ret ⟨hsame, by simp only [hall]⟩

/-- Messages without clues are the same ones. -/
theorem streamPadded_replicates_eq (hmessages : ∀ block, messages block = messages block.unclued)
    (start last : ℕ) : Replicates Eq (streamPadded takes allowed messages start last) := by
  have hsame : ∀ b b' : CompactBlock, b.unclued = b'.unclued →
      (messages b).map id = (messages b').map id := by
    intro b b' h
    rw [hmessages b, hmessages b', h]
  refine (streamPadded_replicates hsame start last).mono fun r r' h => ?_
  cases r
  cases r'
  simpa using And.intro h.messages h.ending

/-- The commitments of a block do not depend on its clues. -/
theorem noteCommitmentUpdate_unclued (block : CompactBlock) :
    block.noteCommitmentUpdate = block.unclued.noteCommitmentUpdate := by
  simp [CompactBlock.noteCommitmentUpdate, CompactBlock.unclued, CompactTx.unclued,
    CompactOutput.unclued, List.flatMap_map, Function.comp_def]

/-- The nullifiers of a block do not depend on its clues. -/
theorem nullifierUpdate_unclued (block : CompactBlock) :
    block.nullifierUpdate = block.unclued.nullifierUpdate := by
  simp [CompactBlock.nullifierUpdate, CompactBlock.unclued, CompactTx.unclued, List.flatMap_map]

end Streams

/-! ## Two servers -/

/-- The two caches answer alike: replies without clues are the same, the others are the same but
for clues and metadata. -/
structure SameReplies (s s' : Cache) : Prop where
  treeState : ∀ w height,
    ((getTreeState w height).run s).1 = ((getTreeState w height).run s').1
  checkpointSnapshot : ∀ w allowed preferred,
    ((getCheckpointSnapshot w allowed preferred).run s).1 =
      ((getCheckpointSnapshot w allowed preferred).run s').1
  chainTip : ∀ allowed blockTarget,
    ((getChainTip allowed blockTarget).run s).1 = ((getChainTip allowed blockTarget).run s').1
  daoCalls : ∀ takes allowed start last,
    ((getCompactDaoCalls takes allowed start last).run s).1 =
      ((getCompactDaoCalls takes allowed start last).run s').1
  noteCommitments : ∀ takes allowed start last,
    ((getNoteCommitments takes allowed start last).run s).1 =
      ((getNoteCommitments takes allowed start last).run s').1
  nullifiers : ∀ takes allowed start last,
    ((getNullifiers takes allowed start last).run s).1 =
      ((getNullifiers takes allowed start last).run s').1
  outputBodies : ∀ takes allowed start last,
    SameOutcome (SameStream Proto.CompactOutputBody.unclued)
      ((getCompactOutputBodies takes allowed start last).run s).1
      ((getCompactOutputBodies takes allowed start last).run s').1
  outputsByFunc : ∀ takes allowed start last funcCode,
    SameOutcome (SameStream Proto.CompactOutputBody.unclued)
      ((getCompactOutputsByFunc takes allowed start last funcCode).run s).1
      ((getCompactOutputsByFunc takes allowed start last funcCode).run s').1
  block : ∀ allowed height,
    SameOutcome (fun m m' => m.unclued = m'.unclued)
      ((getBlock allowed height).run s).1 ((getBlock allowed height).run s').1
  blockRange : ∀ takes allowed start last,
    SameOutcome (SameStream Proto.CompactBlock.unclued)
      ((getBlockRange takes allowed start last).run s).1
      ((getBlockRange takes allowed start last).run s').1
  blocksAtHeights : ∀ takes allowed heights,
    SameOutcome (SameStream Proto.CompactBlock.unclued)
      ((getCompactBlocksAtHeights takes allowed heights).run s).1
      ((getCompactBlocksAtHeights takes allowed heights).run s').1

/-- Two servers of one chain reply alike. -/
theorem SameIndex.sameReplies {s s' : Cache} (h : SameIndex s s') : SameReplies s s' where
  treeState w height := (getTreeState_replicates w height).outcome_eq h
  checkpointSnapshot w allowed preferred :=
    (getCheckpointSnapshot_replicates w allowed preferred).outcome_eq h
  chainTip allowed blockTarget := (getChainTip_replicates allowed blockTarget).outcome_eq h
  daoCalls takes allowed start last :=
    (streamPadded_replicates_eq (fun _ => rfl) start last).outcome_eq h
  noteCommitments takes allowed start last :=
    (streamPadded_replicates_eq (fun block => by rw [noteCommitmentUpdate_unclued]) start
      last).outcome_eq h
  nullifiers takes allowed start last :=
    (streamPadded_replicates_eq (fun block => by rw [nullifierUpdate_unclued]) start
      last).outcome_eq h
  outputBodies takes allowed start last :=
    (streamPadded_replicates (fun b b' hb => by
      rw [outputBodies_unclued, outputBodies_unclued, hb]) start last s s' h).1
  outputsByFunc takes allowed start last funcCode :=
    (streamPadded_replicates (fun b b' hb => by
      rw [outputsByFunc_unclued, outputsByFunc_unclued, hb]) start last s s' h).1
  block allowed height := (getBlock_replicates height s s' h).1
  blockRange takes allowed start last := (getBlockRange_replicates start last s s' h).1
  blocksAtHeights takes allowed heights := (getCompactBlocksAtHeights_replicates heights s s' h).1

/-- Two servers whose tips have one height and hash answer alike. -/
theorem replicas_agree {env env' : SendEnv} {dir dir' : AttestEnv} {s s' : Cache}
    (hs : Served env dir s) (hs' : Served env' dir' s')
    (htip : s.db.blocks.readTip = s'.db.blocks.readTip) (hid : HashesIdentifyCached [s, s']) :
    SameReplies s s' := by
  obtain ⟨chain, hstate⟩ := hs.state
  obtain ⟨chain', hstate'⟩ := hs'.state
  exact (SameIndex.of_tip hstate hstate' htip hid).sameReplies

/-- The second chain from the start. -/
def directTurns : List Turn :=
  [⟨.blank, fun _ => 0, .serving forkB⟩, ⟨.blank, fun _ => 0, .serving forkB⟩]

/-- The direct turns are allowed: no reorg, and blocks at the heights asked for. -/
theorem loopAllowed_directTurns : LoopAllowed .default directTurns .initial := by
  have hB : (Node.serving forkB).AtHeights :=
    (Node.serving_serves forkB_remoteChain).atHeights forkB_remoteChain (by simp [forkB])
  have hlow : ∀ (node : Node) (s : Cache), s.nextHeight ≠ u32Max + 1 →
      ¬ RewindsToLastHeight node s := fun node s hne h => hne h.nextHeight
  exact ⟨hB, hlow _ _ (by decide +kernel), Or.inr (by decide +kernel), hB,
    hlow _ _ (by decide +kernel), Or.inr (by decide +kernel), trivial⟩

/-- The server that went through a reorg. -/
def reorgedServer : Cache := (pollLoop .default forkedTurns .start).exec .initial

/-- The server that saw the last chain only. -/
def directServer : Cache := (pollLoop .default directTurns .start).exec .initial

/-- The blocks of the second chain, as they are cached. -/
def forkBlock (h : ℕ) : CompactBlock where
  height := h
  hash := Bytes32.fill ([1, 3, 4].getD h 0)
  prevHash := Bytes32.fill ([0, 1, 3].getD h 0)
  timestamp := 0
  txs := []
  daoCalls := []
  funcEvents := []

/-- The blocks of both servers are the three of the fork. -/
theorem rows_servers : ∀ held ∈ [reorgedServer, directServer],
    ∀ r ∈ held.db.blocks.compactBlocks.rows,
      ∃ block ∈ [forkBlock 0, forkBlock 1, forkBlock 2], r.2 = .value block := by
  decide +kernel

/-- The hashes of those blocks tell them apart. -/
theorem hashesIdentifyCached_servers : HashesIdentifyCached [reorgedServer, directServer] := by
  have hblock : ∀ held ∈ [reorgedServer, directServer], ∀ h block,
      held.blockAt h = some block → block ∈ [forkBlock 0, forkBlock 1, forkBlock 2] := by
    intro held hheld h block hblock
    obtain ⟨b, hb, hvalue⟩ :=
      rows_servers held hheld _ ((OrderedMap.get_eq_some_iff _ _ _).mp (get_of_blockAt hblock))
    cases hvalue
    exact hb
  have hdistinct : ∀ b ∈ [forkBlock 0, forkBlock 1, forkBlock 2],
      ∀ b' ∈ [forkBlock 0, forkBlock 1, forkBlock 2], b.hash = b'.hash → b = b' := by
    decide +kernel
  intro s hs s' hs' h h' block block' hsb hsb' hhash
  rw [hdistinct block (hblock s hs h block hsb) block' (hblock s' hs' h' block' hsb') hhash]

/-- A server that followed a reorg answers like one that did not have to. -/
theorem replicas_agree_reorged : SameReplies reorgedServer directServer := by
  have hstep : ∀ turns, LoopAllowed .default turns .initial →
      Served anySend plainAttest ((pollLoop .default turns .start).exec .initial) :=
    fun turns hturns => ⟨0, .initial, new_initial,
      .single (.polled .default turns .start .initial hturns)⟩
  exact replicas_agree (hstep _ loopAllowed_forkedTurns) (hstep _ loopAllowed_directTurns)
    (by decide +kernel) hashesIdentifyCached_servers

end LightWalletd
