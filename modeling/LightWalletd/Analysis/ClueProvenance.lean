import LightWalletd.Analysis.ChainCommands
import LightWalletd.Analysis.ClueIdempotence
import LightWalletd.Analysis.ClueWire
import LightWalletd.Analysis.RangeStreams
import LightWalletd.Model.SendPeers

/-!
# Where a clue comes from

The poller indexes, rewinds and prunes while clients send transactions and register clues, one
command at a time and in any order. Whatever the order, an output of a cached block has the clue and
the metadata that its block came with, or, where these were empty, some that a request submitted for
this output or, with the largest index, for any output of the transaction.
-/

set_option autoImplicit false

namespace LightWalletd

open Stateful

/-! ## Fields and where they were sent from -/

/-- What was submitted: clues and metadata of a transaction, each with the output that it is for,
and the blocks to index. -/
structure Submissions where
  clue : Bytes32 → Option ℕ × Bytes → Prop
  metadata : Bytes32 → Option ℕ × Bytes → Prop
  block : CompactBlock → Prop

/-- A field of output `i` is as before, or one that was sent for this output or for any. -/
def SentFor (sent : Option ℕ × Bytes → Prop) (i : ℕ) (before after : Bytes) : Prop :=
  after = before ∨ sent (none, after) ∨ sent (some i, after)

/-- A field that did not change was filled from any submissions. -/
theorem SentFor.refl (sent : Option ℕ × Bytes → Prop) (i : ℕ) (field : Bytes) :
    SentFor sent i field field := Or.inl rfl

/-- Two fillings, one after the other, are one. -/
theorem SentFor.trans {sent : Option ℕ × Bytes → Prop} {i : ℕ} {a b c : Bytes}
    (h : SentFor sent i a b) (h' : SentFor sent i b c) : SentFor sent i a c := by
  rcases h' with rfl | h'
  · exact h
  · exact Or.inr h'

/-- Output `i` of a transaction, with empty fields filled from what was submitted for it. -/
structure CompactOutput.FilledFrom (S : Submissions) (txHash : Bytes32) (i : ℕ)
    (o o' : CompactOutput) : Prop where
  filled : o.FilledBy o'
  clue : SentFor (S.clue txHash) i o.omrClue o'.omrClue
  metadata : SentFor (S.metadata txHash) i o.omrMetadataEnc o'.omrMetadataEnc

/-- `tx'` is `tx` with fields of its outputs filled from the submissions for its hash. -/
structure CompactTx.FilledFrom (S : Submissions) (tx tx' : CompactTx) : Prop where
  fields : tx' = { tx with outputs := tx'.outputs }
  length : tx'.outputs.length = tx.outputs.length
  output : ∀ (i : ℕ) (o : CompactOutput), tx.outputs[i]? = some o →
    ∃ o', tx'.outputs[i]? = some o' ∧ o.FilledFrom S tx.txHash i o'

/-- `block'` is `block` with its transactions filled from the submissions. -/
structure CompactBlock.FilledFrom (S : Submissions) (block block' : CompactBlock) : Prop where
  fields : block' = { block with txs := block'.txs }
  txs : List.Forall₂ (CompactTx.FilledFrom S) block.txs block'.txs

/-- A submitted block with fields filled from what was submitted. -/
def Submissions.Fills (S : Submissions) (block' : CompactBlock) : Prop :=
  ∃ block, S.block block ∧ block.FilledFrom S block'

/-- Everything pending was submitted, and every cached block is filled from what was submitted. -/
structure FromSubmissions (S : Submissions) (s : Cache) : Prop where
  clues : s.db.omr.omrClueHints.All fun txHash row => ∀ c ∈ decodeOmrClueHints row, S.clue txHash c
  metadata : s.db.omr.omrMetadataEnc.All fun txHash row =>
    S.metadata txHash (parseStoredOmrClueHint row)
  blocks : s.db.blocks.compactBlocks.All fun _ row =>
    ∀ block', row = .value block' → S.Fills block'

section Order

/-- Everything submitted in one is in the other. -/
structure Submissions.Le (S S' : Submissions) : Prop where
  clue : ∀ txHash c, S.clue txHash c → S'.clue txHash c
  metadata : ∀ txHash c, S.metadata txHash c → S'.metadata txHash c
  block : ∀ block, S.block block → S'.block block

variable {S S' : Submissions}

/-- A field filled from some submissions was filled from more. -/
theorem SentFor.mono {sent sent' : Option ℕ × Bytes → Prop} {i : ℕ} {before after : Bytes}
    (h : SentFor sent i before after) (hle : ∀ c, sent c → sent' c) :
    SentFor sent' i before after :=
  h.imp_right fun hsent => hsent.imp (hle _) (hle _)

/-- A transaction filled from some submissions was filled from more. -/
theorem CompactTx.FilledFrom.mono {tx tx' : CompactTx} (h : tx.FilledFrom S tx')
    (hle : S.Le S') : tx.FilledFrom S' tx' := by
  refine ⟨h.fields, h.length, fun i o ho => ?_⟩
  obtain ⟨o', ho', hfill⟩ := h.output i o ho
  exact ⟨o', ho', hfill.filled, hfill.clue.mono (hle.clue _), hfill.metadata.mono (hle.metadata _)⟩

/-- A block filled from some submissions was filled from more. -/
theorem Submissions.Fills.mono {block : CompactBlock} (h : S.Fills block) (hle : S.Le S') :
    S'.Fills block := by
  obtain ⟨block', hblock, hfields, htxs⟩ := h
  exact ⟨block', hle.block block' hblock, hfields, htxs.imp fun _ _ htx => htx.mono hle⟩

/-- A cache that holds what came from some submissions holds what came from more. -/
theorem FromSubmissions.mono {s : Cache} (h : FromSubmissions S s) (hle : S.Le S') :
    FromSubmissions S' s where
  clues txHash row hrow c hc := hle.clue txHash c (h.clues txHash row hrow c hc)
  metadata txHash row hrow := hle.metadata txHash _ (h.metadata txHash row hrow)
  blocks height row hrow block hblock := (h.blocks height row hrow block hblock).mono hle

end Order

section Filled

variable {S : Submissions} {tx tx' tx'' : CompactTx}

/-- Every transaction is filled from itself. -/
theorem CompactTx.FilledFrom.refl (tx : CompactTx) : tx.FilledFrom S tx :=
  ⟨rfl, rfl, fun _ o ho => ⟨o, ho, .refl o, .refl .., .refl ..⟩⟩

/-- Filling a transaction twice fills it. -/
theorem CompactTx.FilledFrom.trans (h : tx.FilledFrom S tx') (h' : tx'.FilledFrom S tx'') :
    tx.FilledFrom S tx'' := by
  have hhash : tx'.txHash = tx.txHash := by rw [h.fields]
  refine ⟨by rw [h'.fields, h.fields], h'.length.trans h.length, fun i o ho => ?_⟩
  obtain ⟨o', ho', hfill⟩ := h.output i o ho
  obtain ⟨o'', ho'', hfill'⟩ := h'.output i o' ho'
  rw [hhash] at hfill'
  exact ⟨o'', ho'', hfill.filled.trans hfill'.filled, hfill.clue.trans hfill'.clue,
    hfill.metadata.trans hfill'.metadata⟩

/-- Merging clues that were submitted for the transaction. -/
theorem CompactTx.filledFrom_clues {clues : List (Option ℕ × Bytes)}
    (hclues : ∀ c ∈ clues, S.clue tx.txHash c) :
    tx.FilledFrom S { tx with outputs := clues.foldl mergeClue tx.outputs } := by
  have hfill : FilledIn tx.outputs (clues.foldl mergeClue tx.outputs) :=
    settles_mergeClue.foldl_grows clues tx.outputs
  refine ⟨rfl, hfill.length, fun i o ho => ?_⟩
  obtain ⟨o', ho', hby⟩ := hfill.output i o ho
  refine ⟨o', ho', hby, ?_, Or.inl ?_⟩
  · by_cases hsame : o'.omrClue = o.omrClue
    · exact Or.inl hsame
    · obtain ⟨⟨before, idx, after, hsplit, hland⟩, -⟩ :=
        foldl_mergeClue_changed clues ho ho' hsame
      have hsent := hclues (idx, o'.omrClue) (by simp [hsplit])
      obtain rfl | ⟨rfl, -⟩ := hland.named
      · exact Or.inr (Or.inr hsent)
      · exact Or.inr (Or.inl hsent)
  · have hmap := congrArg (·[i]?) (map_metadata_foldl_mergeClue clues tx.outputs)
    simpa [ho, ho'] using hmap

/-- Placing metadata changes no clue, and the metadata of one output only. -/
theorem getElem?_fillMetadataAt {outputs : List CompactOutput} {i k : ℕ} {enc : Bytes}
    {o o' : CompactOutput} (ho : outputs[i]? = some o)
    (ho' : (fillMetadataAt k enc outputs)[i]? = some o') :
    o'.omrClue = o.omrClue ∧
      (o'.omrMetadataEnc = o.omrMetadataEnc ∨ k = i ∧ o'.omrMetadataEnc = enc) := by
  unfold fillMetadataAt at ho'
  rw [List.getElem?_modify, ho] at ho'
  by_cases hk : k = i
  · by_cases hempty : o.omrMetadataEnc = []
    · obtain rfl : { o with omrMetadataEnc := enc } = o' := by simpa [hk, hempty] using ho'
      exact ⟨rfl, Or.inr ⟨hk, rfl⟩⟩
    · obtain rfl : o = o' := by simpa [hk, hempty] using ho'
      exact ⟨rfl, Or.inl rfl⟩
  · obtain rfl : o = o' := by simpa [hk] using ho'
    exact ⟨rfl, Or.inl rfl⟩

/-- Merging metadata that was submitted for the transaction. -/
theorem CompactTx.filledFrom_metadata {stored : Bytes}
    (hstored : S.metadata tx.txHash (parseStoredOmrClueHint stored)) :
    tx.FilledFrom S { tx with outputs := mergeMetadata tx.outputs stored } := by
  have hfill : FilledIn tx.outputs (mergeMetadata tx.outputs stored) :=
    filledIn_withMetadata (some stored) tx
  refine ⟨rfl, hfill.length, fun i o ho => ?_⟩
  obtain ⟨o', ho', hby⟩ := hfill.output i o ho
  suffices hfields : SentFor (S.clue tx.txHash) i o.omrClue o'.omrClue ∧
      SentFor (S.metadata tx.txHash) i o.omrMetadataEnc o'.omrMetadataEnc from
    ⟨o', ho', hby, hfields.1, hfields.2⟩
  unfold mergeMetadata at ho'
  generalize parseStoredOmrClueHint stored = parsed at ho' hstored
  obtain ⟨idx, enc⟩ := parsed
  by_cases hempty : enc = []
  · obtain rfl : o = o' := by simpa [hempty, ho] using ho'
    exact ⟨.refl .., .refl ..⟩
  · cases idx with
    | none =>
      obtain ⟨hclue, hmeta⟩ := getElem?_fillMetadataAt ho (by simpa [hempty] using ho')
      refine ⟨Or.inl hclue, hmeta.imp_right fun hsent => Or.inl ?_⟩
      rwa [hsent.2]
    | some k =>
      obtain ⟨hclue, hmeta⟩ := getElem?_fillMetadataAt ho (by simpa [hempty] using ho')
      refine ⟨Or.inl hclue, hmeta.imp_right fun hsent => Or.inr ?_⟩
      rwa [hsent.2, ← hsent.1]

end Filled

/-! ## Writes beside the clues -/

/-- The trees that clues and metadata pass through. -/
def Cache.attached (s : Cache) :
    OrderedMap Bytes32 Bytes × OrderedMap Bytes32 Bytes × OrderedMap ℕ (Stored CompactBlock) :=
  (s.db.omr.omrClueHints, s.db.omr.omrMetadataEnc, s.db.blocks.compactBlocks)

section Beside

-- an invariant of those trees
variable {I : Cache → Prop} (hI : ∀ s s', s'.attached = s.attached → I s → I s')

/-- The tip, read among others. -/
theorem upholds_getTip : getTip.Upholds I Prog.Any := (chainReads_upholds I).getTip

section Writes

variable {K V : Type} [LinearOrder K] {t : Tree K V} {c : Cell V}

include hI in

/-- A write beside those trees. -/
theorem Tree.upholds_insert
    (ht : ∀ m (s : Cache), ({ s with db := t.upd m s.db } : Cache).attached = s.attached) (k : K)
    (v : V) : (t.insert k v).Upholds I Prog.Any :=
  Prog.upholds_put _ fun s hs => hI s _ (ht _ s) hs

include hI in

/-- A removal beside those trees. -/
theorem Tree.upholds_remove
    (ht : ∀ m (s : Cache), ({ s with db := t.upd m s.db } : Cache).attached = s.attached) (k : K) :
    (t.remove k).Upholds I Prog.Any :=
  Prog.upholds_swap _ _ (fun s hs => hI s _ (ht _ s) hs) fun _ _ => trivial

include hI in

/-- A key written beside those trees. -/
theorem Cell.upholds_insert
    (hc : ∀ v (s : Cache), ({ s with db := c.upd v s.db } : Cache).attached = s.attached) (v : V) :
    (c.insert v).Upholds I Prog.Any :=
  Prog.upholds_put _ fun s hs => hI s _ (hc _ s) hs

include hI in

/-- A key removed beside those trees. -/
theorem Cell.upholds_remove
    (hc : ∀ v (s : Cache), ({ s with db := c.upd v s.db } : Cache).attached = s.attached) :
    c.remove.Upholds I Prog.Any :=
  Prog.upholds_put _ fun s hs => hI s _ (hc _ s) hs

end Writes

include hI in

/-- The programs that uphold such an invariant have the writes of the Money tree. -/
theorem treeCommands_upholds (bound : ℕ) :
    TreeCommands bound fun _ p => p.Upholds I Prog.Any where
  toChainReads := chainReads_upholds I
  insertSnapshot _ _ _ := Tree.upholds_insert hI (fun _ _ => rfl) _ _
  removeSnapshot _ := Tree.upholds_remove hI (fun _ _ => rfl) _
  insertTree _ := Cell.upholds_insert hI (fun _ _ => rfl) _
  removeTree := Cell.upholds_remove hI fun _ _ => rfl
  insertHeight _ := Cell.upholds_insert hI (fun _ _ => rfl) _
  removeHeight := Cell.upholds_remove hI fun _ _ => rfl
  setLive _ := Prog.upholds_update fun s hs => hI s _ rfl hs

end Beside

/-! ## Commands -/

section Commands

variable {S : Submissions}

/-- Only the rows with clues, metadata and blocks count. -/
theorem FromSubmissions.of_attached (s s' : Cache) (h : s'.attached = s.attached)
    (hs : FromSubmissions S s) : FromSubmissions S s' := by
  simp only [Cache.attached, Prod.mk.injEq] at h
  exact ⟨by rw [h.1]; exact hs.clues, by rw [h.2.1]; exact hs.metadata,
    by rw [h.2.2]; exact hs.blocks⟩

/-- The stored clues of a transaction were submitted for it. -/
theorem upholds_getClues (txHash : Bytes32) :
    (omrClueHints.get txHash).Upholds (FromSubmissions S)
      fun row => ∀ c ∈ storedClues row, S.clue txHash c := by
  refine Prog.upholds_get fun s hs => ?_
  change ∀ c ∈ storedClues (s.db.omr.omrClueHints.get txHash), _
  cases hrow : s.db.omr.omrClueHints.get txHash with
  | none => simp [storedClues]
  | some row => exact hs.clues txHash row hrow

/-- A clue row is written where its clues were submitted. -/
theorem upholds_insertClues {txHash : Bytes32} {row : Bytes}
    (hrow : ∀ c ∈ decodeOmrClueHints row, S.clue txHash c) :
    (omrClueHints.insert txHash row).Upholds (FromSubmissions S) Prog.Any :=
  Prog.upholds_put _ fun _ hs => ⟨hs.clues.insert hrow, hs.metadata, hs.blocks⟩

/-- Removing a clue row brings no clue in. -/
theorem upholds_removeClues (txHash : Bytes32) :
    (omrClueHints.remove txHash).Upholds (FromSubmissions S) Prog.Any :=
  Prog.upholds_swap _ _ (fun _ hs => ⟨hs.clues.remove txHash, hs.metadata, hs.blocks⟩)
    fun _ _ => trivial

/-- The stored metadata of a transaction were submitted for it. -/
theorem upholds_getMetadata (txHash : Bytes32) :
    (omrMetadataEnc.get txHash).Upholds (FromSubmissions S)
      fun row => ∀ stored, row = some stored → S.metadata txHash (parseStoredOmrClueHint stored) :=
  Prog.upholds_get fun _ hs => hs.metadata txHash

/-- A metadata row is written where its metadata were submitted. -/
theorem upholds_insertMetadata {txHash : Bytes32} {row : Bytes}
    (hrow : S.metadata txHash (parseStoredOmrClueHint row)) :
    (omrMetadataEnc.insert txHash row).Upholds (FromSubmissions S) Prog.Any :=
  Prog.upholds_put _ fun _ hs => ⟨hs.clues, hs.metadata.insert hrow, hs.blocks⟩

/-- Removing a metadata row brings no metadata in. -/
theorem upholds_removeMetadata (txHash : Bytes32) :
    (omrMetadataEnc.remove txHash).Upholds (FromSubmissions S) Prog.Any :=
  Prog.upholds_swap _ _ (fun _ hs => ⟨hs.clues, hs.metadata.remove txHash, hs.blocks⟩)
    fun _ _ => trivial

/-- A block is written where its fields come from submissions. -/
theorem upholds_insertBlock {block : CompactBlock} (hblock : S.Fills block) (height : ℕ) :
    (compactBlocks.insert height (.value block)).Upholds (FromSubmissions S) Prog.Any := by
  have hrow : ∀ cached, Stored.value block = .value cached → S.Fills cached := by
    rintro cached ⟨⟩
    exact hblock
  exact Prog.upholds_put _ fun _ hs => ⟨hs.clues, hs.metadata, hs.blocks.insert hrow⟩

/-- Removing a block brings nothing in. -/
theorem upholds_removeBlock (height : ℕ) :
    (compactBlocks.remove height).Upholds (FromSubmissions S) Prog.Any :=
  Prog.upholds_swap _ _ (fun _ hs => ⟨hs.clues, hs.metadata, hs.blocks.remove height⟩)
    fun _ _ => trivial

end Commands

/-! ## Merging and indexing -/

section Poller

variable {S : Submissions}

/-- `remove_omr_clue_hint` brings nothing in. -/
theorem upholds_removeOmrClueHint (txHash : Bytes32) :
    (removeOmrClueHint txHash).Upholds (FromSubmissions S) Prog.Any := by
  unfold removeOmrClueHint
  refine (upholds_removeClues txHash).next fun _ => ?_
  refine (Tree.upholds_remove FromSubmissions.of_attached (fun _ _ => rfl) txHash).next fun _ => ?_
  trivial

/-- `drop_omr_clue_hint_if_expired` brings nothing in. -/
theorem upholds_dropOmrClueHintIfExpired (now : ℕ) (txHash : Bytes32) :
    (dropOmrClueHintIfExpired now txHash).Upholds (FromSubmissions S) Prog.Any := by
  unfold dropOmrClueHintIfExpired
  refine Prog.Upholds.next (fun _ _ => trivial) fun row => ?_
  cases row with
  | none => trivial
  | some value => exact .ite ((upholds_removeOmrClueHint txHash).next fun _ => trivial) trivial

/-- `prune_expired_omr_clue_hints` brings nothing in. -/
theorem upholds_pruneExpiredOmrClueHints (now : ℕ) :
    (pruneExpiredOmrClueHints now).Upholds (FromSubmissions S) Prog.Any := by
  have hsweep : (sweepExpiredOmrClueHintsAt now).Upholds (FromSubmissions S) Prog.Any :=
    Prog.Upholds.next (fun _ _ => trivial) fun rows =>
      Prog.upholds_forEach fun txHash _ => upholds_removeOmrClueHint txHash
  have hstamp : ∀ t, (Prog.update fun s : Cache => { s with omrHintSweepUnix := t } :
      CacheM Unit).Upholds (FromSubmissions S) Prog.Any :=
    fun t => Prog.upholds_update fun s hs => .of_attached s _ rfl hs
  unfold pruneExpiredOmrClueHints
  refine Prog.Upholds.next (fun _ _ => trivial) fun prev => .ite trivial ?_
  refine (hstamp now).next fun _ => hsweep.attempt.any.next fun r => ?_
  cases r with
  | ok => trivial
  | error e => exact (hstamp prev).next fun _ => trivial

/-- The pending clues merged into a transaction were submitted for it. -/
theorem upholds_mergeTxClues (now : ℕ) (tx : CompactTx) :
    (mergeTxClues now tx).Upholds (FromSubmissions S) (tx.FilledFrom S) := by
  unfold mergeTxClues
  refine (upholds_dropOmrClueHintIfExpired now tx.txHash).next fun dropped => .ite (.refl tx) ?_
  refine (upholds_getClues tx.txHash).bind fun row hrow => ?_
  cases row with
  | none => exact .refl tx
  | some stored =>
    exact .ite ((upholds_removeOmrClueHint tx.txHash).next fun _ => .refl tx)
      (CompactTx.filledFrom_clues hrow)

/-- The pending metadata merged into a transaction were submitted for it. -/
theorem upholds_mergeTxMetadata (tx : CompactTx) :
    (mergeTxMetadata tx).Upholds (FromSubmissions S) (tx.FilledFrom S) := by
  unfold mergeTxMetadata
  refine (upholds_getMetadata tx.txHash).bind fun row hrow => ?_
  cases row with
  | none => exact .refl tx
  | some stored =>
    exact (upholds_removeMetadata tx.txHash).next fun _ =>
      CompactTx.filledFrom_metadata (hrow stored rfl)

/-- `apply_omr_clue_hints` fills a block from submissions. -/
theorem upholds_applyOmrClueHints (now : ℕ) (block : CompactBlock) :
    (applyOmrClueHints now block).Upholds (FromSubmissions S) (block.FilledFrom S) := by
  unfold applyOmrClueHints
  refine (Prog.upholds_mapEach (P := CompactTx.FilledFrom S) fun tx _ => ?_).bind fun txs htxs =>
    ⟨rfl, htxs⟩
  exact (upholds_mergeTxClues now tx).bind fun tx' htx =>
    (upholds_mergeTxMetadata tx').mono fun _ htx' => htx.trans htx'

/-- The programs that uphold where clues are from have the writes of the chain, those of blocks
that are filled from elsewhere apart. -/
theorem chainCommands_upholds :
    ChainCommands S.Fills fun _ p => p.Upholds (FromSubmissions S) Prog.Any where
  tree := treeCommands_upholds FromSubmissions.of_attached
  storeBlock height _ hblock := upholds_insertBlock hblock height
  removeBlock height := upholds_removeBlock height
  putRows f hf := Prog.upholds_put _ fun s hs => .of_attached s _ (by simp [Cache.attached, hf]) hs
  swapRows old f hf := Prog.upholds_swap _ _
    (fun s hs => .of_attached s _ (by simp [Cache.attached, hf]) hs) fun _ _ => trivial

/-- An insert fills its block from what was submitted. -/
theorem upholds_insertCompactBlock (now : ℕ) {block : CompactBlock} (hblock : S.block block) :
    (insertCompactBlock now block).Upholds (FromSubmissions S) Prog.Any :=
  (upholds_applyOmrClueHints now block).bind fun _ hfill =>
    chainCommands_upholds.insertMergedBlock ⟨block, hblock, hfill⟩

end Poller

/-! ## Requests -/

/-- The output indices of a request are of their width. -/
structure Proto.RawTransaction.OnWire (req : Proto.RawTransaction) : Prop where
  main : req.omrClueOutputIndex ≤ u32Max
  extra : ∀ extra ∈ req.extraOmrClues, extra.outputIndex ≤ u32Max

/-- The valid clues of a request were submitted for the transaction. -/
structure Proto.RawTransaction.RecordedIn (S : Submissions) (env : SendEnv) (txHash : Bytes32)
    (clue : Bytes) (req : Proto.RawTransaction) : Prop where
  main : env.validClue clue = true → S.clue txHash (decodeIndex req.omrClueOutputIndex, clue)
  extra : ∀ extra ∈ req.extraOmrClues, env.validClue extra.omrClue = true →
    S.clue txHash (decodeIndex extra.outputIndex, extra.omrClue)

/-- The metadata of a request was submitted for the transaction. -/
def Proto.RawTransaction.MetadataIn (S : Submissions) (txHash : Bytes32)
    (req : Proto.RawTransaction) : Prop :=
  req.omrMetadataEnc ≠ [] → req.omrMetadataEnc.length ≤ maxOmrMetadataEncBytes →
    S.metadata txHash (decodeIndex req.omrClueOutputIndex, req.omrMetadataEnc)

/-- The hash in darkfid's answer. -/
def Broadcast.answeredTx : Broadcast → Option Bytes32
  | accepted answer => answeredHash (answer.getD [])
  | _ => none

/-- The request is for the transaction, by its bytes or else by the answer to its broadcast, and
has the main clue. -/
def Proto.RawTransaction.Names (env : SendEnv) (broadcast : Broadcast) (txHash : Bytes32)
    (clue : Bytes) (req : Proto.RawTransaction) : Prop :=
  ∃ txData, unwrapRequest env req = .ok (txData, clue) ∧
    (env.txHashOf txData).or broadcast.answeredTx = some txHash

section Clients

variable {S : Submissions} {env : SendEnv} {txHash : Bytes32}

/-- `store_omr_clue_hint` of a submitted clue. -/
theorem upholds_storeOmrClueHint (now : ℕ) {clue : Bytes} {outputIndex : Option ℕ}
    (hfits : FitsEntry (outputIndex, clue))
    (hsent : S.clue txHash (storedEntry (outputIndex, clue))) :
    (storeOmrClueHint now txHash clue outputIndex).Upholds (FromSubmissions S) Prog.Any := by
  unfold storeOmrClueHint
  refine .ite trivial ((upholds_pruneExpiredOmrClueHints now).next fun _ => ?_)
  refine (upholds_dropOmrClueHintIfExpired now txHash).next fun _ => ?_
  refine (upholds_getClues txHash).bind fun row hrow => .ite trivial ?_
  refine (upholds_insertClues fun c hc => ?_).next fun _ =>
    Tree.upholds_insert FromSubmissions.of_attached (fun _ _ => rfl) _ _
  have hread : ∀ c ∈ storedClues row, ReadEntry c := fun c hc =>
    @HintRow.readEntry_clues (row, none) c hc
  rw [decode_encode_append hread hfits] at hc
  rcases List.mem_append.mp hc with hold | hnew
  · exact hrow c hold
  · rwa [List.mem_singleton.mp hnew]

/-- `omr_clue_index_taken` brings nothing in. -/
theorem upholds_omrClueIndexTaken (now outputIndex : ℕ) :
    (omrClueIndexTaken now txHash outputIndex).Upholds (FromSubmissions S) Prog.Any := by
  unfold omrClueIndexTaken
  refine (upholds_pruneExpiredOmrClueHints now).next fun _ => ?_
  refine (upholds_dropOmrClueHintIfExpired now txHash).next fun _ => .ite trivial ?_
  refine (upholds_getClues txHash).any.next fun row => ?_
  cases row <;> trivial

/-- `store_send_clue_hint` of a submitted clue. -/
theorem upholds_storeSendClueHint (now : ℕ) {clue : Bytes} {outputIndex : ℕ}
    (hfits : FitsEntry (some outputIndex, clue))
    (hsent : S.clue txHash (storedEntry (some outputIndex, clue))) :
    (storeSendClueHint now txHash clue outputIndex).Upholds (FromSubmissions S) Prog.Any := by
  have hstore := (upholds_storeOmrClueHint now hfits hsent).attempt.any
  unfold storeSendClueHint
  refine (upholds_omrClueIndexTaken now outputIndex).attempt.any.next fun r => ?_
  rcases r with e | _ | _
  · refine hstore.next fun r => ?_
    cases r <;> trivial
  · refine hstore.next fun r => ?_
    cases r <;> trivial
  · trivial

/-- A valid clue fits its entry: it is far shorter than a length field allows. -/
theorem fitsEntry_of_validClue {clue : Bytes} {i : ℕ} (hclue : env.validClue clue = true)
    (hi : i ≤ u32Max) : FitsEntry (some i, clue) := by
  have hvalid : validateUnifomrClue env.blake3 clue = .ok () := by
    unfold SendEnv.validClue at hclue
    cases hresult : validateUnifomrClue env.blake3 clue with
    | ok u => rfl
    | error e => simp [hresult, Except.isOk, Except.toBool] at hclue
  obtain ⟨-, hsize, -⟩ := inRange_of_validateUnifomrClue hvalid
  refine ⟨fun j hj => ?_, hsize.trans (by decide)⟩
  obtain rfl : i = j := by simpa using hj
  exact hi

/-- The extra clues of a request are stored where they were submitted. -/
theorem upholds_storeExtraClues (now : ℕ) {extras : List Proto.ExtraOmrClue}
    (hwire : ∀ extra ∈ extras, extra.outputIndex ≤ u32Max)
    (hsent : ∀ extra ∈ extras, env.validClue extra.omrClue = true →
      S.clue txHash (decodeIndex extra.outputIndex, extra.omrClue)) :
    (storeExtraClues env now txHash extras).Upholds (FromSubmissions S) Prog.Any := by
  refine Prog.upholds_forEach fun extra hextra => ?_
  by_cases hvalid : env.validClue extra.omrClue = true
  · refine .ite trivial ?_
    exact (upholds_storeSendClueHint now (fitsEntry_of_validClue hvalid (hwire extra hextra))
      (hsent extra hextra hvalid)).next fun _ => trivial
  · simp only [hvalid, Bool.not_false, Bool.or_true, if_true]
    trivial

/-- A metadata row reads as it was written. -/
theorem parseStoredOmrClueHint_row {i : ℕ} (hi : i ≤ u32Max) (enc : Bytes) :
    parseStoredOmrClueHint (leBytes 4 i ++ enc) = (decodeIndex i, enc) := by
  have hfits : i < 256 ^ 4 := lt_of_le_of_lt hi (by decide)
  have htake : (leBytes 4 i ++ enc).take 4 = leBytes 4 i := by simp
  have hdrop : (leBytes 4 i ++ enc).drop 4 = enc := by simp
  unfold parseStoredOmrClueHint
  rw [if_neg (by simp), htake, hdrop, leValue_leBytes_of_lt hfits]

/-- The metadata of a request are stored where they were submitted. -/
theorem upholds_storeSentMetadata {req : Proto.RawTransaction}
    (hwire : req.omrClueOutputIndex ≤ u32Max)
    (hsent : req.MetadataIn S txHash) :
    (storeSentMetadata txHash req).Upholds (FromSubmissions S) Prog.Any := by
  unfold storeSentMetadata
  by_cases hskip : (req.omrMetadataEnc.isEmpty ||
      decide (maxOmrMetadataEncBytes < req.omrMetadataEnc.length)) = true
  · rw [if_pos hskip]
    trivial
  · rw [if_neg hskip]
    simp only [Bool.or_eq_true, List.isEmpty_iff, decide_eq_true_eq, not_or, not_lt] at hskip
    have hstore : (storeOmrMetadataEnc txHash req.omrMetadataEnc
        (some req.omrClueOutputIndex)).Upholds (FromSubmissions S) Prog.Any := by
      refine .ite trivial (.ite trivial (upholds_insertMetadata ?_))
      rw [Option.getD_some, parseStoredOmrClueHint_row hwire]
      exact hsent hskip.1 hskip.2
    have hkeep : (hasOmrMetadataEnc txHash).Upholds (FromSubmissions S) Prog.Any :=
      (upholds_getMetadata txHash).any.next fun _ => trivial
    refine hkeep.attempt.any.next fun r => ?_
    rcases r with e | _ | _
    · exact hstore.attempt.any.next fun _ => trivial
    · exact hstore.attempt.any.next fun _ => trivial
    · trivial

/-- Before the broadcast a request stores its main clue, and leaves it out or as it was. -/
theorem upholds_storeCluesBefore (now : ℕ) {req : Proto.RawTransaction} {hash : Option Bytes32}
    {omrClue : Bytes} (hwire : req.OnWire)
    (hsent : ∀ txHash, hash = some txHash → req.RecordedIn S env txHash omrClue) :
    (storeCluesBefore env now req hash omrClue).Upholds (FromSubmissions S)
      fun r => r.2 = [] ∨ r.2 = omrClue ∧ env.validClue omrClue = true := by
  unfold storeCluesBefore
  by_cases hskip : (omrClue.isEmpty || !env.validClue omrClue) = true
  · rw [if_pos hskip]
    exact Or.inl rfl
  · rw [if_neg hskip]
    have hvalid : env.validClue omrClue = true := by
      by_contra h
      simp [h] at hskip
    cases hash with
    | none => exact Or.inr ⟨rfl, hvalid⟩
    | some txHash =>
      obtain ⟨hmain, hextra⟩ := hsent txHash rfl
      refine (upholds_storeSendClueHint now (fitsEntry_of_validClue hvalid hwire.main)
        (hmain hvalid)).next fun _ => ?_
      exact (upholds_storeExtraClues now hwire.extra hextra).next fun _ => Or.inl rfl

/-- After the broadcast a request stores the clue that is left, the extra ones and the metadata. -/
theorem upholds_storeCluesAfter (later : ℕ) {req : Proto.RawTransaction} {hash : Option Bytes32}
    {accepted : Bool} {omrClue left : Bytes} (hwire : req.OnWire)
    (hleft : left = [] ∨ left = omrClue ∧ env.validClue omrClue = true)
    (hsent : ∀ txHash, hash = some txHash → req.RecordedIn S env txHash omrClue ∧
      req.MetadataIn S txHash) :
    (storeCluesAfter env later req hash accepted left).Upholds (FromSubmissions S) Prog.Any := by
  unfold storeCluesAfter
  cases hash with
  | none => trivial
  | some txHash =>
    obtain ⟨⟨hmain, hextra⟩, hmetadata⟩ := hsent txHash rfl
    have hrest : ∀ accepted, ((storeExtraClues env later txHash req.extraOmrClues) >>= fun _ =>
        storeSentMetadata txHash req >>= fun _ => pure accepted : CacheM Bool).Upholds
        (FromSubmissions S) Prog.Any := fun accepted =>
      (upholds_storeExtraClues later hwire.extra hextra).next fun _ =>
        (upholds_storeSentMetadata hwire.main hmetadata).next fun _ => trivial
    rcases hleft with rfl | ⟨rfl, hvalid⟩
    · exact hrest accepted
    · refine .ite (hrest accepted) ?_
      exact (upholds_storeSendClueHint later (fitsEntry_of_validClue hvalid hwire.main)
        (hmain hvalid)).next hrest

/-- Raising a status brings nothing in. -/
theorem upholds_liftStatus {α : Type} (r : Except Status α) :
    (liftStatus r).Upholds (FromSubmissions S) fun a => r = .ok a := by
  cases r <;> trivial

/-- A registration that passes its checks names a hash and carries a valid clue. -/
theorem checkRegistration_eq_ok {req : Proto.OmrClueRegistration}
    (h : checkRegistration env.blake3 req = .ok txHash) :
    req.txHash = txHash.1 ∧ env.validClue req.omrClue = true := by
  unfold checkRegistration at h
  split_ifs at h with hlen hempty
  cases hvalid : validateUnifomrClue env.blake3 req.omrClue with
  | error e => simp [hvalid] at h
  | ok u =>
    obtain rfl : ⟨req.txHash, hlen⟩ = txHash := by simpa [hvalid] using h
    simp [SendEnv.validClue, hvalid, Except.isOk, Except.toBool]

/-- `SendTransaction` stores what its own request records. -/
theorem upholds_sendTransaction (broadcast : Broadcast) (now later : ℕ)
    {req : Proto.RawTransaction} (hwire : req.OnWire)
    (hclues : ∀ txHash clue, req.Names env broadcast txHash clue → req.RecordedIn S env txHash clue)
    (hmetadata : ∀ answer txHash clue, broadcast = .accepted answer →
      req.Names env broadcast txHash clue → req.MetadataIn S txHash) :
    (sendTransaction env broadcast now later req).Upholds (FromSubmissions S) Prog.Any := by
  unfold sendTransaction
  cases hreq : unwrapRequest env req with
  | error status => trivial
  | ok unwrapped =>
    obtain ⟨txData, omrClue⟩ := unwrapped
    have hbefore : ∀ txHash, env.txHashOf txData = some txHash →
        req.RecordedIn S env txHash omrClue := fun txHash hhash =>
      hclues txHash omrClue ⟨txData, hreq, by simp [hhash]⟩
    refine ((upholds_storeCluesBefore now hwire hbefore).mapError cacheStatus).bind ?_
    rintro ⟨accepted, left⟩ hleft
    cases broadcast with
    | accepted answer =>
      refine Prog.Upholds.next (Prog.Upholds.mapError ?_ cacheStatus) fun _ => trivial
      refine upholds_storeCluesAfter later hwire hleft fun txHash hhash => ?_
      have hnames : req.Names env (.accepted answer) txHash omrClue := ⟨txData, hreq, hhash⟩
      exact ⟨hclues txHash omrClue hnames, hmetadata answer txHash omrClue rfl hnames⟩
    | failed =>
      cases accepted with
      | false => trivial
      | true =>
        cases hhash : env.txHashOf txData with
        | none => trivial
        | some txHash =>
          exact (((upholds_removeOmrClueHint txHash).attempt.any).mapError cacheStatus).next
            fun _ => trivial
    | timedOut => trivial

/-- `RegisterOmrClue` stores what its own request records, if it gets that far. -/
theorem upholds_registerOmrClue {allowed : Bool} {bound : Bytes32 → Bool} (now : ℕ)
    {req : Proto.OmrClueRegistration} (hwire : req.omrClueOutputIndex ≤ u32Max)
    (hclue : ∀ txHash : Bytes32, allowed = true → req.txHash = txHash.1 → bound txHash = true →
      env.validClue req.omrClue = true →
      S.clue txHash (decodeIndex req.omrClueOutputIndex, req.omrClue)) :
    (registerOmrClue env.blake3 allowed bound now req).Upholds (FromSubmissions S) Prog.Any := by
  unfold registerOmrClue
  refine (upholds_liftStatus _).bind fun _ hlimit => ?_
  refine (upholds_liftStatus _).bind fun txHash hcheck => ?_
  have hallowed : allowed = true := by
    by_contra h
    simp [checkClueRateLimit, h] at hlimit
  obtain ⟨hhash, hvalid⟩ := checkRegistration_eq_ok hcheck
  by_cases hbound : bound txHash = true
  · rw [if_pos hbound]
    have hstore : (storeOmrClueHint now txHash req.omrClue
        (some req.omrClueOutputIndex)).Upholds (FromSubmissions S) Prog.Any :=
      upholds_storeOmrClueHint now (fitsEntry_of_validClue hvalid hwire)
        (hclue txHash hallowed hhash hbound hvalid)
    unfold storeRegisteredClue
    refine Prog.Upholds.next ((upholds_omrClueIndexTaken now _).attempt.any.mapError _)
      fun r => ?_
    rcases r with e | _ | _
    · exact hstore.mapError _
    · exact hstore.mapError _
    · trivial
  · rw [if_neg hbound]
    trivial

end Clients

/-! ## Streams -/

section Streams

variable {S : Submissions} {T : Type} {messages : CompactBlock → List T}

/-- A served block was filled from submissions. -/
theorem upholds_getCompactBlock_fills (height : ℕ) :
    (getCompactBlock height).Upholds (FromSubmissions S) fun r => ∀ block, r = some block →
      S.Fills block := by
  unfold getCompactBlock
  refine Prog.Upholds.bind (Q := fun row => ∀ block, row = some (.value block) → S.Fills block)
    (Prog.upholds_get fun s hs block hget => hs.blocks height _ hget block rfl) fun row hrow => ?_
  rcases row with _ | block | bytes
  · exact nofun
  · rintro _ ⟨⟩
    exact hrow block rfl
  · trivial

/-- The messages of a stream are those of blocks filled from submissions. -/
theorem upholds_streamBlocks (takes : ℕ → Bool) (start : ℕ) (heights : List ℕ)
    (prev : Option CompactBlock) {sent : List T}
    (hsent : ∀ m ∈ sent, ∃ block, S.Fills block ∧ m ∈ messages block) :
    (streamBlocks takes messages start heights prev sent).Upholds (FromSubmissions S)
      fun r => ∀ m ∈ r.messages, ∃ block, S.Fills block ∧ m ∈ messages block := by
  induction heights generalizing prev sent with
  | nil => exact hsent
  | cons height heights ih =>
    unfold streamBlocks
    refine ((upholds_getCompactBlock_fills height).attempt.mapError cacheStatus).bind fun r hr => ?_
    rcases r with e | _ | block
    · exact hsent
    · exact hsent
    · cases hcontinues : continuesStream start prev block with
      | error status => simpa [hcontinues, endStream, Prog.Upholds] using hsent
      | ok u =>
        obtain ⟨taken, htaken, hpre, -⟩ := @sendStream_eq T takes sent (messages block)
        have hsent' : ∀ m ∈ (sendStream takes sent (messages block)).1,
            ∃ block, S.Fills block ∧ m ∈ messages block := by
          intro m hm
          rw [htaken] at hm
          rcases List.mem_append.mp hm with hold | hnew
          · exact hsent m hold
          · exact ⟨block, hr _ rfl block rfl, hpre.subset hnew⟩
        simp only [hcontinues]
        generalize sendStream takes sent (messages block) = sentNow at hsent' ⊢
        rcases sentNow with ⟨sent', _ | _⟩
        · exact hsent'
        · exact ih (some block) hsent'

/-- Resolving the end of a range brings nothing in. -/
theorem upholds_resolveBlockRange (start last : ℕ) :
    (resolveBlockRange start last).Upholds (FromSubmissions S) Prog.Any := by
  unfold resolveBlockRange
  refine (upholds_getTip.mapError cacheStatus).next fun tip => ?_
  cases tip with
  | none => trivial
  | some tip => exact .ite trivial ((upholds_liftStatus _).any.next fun _ => trivial)

/-- Checking a range brings nothing in. -/
theorem upholds_requirePaddedBlockRange (start last : ℕ) :
    (requirePaddedBlockRange start last).Upholds (FromSubmissions S) Prog.Any := by
  unfold requirePaddedBlockRange
  refine (upholds_getTip.mapError cacheStatus).next fun tip => ?_
  cases tip with
  | none => trivial
  | some tip =>
    obtain ⟨height, hash⟩ := tip
    simp only []
    rcases paddedRangeRejection start last height maxBlocksPerRequest with _ | _ | reason <;>
      trivial

/-- `GetBlockRange` sends blocks filled from submissions. -/
theorem upholds_getBlockRange (takes : ℕ → Bool) (allowed : Bool) (start last : ℕ) :
    (getBlockRange takes allowed start last).Upholds (FromSubmissions S)
      fun r => ∀ m ∈ r.messages, ∃ block, S.Fills block ∧ m = block.toProto := by
  unfold getBlockRange
  refine (upholds_liftStatus _).any.next fun _ => (upholds_resolveBlockRange start last).next ?_
  rintro ⟨start, last⟩
  exact (upholds_streamBlocks takes start _ none (by simp)).mono fun r hr m hm => by
    simpa using hr m hm

/-- `GetCompactOutputBodies` sends the outputs of blocks filled from submissions. -/
theorem upholds_getCompactOutputBodies (takes : ℕ → Bool) (allowed : Bool) (start last : ℕ) :
    (getCompactOutputBodies takes allowed start last).Upholds (FromSubmissions S)
      fun r => ∀ m ∈ r.messages, ∃ block, S.Fills block ∧ m ∈ block.outputBodies := by
  unfold getCompactOutputBodies streamPadded
  refine (upholds_liftStatus _).any.next fun _ =>
    (upholds_requirePaddedBlockRange start last).next ?_
  rintro ⟨start, last⟩
  exact upholds_streamBlocks takes start _ none (by simp)

end Streams

/-! ## The server at work -/

/-- What a client gets. -/
inductive Reply
  | done
  | blocks (messages : List Proto.CompactBlock)
  | outputs (messages : List Proto.CompactOutputBody)

/-- Everything in the reply is of blocks filled from what was submitted. -/
def Reply.FilledFrom (S : Submissions) : Reply → Prop
  | done => True
  | blocks messages => ∀ m ∈ messages, ∃ block, S.Fills block ∧ m = block.toProto
  | outputs messages => ∀ m ∈ messages, ∃ block, S.Fills block ∧ m ∈ block.outputBodies

/-- What writes clues, metadata and blocks, and what serves them. -/
inductive Activity
  | index (now : ℕ) (block : CompactBlock)
  | rewind (height : ℕ)
  | prune (retentionWindow : ℕ)
  | send (broadcast : Broadcast) (now later : ℕ) (req : Proto.RawTransaction)
  | register (allowed : Bool) (bound : Bytes32 → Bool) (now : ℕ) (req : Proto.OmrClueRegistration)
  | serveBlocks (takes : ℕ → Bool) (allowed : Bool) (start last : ℕ)
  | serveOutputs (takes : ℕ → Bool) (allowed : Bool) (start last : ℕ)

namespace Activity

/-- The program of an activity: a poller call or a request. -/
def prog (env : SendEnv) : Activity → Handler Reply
  | index now block => do
    (insertCompactBlock now block).mapError cacheStatus
    pure .done
  | rewind height => do
    (rewindToHeight height).mapError cacheStatus
    pure .done
  | prune retentionWindow => do
    let _ ← (pruneWithRetention retentionWindow).mapError cacheStatus
    pure .done
  | send broadcast now later req => do
    let _ ← sendTransaction env broadcast now later req
    pure .done
  | register allowed bound now req => do
    registerOmrClue env.blake3 allowed bound now req
    pure .done
  | serveBlocks takes allowed start last => do
    let r ← getBlockRange takes allowed start last
    pure (.blocks r.messages)
  | serveOutputs takes allowed start last => do
    let r ← getCompactOutputBodies takes allowed start last
    pure (.outputs r.messages)

/-- The output indices of a request are of their width. -/
def OnWire : Activity → Prop
  | send _ _ _ req => req.OnWire
  | register _ _ _ req => req.omrClueOutputIndex ≤ u32Max
  | _ => True

/-- The clues that a request submits for a transaction, each valid and with the output it is for. -/
inductive SubmitsClue (env : SendEnv) (txHash : Bytes32) : Activity → ℕ × Bytes → Prop
  | main {broadcast : Broadcast} {now later : ℕ} {req : Proto.RawTransaction} {clue : Bytes}
      (names : req.Names env broadcast txHash clue) (valid : env.validClue clue = true) :
      SubmitsClue env txHash (send broadcast now later req) (req.omrClueOutputIndex, clue)
  | extra {broadcast : Broadcast} {now later : ℕ} {req : Proto.RawTransaction} {clue : Bytes}
      {extra : Proto.ExtraOmrClue} (names : req.Names env broadcast txHash clue)
      (mem : extra ∈ req.extraOmrClues) (valid : env.validClue extra.omrClue = true) :
      SubmitsClue env txHash (send broadcast now later req) (extra.outputIndex, extra.omrClue)
  | registered {bound : Bytes32 → Bool} {now : ℕ} {req : Proto.OmrClueRegistration}
      (hash : req.txHash = txHash.1) (sender : bound txHash = true)
      (valid : env.validClue req.omrClue = true) :
      SubmitsClue env txHash (register true bound now req) (req.omrClueOutputIndex, req.omrClue)

/-- The metadata that a request submits for a transaction that darkfid accepts. -/
inductive SubmitsMetadata (env : SendEnv) (txHash : Bytes32) : Activity → ℕ × Bytes → Prop
  | intro {answer : Option Bytes} {now later : ℕ} {req : Proto.RawTransaction} {clue : Bytes}
      (names : req.Names env (.accepted answer) txHash clue) (nonempty : req.omrMetadataEnc ≠ [])
      (size : req.omrMetadataEnc.length ≤ maxOmrMetadataEncBytes) :
      SubmitsMetadata env txHash (send (.accepted answer) now later req)
        (req.omrClueOutputIndex, req.omrMetadataEnc)

end Activity

/-- What was submitted before, with what the activities submit. -/
def Submissions.after {ι : Type} (env : SendEnv) (acts : ι → Activity) (prior : Submissions) :
    Submissions where
  clue txHash c := prior.clue txHash c ∨ ∃ i idx, (acts i).SubmitsClue env txHash (idx, c.2) ∧
    c.1 = decodeIndex idx
  metadata txHash c := prior.metadata txHash c ∨
    ∃ i idx, (acts i).SubmitsMetadata env txHash (idx, c.2) ∧ c.1 = decodeIndex idx
  block block := prior.block block ∨ ∃ i now, acts i = .index now block

section Work

variable {ι : Type} {env : SendEnv} {acts : ι → Activity} {prior : Submissions}

/-- What was submitted before stays submitted. -/
theorem Submissions.le_after : prior.Le (prior.after env acts) :=
  ⟨fun _ _ => Or.inl, fun _ _ => Or.inl, fun _ => Or.inl⟩

/-- What one activity does, whatever the others do between its commands. -/
theorem Activity.upholds {i : ι} {act : Activity} (hact : acts i = act) (hwire : act.OnWire) :
    (act.prog env).Upholds (FromSubmissions (prior.after env acts))
      (Reply.FilledFrom (prior.after env acts)) := by
  have hclue : ∀ {txHash idx clue}, act.SubmitsClue env txHash (idx, clue) →
      (prior.after env acts).clue txHash (decodeIndex idx, clue) :=
    fun h => Or.inr ⟨i, _, hact ▸ h, rfl⟩
  cases act with
  | index now block =>
    have hblock : (prior.after env acts).block block := Or.inr ⟨i, now, hact⟩
    exact ((upholds_insertCompactBlock now hblock).mapError cacheStatus).next fun _ => trivial
  | rewind height =>
    exact ((chainCommands_upholds.rewindToHeight height).mapError cacheStatus).next fun _ => trivial
  | prune window =>
    exact ((chainCommands_upholds.pruneWithRetention window).mapError cacheStatus).next fun _ => trivial
  | send broadcast now later req =>
    refine (upholds_sendTransaction broadcast now later hwire (fun txHash clue hnames => ?_)
      fun answer txHash clue hbroadcast hnames => ?_).next fun _ => trivial
    · exact ⟨fun hvalid => hclue (.main hnames hvalid),
        fun extra hextra hvalid => hclue (.extra hnames hextra hvalid)⟩
    · subst hbroadcast
      exact fun hne hsize => Or.inr ⟨i, _, hact ▸ .intro hnames hne hsize, rfl⟩
  | register allowed bound now req =>
    refine (upholds_registerOmrClue now hwire fun txHash hallowed hhash hbound hvalid => ?_).next
      fun _ => trivial
    subst hallowed
    exact hclue (.registered hhash hbound hvalid)
  | serveBlocks takes allowed start last =>
    exact (upholds_getBlockRange takes allowed start last).bind fun r hr => hr
  | serveOutputs takes allowed start last =>
    exact (upholds_getCompactOutputBodies takes allowed start last).bind fun r hr => hr

/-- Whatever the order of their commands, the activities leave in the cache, and send to clients,
only clues, metadata and blocks that were submitted, each where it was submitted for. -/
theorem clue_provenance [DecidableEq ι] (hwire : ∀ i, (acts i).OnWire) {s : Cache}
    (hs : FromSubmissions prior s) (schedule : List ι) :
    FromSubmissions (prior.after env acts)
        ((Pool.start (fun i => (acts i).prog env) s).runs schedule).state ∧
      ∀ i r, (((Pool.start (fun i => (acts i).prog env) s).runs schedule).progs i).outcome? =
        some (.ok r) → r.FilledFrom (prior.after env acts) := by
  have hstart : FromSubmissions (prior.after env acts)
      (Pool.start (fun i => (acts i).prog env) s).state := hs.mono Submissions.le_after
  obtain ⟨hstate, hprogs⟩ :=
    Pool.upholds hstart (fun i => Activity.upholds rfl (hwire i)) schedule
  refine ⟨hstate, fun i r hr => ?_⟩
  have hdone := hprogs i
  rwa [Prog.eq_ended hr] at hdone

end Work

/-- An empty cache holds nothing. -/
theorem fromSubmissions_initial (S : Submissions) : FromSubmissions S Cache.initial := by
  refine ⟨?_, ?_, ?_⟩
  · exact OrderedMap.all_empty _
  · exact OrderedMap.all_empty _
  · exact OrderedMap.all_empty _

/-- Every transaction has the hash of the sample block's. -/
def oneHashEnv : SendEnv := ⟨1000, fun _ => some (.fill 7), fun _ => .fill 0⟩

/-- A valid clue. -/
def sentClue : Bytes := serializeClue oneHashEnv.blake3 zeroCiphertext

/-- A send with a clue and metadata beside the insert of its block. -/
def sentAndIndexed : Bool → Activity
  | true => .send (.accepted none) 100 100 ⟨[1], sentClue, [9], 0, []⟩
  | false => .index 100 (.sample 0 7 [1] [])

/-- The send and the insert take turns, and the clue and the metadata go to the block. -/
theorem clue_provenance_two :
    let pool := (Pool.start (fun i => (sentAndIndexed i).prog oneHashEnv) Cache.initial).runs
      ((List.replicate 40 [true, true, true, true, true, false]).flatten)
    (FromSubmissions (Submissions.after oneHashEnv sentAndIndexed ⟨fun _ _ => False,
        fun _ _ => False, fun _ => False⟩) pool.state ∧
      ∀ i r, (pool.progs i).outcome? = some (.ok r) → r.FilledFrom (Submissions.after oneHashEnv
        sentAndIndexed ⟨fun _ _ => False, fun _ _ => False, fun _ => False⟩)) ∧
    (pool.state.blockAt 0).map (fun block => block.txs.flatMap fun tx =>
      tx.outputs.map fun o => (o.omrClue.length, o.omrMetadataEnc)) =
        some [(sentClue.length, [9])] := by
  refine ⟨clue_provenance ?_ (fromSubmissions_initial _) _, by decide +kernel⟩
  rintro (_ | _)
  · trivial
  · exact ⟨by decide, by simp⟩

end LightWalletd
