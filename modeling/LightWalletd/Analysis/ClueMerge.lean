import LightWalletd.Analysis.BlockRows
import LightWalletd.Analysis.ClueRows

/-!
# What a merge stores

The block that an insert stores is a function of the clue rows and the metadata rows before it.
A merge leaves clue rows with the effect they had and uses up the metadata rows of the block's
transactions; inserts and rewinds change nothing else in the clue trees.
-/

set_option autoImplicit false

namespace LightWalletd

open Stateful

/-! ## Merging as a function -/

/-- A transaction with the clues of a row. -/
def CompactTx.withClues (row : HintRow) (tx : CompactTx) : CompactTx :=
  { tx with outputs := row.clues.foldl mergeClue tx.outputs }

/-- A transaction with the metadata of a row. -/
def CompactTx.withMetadata (row : Option Bytes) (tx : CompactTx) : CompactTx :=
  match row with
  | none => tx
  | some stored => { tx with outputs := mergeMetadata tx.outputs stored }

/-- The transactions of a block after the merge: a metadata row serves the first transaction
with its hash. -/
def mergedTxs (hints : Bytes32 → HintRow) :
    (Bytes32 → Option Bytes) → List CompactTx → List CompactTx
  | _, [] => []
  | metadata, tx :: txs =>
    (tx.withClues (hints tx.txHash)).withMetadata (metadata tx.txHash) ::
      mergedTxs hints (Function.update metadata tx.txHash none) txs

/-- The metadata row of a transaction hash. -/
def Cache.metadataRow (s : Cache) (txHash : Bytes32) : Option Bytes :=
  s.db.omr.omrMetadataEnc.get txHash

/-- Empty clues change nothing. -/
theorem foldl_mergeClue_of_empty {clues : List (Option ℕ × Bytes)}
    (h : (clues.all fun c => c.2.isEmpty) = true) (outputs : List CompactOutput) :
    clues.foldl mergeClue outputs = outputs := by
  induction clues with
  | nil => rfl
  | cons c clues ih =>
    rw [List.all_cons, Bool.and_eq_true] at h
    obtain ⟨idx, clue⟩ := c
    have hc : mergeClue outputs (idx, clue) = outputs := by
      unfold mergeClue
      simp only [h.1, Bool.true_or, if_true]
    rw [List.foldl_cons, hc, ih h.2]

/-- A row of empty clues changes nothing. -/
theorem withClues_of_empty {row : HintRow} (h : (row.clues.all fun c => c.2.isEmpty) = true)
    (tx : CompactTx) : tx.withClues row = tx := by
  unfold CompactTx.withClues
  rw [foldl_mergeClue_of_empty h]

/-- No row changes nothing. -/
@[simp] theorem withClues_none (tx : CompactTx) : tx.withClues (none, none) = tx := rfl

/-- Each row of `s` is kept, or removed when it has nothing to merge at `now`. -/
def SameMerges (now : ℕ) (s s' : Cache) : Prop :=
  ∀ txHash, s'.hintRow txHash = s.hintRow txHash ∨ s'.hintRow txHash = (none, none) ∧
    ∀ tx : CompactTx, tx.withClues ((s.hintRow txHash).live now) = tx

section SameMerges

variable {now : ℕ} {s s₁ s' : Cache}

/-- A cache merges as itself. -/
theorem SameMerges.refl (now : ℕ) (s : Cache) : SameMerges now s s := fun _ => Or.inl rfl

/-- Only the rows of the clues count. -/
theorem SameMerges.of_omr (now : ℕ) (h : s'.db.omr = s.db.omr) : SameMerges now s s' := by
  intro txHash
  unfold Cache.hintRow
  rw [h]
  exact Or.inl rfl

/-- Two such steps are one. -/
theorem SameMerges.trans (h : SameMerges now s s₁) (h' : SameMerges now s₁ s') :
    SameMerges now s s' := by
  intro txHash
  rcases h' txHash with hkept | ⟨hnone, hidle⟩
  · rw [hkept]
    exact h txHash
  · rcases h txHash with hkept | ⟨-, hidle'⟩
    · rw [hkept] at hidle
      exact Or.inr ⟨hnone, hidle⟩
    · exact Or.inr ⟨hnone, hidle'⟩

/-- A transaction is merged alike. -/
theorem SameMerges.withClues (h : SameMerges now s s') (txHash : Bytes32) (tx : CompactTx) :
    tx.withClues ((s'.hintRow txHash).live now) = tx.withClues ((s.hintRow txHash).live now) := by
  rcases h txHash with hkept | ⟨hnone, hidle⟩
  · rw [hkept]
  · rw [hnone, hidle]
    rfl

/-- A row that is fresh at `later` merges at `later` as before. -/
theorem SameMerges.withClues_later (h : SameMerges now s s') {later : ℕ} {txHash : Bytes32}
    (hnow : (s.hintRow txHash).Fresh now) (hlater : (s.hintRow txHash).Fresh later)
    (tx : CompactTx) :
    tx.withClues ((s'.hintRow txHash).live later) = tx.withClues (s.hintRow txHash) := by
  rcases h txHash with hkept | ⟨hnone, hidle⟩
  · rw [hkept, hlater.live]
  · rw [hnow.live] at hidle
    rw [hnone, hidle]
    rfl

/-- A row that is fresh stays fresh. -/
theorem SameMerges.fresh (h : SameMerges now s s') {later : ℕ} {txHash : Bytes32}
    (hfresh : (s.hintRow txHash).Fresh later) : (s'.hintRow txHash).Fresh later := by
  rcases h txHash with hkept | ⟨hnone, -⟩
  · rwa [hkept]
  · rw [hnone]
    exact HintRow.fresh_none later

/-- No clue is added. -/
theorem SameMerges.clues_subset (h : SameMerges now s s') (txHash : Bytes32) :
    (s'.hintRow txHash).clues ⊆ (s.hintRow txHash).clues := by
  rcases h txHash with hkept | ⟨hnone, -⟩
  · rw [hkept]
    exact List.Subset.refl _
  · rw [hnone]
    exact List.nil_subset _

end SameMerges

/-- Rows that merge alike give the same transactions. -/
theorem mergedTxs_congr {hints hints' : Bytes32 → HintRow}
    (h : ∀ txHash (tx : CompactTx), tx.withClues (hints' txHash) = tx.withClues (hints txHash))
    (metadata : Bytes32 → Option Bytes) (txs : List CompactTx) :
    mergedTxs hints' metadata txs = mergedTxs hints metadata txs := by
  induction txs generalizing metadata with
  | nil => rfl
  | cons tx txs ih => rw [mergedTxs, mergedTxs, h, ih]

/-- Without metadata rows every transaction gets its clues only. -/
theorem mergedTxs_of_none {hints : Bytes32 → HintRow} {metadata : Bytes32 → Option Bytes}
    {txs : List CompactTx} (h : ∀ tx ∈ txs, metadata tx.txHash = none) :
    mergedTxs hints metadata txs = txs.map fun tx => tx.withClues (hints tx.txHash) := by
  induction txs generalizing metadata with
  | nil => rfl
  | cons tx txs ih =>
    rw [mergedTxs, h tx (List.mem_cons_self ..), List.map_cons, ih]
    · rfl
    · intro tx' htx'
      by_cases heq : tx'.txHash = tx.txHash
      · simp [heq]
      · simp [heq, h tx' (List.mem_cons_of_mem _ htx')]

/-! ## Runs -/

/-- The clue half: the clues of the row, unless it has expired; an expired row is dropped. -/
theorem mergeTxClues_run_eq (now : ℕ) (tx : CompactTx) (s : Cache) :
    ∃ s', (mergeTxClues now tx).run s =
        (.ok (tx.withClues ((s.hintRow tx.txHash).live now)), s') ∧
      SameMerges now s s' ∧ s'.metadataRow = s.metadataRow ∧
      (s'.hintRow tx.txHash).Fresh now := by
  have hdropped : (∀ tx' : CompactTx, tx'.withClues ((s.hintRow tx.txHash).live now) = tx') →
      SameMerges now s (s.dropHints [tx.txHash]) := by
    intro hidle txHash
    rw [dropHints_hintRow]
    by_cases heq : txHash ∈ [tx.txHash]
    · rw [if_pos heq]
      rw [List.mem_singleton] at heq
      subst heq
      exact Or.inr ⟨rfl, hidle⟩
    · rw [if_neg heq]
      exact Or.inl rfl
  have hgone : ((s.dropHints [tx.txHash]).hintRow tx.txHash).Fresh now := by
    rw [dropHints_hintRow, if_pos (List.mem_singleton_self _)]
    exact HintRow.fresh_none now
  unfold mergeTxClues
  by_cases hexpired : (s.hintRow tx.txHash).Fresh now
  · rw [Prog.bind_eq, Prog.run_bind_of_ok (dropOmrClueHintIfExpired_run_of_fresh hexpired),
      if_neg (by simp), Prog.bind_eq, Prog.run_bind_of_ok (Tree.run_get _ _ _), hexpired.live]
    cases hrow : (omrClueHints.sel s.db).get tx.txHash with
    | none =>
      have hempty : (s.hintRow tx.txHash).clues = [] := congrArg storedClues hrow
      refine ⟨s, ?_, .refl now s, rfl, hexpired⟩
      rw [withClues_of_empty (by rw [hempty]; rfl)]
      rfl
    | some stored =>
      have hclues : (s.hintRow tx.txHash).clues = decodeOmrClueHints stored :=
        congrArg storedClues hrow
      by_cases hall : ((decodeOmrClueHints stored).all fun c => c.2.isEmpty) = true
      · -- a row without clues is removed
        have hidle : ∀ tx' : CompactTx, tx'.withClues (s.hintRow tx.txHash) = tx' :=
          withClues_of_empty (by rw [hclues, hall])
        refine ⟨s.dropHints [tx.txHash], ?_, hdropped (by rwa [hexpired.live]),
          rfl, hgone⟩
        rw [hidle]
        simp only [hall, if_true]
        rfl
      · refine ⟨s, ?_, .refl now s, rfl, hexpired⟩
        simp only [hall, Bool.false_eq_true, if_false, CompactTx.withClues, hclues]
        rfl
  · have hlive := HintRow.live_of_not_fresh hexpired
    rw [Prog.bind_eq, Prog.run_bind_of_ok (dropOmrClueHintIfExpired_run_of_not_fresh hexpired),
      if_pos rfl, hlive]
    exact ⟨_, rfl, hdropped fun _ => by rw [hlive]; rfl, rfl, hgone⟩

/-- `merge_tx_metadata` places the metadata and removes their row. -/
theorem mergeTxMetadata_run_eq (tx : CompactTx) (s : Cache) :
    ∃ s', (mergeTxMetadata tx).run s = (.ok (tx.withMetadata (s.metadataRow tx.txHash)), s') ∧
      s'.hintRow = s.hintRow ∧
      s'.metadataRow = Function.update s.metadataRow tx.txHash none := by
  unfold mergeTxMetadata
  rw [Prog.bind_eq, Prog.run_bind_of_ok (Tree.run_get _ _ _)]
  cases hrow : (omrMetadataEnc.sel s.db).get tx.txHash with
  | none =>
    have hnone : s.metadataRow tx.txHash = none := hrow
    refine ⟨s, by rw [hnone]; rfl, rfl, ?_⟩
    rw [← hnone, Function.update_eq_self]
  | some stored =>
    have hsome : s.metadataRow tx.txHash = some stored := hrow
    refine ⟨(omrMetadataEnc.remove tx.txHash).exec s, by rw [hsome]; rfl, rfl, ?_⟩
    funext txHash
    show (s.db.omr.omrMetadataEnc.remove tx.txHash).get txHash = _
    by_cases heq : txHash = tx.txHash
    · simp [heq]
    · simp only [OrderedMap.get_remove, Function.update_apply, heq, if_false]
      rfl

/-- The rows as a merge at `now` sees them. -/
def Cache.liveRow (s : Cache) (now : ℕ) (txHash : Bytes32) : HintRow := (s.hintRow txHash).live now

/-- The merge of a block. -/
theorem applyOmrClueHints_run_eq (now : ℕ) (block : CompactBlock) (s : Cache) :
    ∃ s', (applyOmrClueHints now block).run s =
        (.ok { block with txs := mergedTxs (s.liveRow now) s.metadataRow block.txs }, s') ∧
      SameMerges now s s' ∧
      (∀ txHash, s'.metadataRow txHash =
        if txHash ∈ block.txs.map CompactTx.txHash then none else s.metadataRow txHash) ∧
      ∀ tx ∈ block.txs, (s'.hintRow tx.txHash).Fresh now := by
  have hmap : ∀ (txs : List CompactTx) (s : Cache), ∃ s',
      (Prog.mapEach (fun tx => (mergeTxClues now tx).bind mergeTxMetadata) txs).run s =
        (.ok (mergedTxs (s.liveRow now) s.metadataRow txs), s') ∧ SameMerges now s s' ∧
      (∀ txHash, s'.metadataRow txHash =
        if txHash ∈ txs.map CompactTx.txHash then none else s.metadataRow txHash) ∧
      ∀ tx ∈ txs, (s'.hintRow tx.txHash).Fresh now := by
    intro txs
    induction txs with
    | nil => exact fun s => ⟨s, rfl, .refl now s, fun _ => by simp, fun _ => nofun⟩
    | cons tx txs ih =>
      intro s
      obtain ⟨s₁, hrun₁, hsame₁, hmeta₁, hfresh₁⟩ := mergeTxClues_run_eq now tx s
      obtain ⟨s₂, hrun₂, hhints₂, hmeta₂⟩ :=
        mergeTxMetadata_run_eq (tx.withClues ((s.hintRow tx.txHash).live now)) s₁
      have hsame : SameMerges now s s₂ := fun txHash => by
        rw [hhints₂]
        exact hsame₁ txHash
      obtain ⟨s₃, hrun₃, hsame₃, hmeta₃, hfresh₃⟩ := ih s₂
      have hmeta : s₂.metadataRow = Function.update s.metadataRow tx.txHash none := by
        rw [hmeta₂, hmeta₁]
        rfl
      have hmerged : ∀ metadata, mergedTxs (s₂.liveRow now) metadata txs =
          mergedTxs (s.liveRow now) metadata txs := fun metadata =>
        mergedTxs_congr hsame.withClues metadata txs
      refine ⟨s₃, ?_, hsame.trans hsame₃, fun txHash => ?_, fun tx' htx' => ?_⟩
      · have hfirst := (Prog.run_bind_of_ok hrun₁ mergeTxMetadata).trans hrun₂
        unfold Prog.mapEach
        rw [Prog.run_bind_of_ok hfirst, Prog.run_bind_of_ok hrun₃,
          hmerged, hmeta, hmeta₁]
        rfl
      · rw [hmeta₃, hmeta, Function.update_apply, List.map_cons]
        by_cases hin : txHash ∈ txs.map CompactTx.txHash
        · rw [if_pos hin, if_pos (List.mem_cons_of_mem _ hin)]
        · by_cases heq : txHash = tx.txHash
          · simp [heq]
          · simp only [hin, heq, if_false, List.mem_cons, or_self]
      · rw [List.mem_cons] at htx'
        rcases htx' with rfl | htail
        · refine hsame₃.fresh ?_
          rw [hhints₂]
          exact hfresh₁
        · exact hfresh₃ tx' htail
  obtain ⟨s', hrun, hsame, hmeta, hfresh⟩ := hmap block.txs s
  exact ⟨s', Prog.run_bind_of_ok hrun _, hsame, hmeta, hfresh⟩

/-! ## Inserts and rewinds -/

/-- The programs that leave the clue trees alone have the writes of the chain. -/
theorem chainCommands_omr (omr : OmrRows) :
    ChainCommands (fun _ => True) fun _ p => p.Keeps fun s => s.db.omr = omr :=
  chainCommands_keeps (fun _ => ⟨fun _ _ _ _ h => h, fun _ _ h => h, fun _ _ _ h => h,
    fun _ _ h => h⟩) fun _ _ h => h

/-- Past the merge, an insert leaves the clue trees alone. -/
theorem insertMergedBlock_omr (block : CompactBlock) (s : Cache) :
    ((insertMergedBlock block).exec s).db.omr = s.db.omr :=
  ((chainCommands_omr s.db.omr).insertMergedBlock trivial).exec rfl

/-- A rewind leaves the clue trees alone. -/
theorem rewindToHeight_omr (height : ℕ) (s : Cache) :
    ((rewindToHeight height).exec s).db.omr = s.db.omr :=
  ((chainCommands_omr s.db.omr).rewindToHeight height).exec rfl

/-- The row of the block that an insert stores, whatever becomes of the tree. -/
theorem inserted_compactBlocks_get (b : BlockRows) (block : CompactBlock) :
    (b.inserted block).compactBlocks.get block.height = some (.value block) := by
  have hstore : (b.store block).compactBlocks.get block.height = some (.value block) := by
    simp [BlockRows.store]
  unfold BlockRows.inserted
  rcases b.readTip with e | _ | ⟨tip, hash⟩
  · exact hstore
  · exact hstore
  · by_cases hlt : block.height < tip
    · simp only [if_pos hlt]
      exact hstore
    · simp only [if_neg hlt]
      exact hstore

/-- The row that an insert stores, and the clue trees it leaves. -/
theorem insertCompactBlock_merge (now : ℕ) (block : CompactBlock) (s : Cache) :
    ((insertCompactBlock now block).exec s).db.blocks.compactBlocks.get block.height =
        some (.value { block with
          txs := mergedTxs (s.liveRow now) s.metadataRow block.txs }) ∧
      SameMerges now s ((insertCompactBlock now block).exec s) ∧
      ∀ tx ∈ block.txs, ((insertCompactBlock now block).exec s).metadataRow tx.txHash = none := by
  obtain ⟨s₁, hrun, hsame, hmeta, -⟩ := applyOmrClueHints_run_eq now block s
  set merged : CompactBlock :=
    { block with txs := mergedTxs (s.liveRow now) s.metadataRow block.txs }
  have hexec : (insertCompactBlock now block).exec s = (insertMergedBlock merged).exec s₁ :=
    congrArg Prod.snd (Prog.run_bind_of_ok hrun _)
  have homr := insertMergedBlock_omr merged s₁
  refine ⟨?_, ?_, fun tx htx => ?_⟩
  · rw [hexec, insertMergedBlock_blocks]
    exact inserted_compactBlocks_get _ merged
  · rw [hexec]
    exact hsame.trans (.of_omr now homr)
  · rw [hexec]
    show ((insertMergedBlock merged).exec s₁).db.omr.omrMetadataEnc.get tx.txHash = none
    rw [homr]
    exact (hmeta tx.txHash).trans (if_pos (List.mem_map_of_mem htx))

end LightWalletd
