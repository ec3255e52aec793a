import LightWalletd.Analysis.ClueMerge
import LightWalletd.Analysis.Opening

/-!
# Reorg replay

A block is inserted, then any number of times rewound and inserted again. Clue rows outlive the
merge, so every insert merges the same clues. Metadata rows do not: what the first insert took
out of them is missing from the blocks stored later.
-/

set_option autoImplicit false

namespace LightWalletd

open Stateful

/-- Rewind to a height, then insert the block at the time `now`. -/
def replayBlock (block : CompactBlock) (s : Cache) (step : ℕ × ℕ) : Cache :=
  (insertCompactBlock step.2 block).exec ((rewindToHeight step.1).exec s)

/-- The block row at a height. -/
def storedRow (height : ℕ) (s : Cache) : Option (Stored CompactBlock) :=
  s.db.blocks.compactBlocks.get height

/-- Every replay stores the block as the first insert did. -/
def ReplayLossless (now : ℕ) (block : CompactBlock) (replays : List (ℕ × ℕ)) (s : Cache) : Prop :=
  ∀ first, first <+: replays →
    storedRow block.height (first.foldl (replayBlock block) ((insertCompactBlock now block).exec s)) =
      storedRow block.height ((insertCompactBlock now block).exec s)

/-! ## What metadata rows change -/

/-- A metadata row has bytes for an output without metadata, `metadata` being the metadata of
the outputs: for the output it names, or for any when it names none. -/
def FillsMetadata (metadata : List Bytes) (stored : Bytes) : Prop :=
  (parseStoredOmrClueHint stored).2 ≠ [] ∧
    match (parseStoredOmrClueHint stored).1 with
    | some idx => metadata[idx]? = some []
    | none => [] ∈ metadata

/-- Placing metadata changes nothing unless the output has none. -/
theorem fillMetadataAt_eq_self_iff {i : ℕ} {enc : Bytes} (henc : enc ≠ [])
    (outputs : List CompactOutput) : fillMetadataAt i enc outputs = outputs ↔
      (outputs.map CompactOutput.omrMetadataEnc)[i]? ≠ some [] := by
  unfold fillMetadataAt
  rw [List.getElem?_map]
  constructor
  · intro h hfill
    have hi : (outputs.modify i _)[i]? = outputs[i]? :=
      congrArg (fun l : List CompactOutput => l[i]?) h
    rw [List.getElem?_modify_eq] at hi
    cases ho : outputs[i]? with
    | none => simp [ho] at hfill
    | some o =>
      have hempty : o.omrMetadataEnc = [] := by simpa [ho] using hfill
      rw [ho] at hi
      injection hi with hi
      simp only [hempty, List.isEmpty_nil, if_true] at hi
      exact henc ((congrArg CompactOutput.omrMetadataEnc hi).trans hempty)
  · intro h
    apply List.ext_getElem?
    intro j
    rw [List.getElem?_modify]
    by_cases hij : i = j
    · subst hij
      cases ho : outputs[i]? with
      | none => rfl
      | some o =>
        have hfull : o.omrMetadataEnc ≠ [] := by simpa [ho] using h
        simp [hfull]
    · cases outputs[j]? <;> simp [hij]

/-- Merging metadata changes nothing unless they fill an output. -/
theorem mergeMetadata_eq_self_iff (outputs : List CompactOutput) (stored : Bytes) :
    mergeMetadata outputs stored = outputs ↔
      ¬ FillsMetadata (outputs.map CompactOutput.omrMetadataEnc) stored := by
  unfold mergeMetadata FillsMetadata
  obtain ⟨idx, enc⟩ := parseStoredOmrClueHint stored
  by_cases henc : enc = []
  · simp [henc]
  · have hempty : enc.isEmpty = false := by simpa using henc
    simp only [hempty, Bool.false_eq_true, if_false, ne_eq, henc, not_false_eq_true, true_and]
    cases idx with
    | some i => exact fillMetadataAt_eq_self_iff henc outputs
    | none =>
      rw [fillMetadataAt_eq_self_iff henc, not_iff_not, List.getElem?_map]
      constructor
      · intro h
        obtain ⟨o, ho, hmeta⟩ := Option.map_eq_some_iff.mp h
        exact List.mem_map.mpr ⟨o, List.mem_of_getElem? ho, hmeta⟩
      · intro h
        obtain ⟨o, ho, hmeta⟩ := List.mem_map.mp h
        have hlt : outputs.findIdx (fun o => o.omrMetadataEnc.isEmpty) < outputs.length :=
          List.findIdx_lt_length_of_exists ⟨o, ho, by simp [hmeta]⟩
        have hfound := List.findIdx_getElem (w := hlt)
        rw [List.getElem?_eq_getElem hlt]
        simpa using hfound

/-- Merging clues leaves the metadata. -/
theorem map_metadata_foldl_mergeClue (clues : List (Option ℕ × Bytes))
    (outputs : List CompactOutput) : (clues.foldl mergeClue outputs).map
      CompactOutput.omrMetadataEnc = outputs.map CompactOutput.omrMetadataEnc := by
  have hfill : ∀ i clue (outputs : List CompactOutput), (fillClueAt i clue outputs).map
      CompactOutput.omrMetadataEnc = outputs.map CompactOutput.omrMetadataEnc := by
    intro i clue outputs
    unfold fillClueAt
    apply map_modify_of_forall
    intro o
    by_cases h : o.omrClue.isEmpty <;> simp [h]
  induction clues generalizing outputs with
  | nil => rfl
  | cons c clues ih =>
    rw [List.foldl_cons, ih]
    obtain ⟨idx, clue⟩ := c
    unfold mergeClue
    by_cases h : (clue.isEmpty || outputs.any fun o => o.omrClue == clue) = true
    · simp only [h, if_true]
    · simp only [h, Bool.false_eq_true, if_false]
      cases idx with
      | none => exact hfill _ _ _
      | some i => exact hfill _ _ _

/-- A transaction is the first of its block with its hash, and its metadata row fills one of
its outputs. -/
def PendingMetadata (metadata : Bytes32 → Option Bytes) (txs : List CompactTx) : Prop :=
  ∃ txHash tx stored, txs.find? (fun tx => decide (tx.txHash = txHash)) = some tx ∧
    metadata txHash = some stored ∧
    FillsMetadata (tx.outputs.map CompactOutput.omrMetadataEnc) stored

/-- Metadata rows change nothing exactly when none of them fills an output. -/
theorem mergedTxs_eq_map_iff (hints : Bytes32 → HintRow) (metadata : Bytes32 → Option Bytes)
    (txs : List CompactTx) :
    mergedTxs hints metadata txs = txs.map (fun tx => tx.withClues (hints tx.txHash)) ↔
      ¬ PendingMetadata metadata txs := by
  induction txs generalizing metadata with
  | nil => simp [mergedTxs, PendingMetadata]
  | cons tx txs ih =>
    rw [mergedTxs, List.map_cons, List.cons.injEq, ih]
    have hhead : (tx.withClues (hints tx.txHash)).withMetadata (metadata tx.txHash) =
        tx.withClues (hints tx.txHash) ↔ ¬ ∃ stored, metadata tx.txHash = some stored ∧
          FillsMetadata (tx.outputs.map CompactOutput.omrMetadataEnc) stored := by
      cases hrow : metadata tx.txHash with
      | none => simp [CompactTx.withMetadata]
      | some stored =>
        have hmerge := mergeMetadata_eq_self_iff
          ((hints tx.txHash).clues.foldl mergeClue tx.outputs) stored
        rw [map_metadata_foldl_mergeClue] at hmerge
        simp only [Option.some.injEq, exists_eq_left']
        rw [← hmerge]
        constructor
        · exact fun h => congrArg CompactTx.outputs h
        · exact fun h => congrArg (fun outputs => { tx with outputs := outputs }) h
    rw [hhead, ← not_or, not_iff_not]
    constructor
    · rintro (⟨stored, hrow, hfills⟩ | ⟨txHash, tx', stored, hfind, hrow, hfills⟩)
      · exact ⟨tx.txHash, tx, stored, by simp, hrow, hfills⟩
      · have hne : txHash ≠ tx.txHash := by
          rintro rfl
          simp at hrow
        refine ⟨txHash, tx', stored, ?_, by simpa [hne] using hrow, hfills⟩
        rw [List.find?_cons_of_neg (by simpa using fun h => hne h.symm)]
        exact hfind
    · rintro ⟨txHash, tx', stored, hfind, hrow, hfills⟩
      by_cases heq : tx.txHash = txHash
      · rw [List.find?_cons_of_pos (by simpa using heq)] at hfind
        cases hfind
        exact Or.inl ⟨stored, heq ▸ hrow, hfills⟩
      · rw [List.find?_cons_of_neg (by simpa using heq)] at hfind
        have hne : txHash ≠ tx.txHash := fun h => heq h.symm
        exact Or.inr ⟨txHash, tx', stored, hfind, by simpa [hne] using hrow, hfills⟩

/-! ## Replays -/

/-- After the first insert, every replay stores the block with its clues and no metadata. -/
theorem storedRow_replays {block : CompactBlock} {hints : Bytes32 → HintRow} {s : Cache}
    {replays : List (ℕ × ℕ)} (hne : replays ≠ [])
    (hmeta : ∀ tx ∈ block.txs, s.metadataRow tx.txHash = none)
    (hclues : ∀ time ∈ replays.map Prod.snd, ∀ tx ∈ block.txs,
      tx.withClues (s.liveRow time tx.txHash) = tx.withClues (hints tx.txHash))
    (hfresh : ∀ time ∈ replays.map Prod.snd, ∀ tx ∈ block.txs,
      (s.hintRow tx.txHash).Fresh time) :
    storedRow block.height (replays.foldl (replayBlock block) s) = some (.value { block with
      txs := block.txs.map fun tx => tx.withClues (hints tx.txHash) }) := by
  induction replays generalizing s with
  | nil => exact absurd rfl hne
  | cons step replays ih =>
    have homr := rewindToHeight_omr step.1 s
    set s₁ := (rewindToHeight step.1).exec s with hs₁
    have hhints : s₁.hintRow = s.hintRow := by
      unfold Cache.hintRow
      rw [homr]
    have hmeta₁ : s₁.metadataRow = s.metadataRow := by
      unfold Cache.metadataRow
      rw [homr]
    have hstep : step.2 ∈ (step :: replays).map Prod.snd := List.mem_cons_self ..
    obtain ⟨hrow, hsame, hmeta₂⟩ := insertCompactBlock_merge step.2 block s₁
    rw [List.foldl_cons]
    by_cases hlast : replays = []
    · subst hlast
      show storedRow block.height (replayBlock block s step) = _
      rw [storedRow, replayBlock, ← hs₁, hrow, hmeta₁, mergedTxs_of_none hmeta]
      congr 3
      apply List.map_congr_left
      intro tx htx
      unfold Cache.liveRow
      rw [hhints]
      exact hclues step.2 hstep tx htx
    · have hlater : ∀ time ∈ replays.map Prod.snd, time ∈ (step :: replays).map Prod.snd :=
        fun time h => List.mem_cons_of_mem _ h
      refine ih hlast hmeta₂ (fun time htime tx htx => ?_) fun time htime tx htx => ?_
      · have hfreshNow := hfresh step.2 hstep tx htx
        have hfreshLater := hfresh time (hlater time htime) tx htx
        rw [← hclues time (hlater time htime) tx htx, Cache.liveRow, Cache.liveRow,
          hfreshLater.live]
        rw [← hhints] at hfreshNow hfreshLater ⊢
        exact hsame.withClues_later hfreshNow hfreshLater tx
      · apply hsame.fresh
        rw [hhints]
        exact hfresh time (hlater time htime) tx htx

/-- With unexpired clue rows, replays store the same block exactly when no metadata row fills
an output of it. -/
theorem replay_lossless_iff (s : Cache) (block : CompactBlock) (now : ℕ)
    (replays : List (ℕ × ℕ)) (hne : replays ≠ [])
    (hfresh : ∀ time ∈ now :: replays.map Prod.snd, ∀ tx ∈ block.txs,
      (s.hintRow tx.txHash).Fresh time) :
    ReplayLossless now block replays s ↔ ¬ PendingMetadata s.metadataRow block.txs := by
  obtain ⟨hrow, hsame, hmeta⟩ := insertCompactBlock_merge now block s
  have hnow : ∀ tx ∈ block.txs, (s.hintRow tx.txHash).Fresh now := hfresh now (by simp)
  have hlater : ∀ first, first <+: replays → first ≠ [] →
      storedRow block.height
          (first.foldl (replayBlock block) ((insertCompactBlock now block).exec s)) =
        some (.value { block with
          txs := block.txs.map fun tx => tx.withClues (s.liveRow now tx.txHash) }) := by
    intro first hfirst hne
    have htime : ∀ time ∈ first.map Prod.snd, ∀ tx ∈ block.txs,
        (s.hintRow tx.txHash).Fresh time := by
      intro time h
      obtain ⟨step, hstep, rfl⟩ := List.mem_map.mp h
      exact hfresh step.2 (List.mem_cons_of_mem _ (List.mem_map_of_mem (hfirst.subset hstep)))
    refine storedRow_replays hne hmeta (fun time h tx htx => ?_) fun time h tx htx => ?_
    · rw [Cache.liveRow, Cache.liveRow, (hnow tx htx).live]
      exact hsame.withClues_later (hnow tx htx) (htime time h tx htx) tx
    · exact hsame.fresh (htime time h tx htx)
  rw [← mergedTxs_eq_map_iff (s.liveRow now)]
  constructor
  · intro h
    have hall := h replays (List.prefix_refl _)
    rw [hlater replays (List.prefix_refl _) hne, storedRow, hrow] at hall
    injection hall with hall
    injection hall with hall
    exact (congrArg CompactBlock.txs hall).symm
  · intro h first hfirst
    by_cases hempty : first = []
    · subst hempty
      rfl
    · rw [hlater first hfirst hempty, storedRow, hrow, h]

/-- A block at height 0 with a clue row for its transaction, replayed twice. -/
def hintedCache : Cache :=
  (storeOmrClueHint 5 (Bytes32.fill 7) [1, 2] (some 0)).exec Cache.initial

/-- One block replayed twice over a pending clue. -/
theorem replay_lossless_iff_twice :
    ReplayLossless 6 (.sample 0 7 [1] []) [(0, 7), (0, 8)] hintedCache ↔
      ¬ PendingMetadata hintedCache.metadataRow (CompactBlock.sample 0 7 [1] []).txs := by
  apply replay_lossless_iff
  · simp
  · intro time htime tx htx value hvalue
    simp only [CompactBlock.sample, List.mem_singleton] at htx
    subst htx
    have hrow : hintedCache.hintRow (Bytes32.fill 7) =
        (some (encodeOmrClueHints [(some 0, [1, 2])]), some (leBytes 8 5)) := by decide +kernel
    rw [hrow] at hvalue
    cases hvalue
    simp only [List.map_cons, List.map_nil, List.mem_cons, List.not_mem_nil, or_false] at htime
    rcases htime with rfl | rfl | rfl <;> decide

/-- A cache with one block and a metadata row for the transaction of the next one. -/
def metadataCache : Cache :=
  (storeOmrMetadataEnc (Bytes32.fill 7) [1, 2] (some 0)).exec
    ((insertCompactBlock 0 (.sample 0 1 [] [])).exec Cache.initial)

/-- The replayed block lacks the metadata. -/
theorem replay_drops_metadata :
    ¬ ReplayLossless 5 (.sample 1 7 [1] []) [(0, 6)] metadataCache := by
  intro h
  have hrow := h [(0, 6)] (List.prefix_refl _)
  have hne : storedRow 1 ([(0, 6)].foldl (replayBlock (.sample 1 7 [1] []))
      ((insertCompactBlock 5 (.sample 1 7 [1] [])).exec metadataCache)) ≠
        storedRow 1 ((insertCompactBlock 5 (.sample 1 7 [1] [])).exec metadataCache) := by
    decide +kernel
  exact hne hrow

end LightWalletd
