import LightWalletd.Analysis.ReorgReplay

/-!
# Registering before or after indexing

A clue that is stored before its block is inserted is on its output in the stored block. A clue
that is stored after leaves the stored block as it is, and reaches the output when the block is
inserted again.
-/

set_option autoImplicit false

namespace LightWalletd

open Stateful

/-- The stored block has the transaction, with the clue on output `i`. -/
def CarriesClue (txHash : Bytes32) (i : ℕ) (clue : Bytes) (row : Option (Stored CompactBlock)) :
    Prop :=
  ∃ block, row = some (.value block) ∧ (∃ tx ∈ block.txs, tx.txHash = txHash) ∧
    ∀ tx ∈ block.txs, tx.txHash = txHash →
      (tx.outputs.map CompactOutput.omrClue)[i]? = some clue

/-- Output `i` is there and without a clue, and no output has the clue `clue`. -/
def OpenFor (i : ℕ) (clue : Bytes) (outputs : List CompactOutput) : Prop :=
  (outputs.map CompactOutput.omrClue)[i]? = some [] ∧ clue ∉ outputs.map CompactOutput.omrClue

/-- A pending clue that neither goes to output `i`, nor to any output that is free, nor is
`clue`. -/
def ElsewhereThan (i : ℕ) (clue : Bytes) (c : Option ℕ × Bytes) : Prop :=
  c.1 ≠ none ∧ c.1 ≠ some i ∧ c.2 ≠ clue

/-- Filling a clue in changes the clue of one output, if it was empty. -/
theorem map_clue_fillClueAt (i : ℕ) (clue : Bytes) (outputs : List CompactOutput) :
    (fillClueAt i clue outputs).map CompactOutput.omrClue =
      (outputs.map CompactOutput.omrClue).modify i fun c => if c.isEmpty then clue else c := by
  apply List.ext_getElem?
  intro j
  unfold fillClueAt
  rw [List.getElem?_map, List.getElem?_modify, List.getElem?_modify, List.getElem?_map]
  cases outputs[j]? with
  | none => rfl
  | some o =>
    by_cases hij : i = j
    · by_cases hempty : o.omrClue = [] <;> simp [hij, hempty]
    · simp [hij]

/-- Such a pending clue keeps output `i` open. -/
theorem OpenFor.mergeClue {i : ℕ} {clue : Bytes} {outputs : List CompactOutput}
    {c : Option ℕ × Bytes} (h : OpenFor i clue outputs) (hc : ElsewhereThan i clue c) :
    OpenFor i clue (mergeClue outputs c) := by
  obtain ⟨idx, other⟩ := c
  obtain ⟨hnone, hidx, hother⟩ := hc
  unfold LightWalletd.mergeClue
  by_cases hskip : (other.isEmpty || outputs.any fun o => o.omrClue == other) = true
  · simp only [hskip, if_true]
    exact h
  · simp only [hskip, Bool.false_eq_true, if_false]
    cases idx with
    | none => exact absurd rfl hnone
    | some j =>
      have hij : j ≠ i := fun heq => hidx (congrArg some heq)
      constructor
      · rw [map_clue_fillClueAt, List.getElem?_modify]
        rw [h.1]
        simp [hij]
      · rw [map_clue_fillClueAt]
        intro hmem
        obtain ⟨k, hk⟩ := List.mem_iff_getElem?.mp hmem
        rw [List.getElem?_modify] at hk
        cases hget : (outputs.map CompactOutput.omrClue)[k]? with
        | none => simp [hget] at hk
        | some old =>
          rw [hget] at hk
          have hold : old ∈ outputs.map CompactOutput.omrClue := List.mem_of_getElem? hget
          injection hk with hk
          by_cases hjk : j = k
          · by_cases hempty : old.isEmpty = true
            · simp only [hjk, if_true, hempty] at hk
              exact hother hk
            · simp only [hjk, if_true, hempty] at hk
              exact h.2 (hk ▸ hold)
          · simp only [hjk, if_false] at hk
            exact h.2 (hk ▸ hold)

/-- The clue goes to output `i` when that is open for it. -/
theorem OpenFor.mergeClue_self {i : ℕ} {clue : Bytes} {outputs : List CompactOutput}
    (h : OpenFor i clue outputs) (hclue : clue ≠ []) :
    ((LightWalletd.mergeClue outputs (some i, clue)).map CompactOutput.omrClue)[i]? =
      some clue := by
  have hskip : ¬ (clue.isEmpty || outputs.any fun o => o.omrClue == clue) = true := by
    simp only [Bool.or_eq_true, List.isEmpty_iff, List.any_eq_true, beq_iff_eq, not_or]
    refine ⟨hclue, ?_⟩
    rintro ⟨o, ho, heq⟩
    apply h.2
    rw [← heq]
    exact List.mem_map_of_mem ho
  unfold LightWalletd.mergeClue
  simp only [hskip, Bool.false_eq_true, if_false]
  rw [map_clue_fillClueAt, List.getElem?_modify_eq, h.1]
  rfl

/-- Clues for other places leave an output open. -/
theorem OpenFor.foldl_mergeClue {i : ℕ} {clue : Bytes} {clues : List (Option ℕ × Bytes)}
    (hclues : ∀ c ∈ clues, ElsewhereThan i clue c) {outputs : List CompactOutput}
    (h : OpenFor i clue outputs) : OpenFor i clue (clues.foldl LightWalletd.mergeClue outputs) := by
  induction clues generalizing outputs with
  | nil => exact h
  | cons c clues ih =>
    rw [List.foldl_cons]
    apply ih (fun c' hc' => hclues c' (List.mem_cons_of_mem _ hc'))
    exact h.mergeClue (hclues c (List.mem_cons_self ..))

/-! ## Stored blocks -/

/-- Placing metadata leaves the clues. -/
theorem map_clue_withMetadata (row : Option Bytes) (tx : CompactTx) :
    (tx.withMetadata row).outputs.map CompactOutput.omrClue =
      tx.outputs.map CompactOutput.omrClue := by
  have hfill : ∀ i enc (outputs : List CompactOutput), (fillMetadataAt i enc outputs).map
      CompactOutput.omrClue = outputs.map CompactOutput.omrClue := by
    intro i enc outputs
    unfold fillMetadataAt
    apply map_modify_of_forall
    intro o
    by_cases h : o.omrMetadataEnc.isEmpty <;> simp [h]
  cases row with
  | none => rfl
  | some stored => exact map_mergeMetadata hfill tx.outputs stored

/-- Placing metadata leaves the hash. -/
theorem txHash_withMetadata (row : Option Bytes) (tx : CompactTx) :
    (tx.withMetadata row).txHash = tx.txHash := by
  cases row <;> rfl

/-- A transaction of a merged block is one of the block, with its clues and with metadata. -/
theorem mem_mergedTxs {hints : Bytes32 → HintRow} {metadata : Bytes32 → Option Bytes}
    {txs : List CompactTx} {tx' : CompactTx} (h : tx' ∈ mergedTxs hints metadata txs) :
    ∃ tx ∈ txs, ∃ row, tx' = (tx.withClues (hints tx.txHash)).withMetadata row := by
  induction txs generalizing metadata with
  | nil => cases h
  | cons tx txs ih =>
    rcases List.mem_cons.mp h with rfl | h
    · exact ⟨tx, List.mem_cons_self .., _, rfl⟩
    · obtain ⟨tx₀, htx₀, hrow⟩ := ih h
      exact ⟨tx₀, List.mem_cons_of_mem _ htx₀, hrow⟩

/-- Merging leaves the hashes. -/
theorem map_txHash_mergedTxs (hints : Bytes32 → HintRow) (metadata : Bytes32 → Option Bytes)
    (txs : List CompactTx) :
    (mergedTxs hints metadata txs).map CompactTx.txHash = txs.map CompactTx.txHash := by
  induction txs generalizing metadata with
  | nil => rfl
  | cons tx txs ih =>
    rw [mergedTxs, List.map_cons, List.map_cons, ih, txHash_withMetadata]
    rfl

/-- An insert puts the last clue of the row on its output. -/
theorem carriesClue_insert {now i : ℕ} {txHash : Bytes32} {clue : Bytes} {block : CompactBlock}
    {s : Cache} {earlier : List (Option ℕ × Bytes)} (hclue : clue ≠ [])
    (hmem : ∃ tx ∈ block.txs, tx.txHash = txHash)
    (hopen : ∀ tx ∈ block.txs, tx.txHash = txHash → OpenFor i clue tx.outputs)
    (hfresh : (s.hintRow txHash).Fresh now)
    (hrow : (s.hintRow txHash).clues = earlier ++ [(some i, clue)])
    (hearlier : ∀ c ∈ earlier, ElsewhereThan i clue c) :
    CarriesClue txHash i clue (storedRow block.height ((insertCompactBlock now block).exec s)) := by
  obtain ⟨hstored, -⟩ := insertCompactBlock_merge now block s
  refine ⟨_, hstored, ?_, ?_⟩
  · obtain ⟨tx, htx, rfl⟩ := hmem
    have hhash : tx.txHash ∈ (mergedTxs (s.liveRow now) s.metadataRow block.txs).map
        CompactTx.txHash := by
      rw [map_txHash_mergedTxs]
      exact List.mem_map_of_mem htx
    obtain ⟨tx', htx', heq⟩ := List.mem_map.mp hhash
    exact ⟨tx', htx', heq⟩
  · intro tx' htx' hhash
    obtain ⟨tx, htx, row, rfl⟩ := mem_mergedTxs htx'
    rw [txHash_withMetadata] at hhash
    have htxHash : tx.txHash = txHash := hhash
    rw [map_clue_withMetadata, Cache.liveRow, htxHash, hfresh.live, CompactTx.withClues, hrow,
      List.foldl_append, List.foldl_cons, List.foldl_nil]
    exact ((hopen tx htx htxHash).foldl_mergeClue hearlier).mergeClue_self hclue

/-! ## The two orders -/

/-- Store the clue at `now`, then insert the block at `later`. -/
def hintThenInsert (now later : ℕ) (txHash : Bytes32) (i : ℕ) (clue : Bytes)
    (block : CompactBlock) (s : Cache) : Cache :=
  (insertCompactBlock later block).exec ((storeOmrClueHint now txHash clue (some i)).exec s)

/-- Insert the block at `now`, then store the clue at `later`. -/
def insertThenHint (now later : ℕ) (txHash : Bytes32) (i : ℕ) (clue : Bytes)
    (block : CompactBlock) (s : Cache) : Cache :=
  (storeOmrClueHint later txHash clue (some i)).exec ((insertCompactBlock now block).exec s)

/-- What holds of a clue for output `i`: the output is there, the code can store its bytes and
name it, and neither the block nor an earlier pending clue stands in its way. -/
structure Registrable (s : Cache) (block : CompactBlock) (txHash : Bytes32) (i : ℕ)
    (clue : Bytes) : Prop where
  clue_ne_nil : clue ≠ []
  clue_le : clue.length ≤ u32Max
  index_lt : i < u32Max
  indexed : ∃ tx ∈ block.txs, tx.txHash = txHash
  isOpen : ∀ tx ∈ block.txs, tx.txHash = txHash → OpenFor i clue tx.outputs
  pending : ∀ c ∈ (s.hintRow txHash).clues, ElsewhereThan i clue c

/-- A registrable clue is stored as it is. -/
theorem Registrable.storedEntry {s : Cache} {block : CompactBlock} {txHash : Bytes32} {i : ℕ}
    {clue : Bytes} (h : Registrable s block txHash i clue) :
    LightWalletd.storedEntry (some i, clue) = (some i, clue) :=
  Prod.ext (storedIndex_of_ne fun e => h.index_lt.ne (Option.some.inj e)) rfl

/-- A registrable clue fits its entry. -/
theorem Registrable.fits {s : Cache} {block : CompactBlock} {txHash : Bytes32} {i : ℕ}
    {clue : Bytes} (h : Registrable s block txHash i clue) : FitsEntry (some i, clue) where
  index := by
    intro j hj
    cases hj
    exact h.index_lt.le
  clue := h.clue_le

/-- Storing a registrable clue puts it behind the pending clues. -/
theorem Registrable.clues_add {s s₁ : Cache} {block : CompactBlock} {txHash : Bytes32} {i : ℕ}
    {clue : Bytes} (h : Registrable s block txHash i clue)
    (hsub : (s₁.hintRow txHash).clues ⊆ (s.hintRow txHash).clues) (now : ℕ) :
    ((s₁.hintRow txHash).add now clue (some i)).clues =
      (s₁.hintRow txHash).clues ++ [(some i, clue)] := by
  have hnew : ¬ ((s₁.hintRow txHash).clues.any fun c => c.1 == some i) = true := by
    rw [List.any_eq_true]
    rintro ⟨c, hc, hidx⟩
    exact (h.pending c (hsub hc)).2.1 (by simpa using hidx)
  rw [HintRow.clues_add h.fits, if_neg hnew, h.storedEntry]

/-- A registrable clue: stored before the insert, it is on its output; stored after, it is
accepted, the stored block stays, and the clue is on its output once the block is inserted
again. -/
theorem registration_order (s : Cache) (block : CompactBlock) (txHash : Bytes32) (i : ℕ)
    (clue : Bytes) (h : Registrable s block txHash i clue) (now later again height : ℕ)
    (hnow : now < 256 ^ 8) (hnext : later < 256 ^ 8) (hlater : later - now ≤ omrClueHintTtlSecs)
    (hagain : again - later ≤ omrClueHintTtlSecs)
    (hfresh : ∀ time ∈ [now, later, again], (s.hintRow txHash).Fresh time) :
    CarriesClue txHash i clue
        (storedRow block.height (hintThenInsert now later txHash i clue block s)) ∧
      ((storeOmrClueHint later txHash clue (some i)).run
        ((insertCompactBlock now block).exec s)).1 = .ok () ∧
      storedRow block.height (insertThenHint now later txHash i clue block s) =
        storedRow block.height ((insertCompactBlock now block).exec s) ∧
      CarriesClue txHash i clue (storedRow block.height
        (replayBlock block (insertThenHint now later txHash i clue block s) (height, again))) := by
  have hfreshNow := hfresh now (by simp)
  have hfreshLater := hfresh later (by simp)
  have hfreshAgain := hfresh again (by simp)
  -- before
  obtain ⟨s₁, hrun₁, hstored₁⟩ := storeOmrClueHint_run h.clue_ne_nil hfreshNow (some i)
  have hbefore : hintThenInsert now later txHash i clue block s =
      (insertCompactBlock later block).exec s₁ :=
    congrArg (insertCompactBlock later block).exec (congrArg Prod.snd hrun₁)
  -- after
  obtain ⟨-, hsame, -⟩ := insertCompactBlock_merge now block s
  set inserted := (insertCompactBlock now block).exec s
  obtain ⟨s₂, hrun₂, hstored₂⟩ :=
    storeOmrClueHint_run h.clue_ne_nil (hsame.fresh hfreshLater) (some i)
  have hafter : insertThenHint now later txHash i clue block s = s₂ := congrArg Prod.snd hrun₂
  rw [hbefore, hafter]
  refine ⟨?_, congrArg Prod.fst hrun₂, ?_, ?_⟩
  · refine carriesClue_insert h.clue_ne_nil h.indexed h.isOpen ?_ ?_ h.pending
    · rw [hstored₁.added]
      exact hfreshLater.add hnow hlater
    · rw [hstored₁.added, h.clues_add (List.Subset.refl _)]
  · exact congrArg (fun p => p.1.blocks.compactBlocks.get block.height) hstored₂.beside
  · have hhints : ((rewindToHeight height).exec s₂).hintRow = s₂.hintRow := by
      unfold Cache.hintRow
      rw [rewindToHeight_omr]
    refine carriesClue_insert h.clue_ne_nil h.indexed h.isOpen ?_ ?_
      fun c hc => h.pending c (hsame.clues_subset txHash hc)
    · rw [hhints, hstored₂.added]
      exact (hsame.fresh hfreshAgain).add hnext hagain
    · rw [hhints, hstored₂.added, h.clues_add (hsame.clues_subset txHash)]

/-- An empty cache, and a block with one output. -/
theorem registration_order_one_output :
    CarriesClue (Bytes32.fill 7) 0 [1] (storedRow 0
        (hintThenInsert 5 6 (Bytes32.fill 7) 0 [1] (.sample 0 7 [1] []) Cache.initial)) ∧
      ((storeOmrClueHint 6 (Bytes32.fill 7) [1] (some 0)).run
        ((insertCompactBlock 5 (.sample 0 7 [1] [])).exec Cache.initial)).1 = .ok () ∧
      storedRow 0 (insertThenHint 5 6 (Bytes32.fill 7) 0 [1] (.sample 0 7 [1] [])
          Cache.initial) =
        storedRow 0 ((insertCompactBlock 5 (.sample 0 7 [1] [])).exec Cache.initial) ∧
      CarriesClue (Bytes32.fill 7) 0 [1] (storedRow 0 (replayBlock (.sample 0 7 [1] [])
        (insertThenHint 5 6 (Bytes32.fill 7) 0 [1] (.sample 0 7 [1] []) Cache.initial)
          (0, 7))) := by
  have hrow : Cache.initial.hintRow (Bytes32.fill 7) = (none, none) := by decide +kernel
  have hreg : Registrable Cache.initial (.sample 0 7 [1] []) (Bytes32.fill 7) 0 [1] := by
    refine ⟨by simp, by decide, by decide, ⟨_, List.mem_singleton_self _, rfl⟩, ?_, ?_⟩
    · intro tx htx _
      rw [CompactBlock.sample, List.mem_singleton] at htx
      subst htx
      exact ⟨rfl, by simp⟩
    · intro c hc
      rw [hrow] at hc
      cases hc
  apply registration_order Cache.initial (.sample 0 7 [1] []) (Bytes32.fill 7) 0 [1] hreg 5 6 7 0
  · decide
  · decide
  · decide
  · decide
  · intro time _
    rw [hrow]
    exact HintRow.fresh_none time

/-- A clue that is stored after the insert is accepted, and the stored block is another one
than when it is stored before. -/
theorem registration_after_insert_differs :
    ((storeOmrClueHint 6 (Bytes32.fill 7) [1] (some 0)).run
        ((insertCompactBlock 5 (.sample 0 7 [1] [])).exec Cache.initial)).1 = .ok () ∧
      storedRow 0 (insertThenHint 5 6 (Bytes32.fill 7) 0 [1] (.sample 0 7 [1] [])
          Cache.initial) ≠
        storedRow 0 (hintThenInsert 5 6 (Bytes32.fill 7) 0 [1] (.sample 0 7 [1] [])
          Cache.initial) := by
  decide +kernel

end LightWalletd
