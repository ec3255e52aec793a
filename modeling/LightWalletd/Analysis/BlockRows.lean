import LightWalletd.Analysis.Frame

/-!
# Block rows

What inserting, rewinding and pruning do to the rows derived from blocks and to the
tip keys. The Money tree has no part in it, so each effect is an operation on
`BlockRows` alone and holds whether or not the tree was updated. `Holds` says that
the rows are those of a block map; storing and deleting keep it.
-/

set_option autoImplicit false

namespace LightWalletd

open Stateful

/-- The cache with other block rows. -/
def Cache.setBlocks (s : Cache) (b : BlockRows) : Cache := { s with db := { s.db with blocks := b } }

/-- The block rows after writing block rows. -/
@[simp] theorem setBlocks_blocks (s : Cache) (b : BlockRows) : (s.setBlocks b).db.blocks = b := rfl

/-- Writing block rows leaves the tree rows. -/
@[simp] theorem setBlocks_trees (s : Cache) (b : BlockRows) :
    (s.setBlocks b).db.trees = s.db.trees := rfl

/-- It leaves the live tree. -/
@[simp] theorem setBlocks_tipTree (s : Cache) (b : BlockRows) :
    (s.setBlocks b).tipTree = s.tipTree := rfl

/-- The last block rows written count. -/
@[simp] theorem setBlocks_setBlocks (s : Cache) (b b' : BlockRows) :
    (s.setBlocks b).setBlocks b' = s.setBlocks b' := rfl

namespace BlockRows

/-- The nullifier row of a block: none when the block has no nullifiers. -/
def nullifierRow (block : CompactBlock) : Option (Stored (List Bytes32)) :=
  if block.allNullifiers.isEmpty then none else some (.value block.allNullifiers)

/-- The coin row of a block: none when the block has no coins. -/
def coinRow (block : CompactBlock) : Option (Stored (List Bytes32)) :=
  if block.allCoins.isEmpty then none else some (.value block.allCoins)

/-- The effect of `storeBlockRows`. -/
def store (b : BlockRows) (block : CompactBlock) : BlockRows :=
  { b with
    compactBlocks := b.compactBlocks.insert block.height (.value block)
    blockHashes := b.blockHashes.insert block.height (.value block.hash)
    hashToHeight := b.hashToHeight.insert block.hash (.value block.height)
    nullifiers := if block.allNullifiers.isEmpty then b.nullifiers
      else b.nullifiers.insert block.height (.value block.allNullifiers)
    coins := if block.allCoins.isEmpty then b.coins
      else b.coins.insert block.height (.value block.allCoins) }

/-- The effect of `deleteBlockRows`. -/
def delete (b : BlockRows) (height : ℕ) : BlockRows :=
  { b with
    compactBlocks := b.compactBlocks.remove height
    blockHashes := b.blockHashes.remove height
    hashToHeight := match b.blockHashes.get height with
      | some (.value hash) => b.hashToHeight.remove hash
      | _ => b.hashToHeight
    nullifiers := b.nullifiers.remove height
    coins := b.coins.remove height }

/-- The rows without the heights that satisfy `p`, deleted as the loops do it. -/
def deleteWhere (b : BlockRows) (p : ℕ → Bool) : BlockRows :=
  (b.compactBlocks.filter p).keys.foldl delete b

/-- The rows with another tip. -/
def setTip (b : BlockRows) (height : ℕ) (hash : Bytes32) : BlockRows :=
  { b with tipHeight := some (.value height), tipHash := some (.value hash) }

/-- The outcome of `getTip`. -/
def readTip (b : BlockRows) : Except LightWalletError (Option (ℕ × Bytes32)) :=
  match b.tipHeight with
  | none => .ok none
  | some row => (decodeMeta "Invalid tip height bytes" row).bind fun height =>
    match b.tipHash with
    | none => .ok none
    | some row => (decodeMeta "Invalid tip hash bytes" row).map fun hash => some (height, hash)

/-- The block rows after an insert. -/
def inserted (b : BlockRows) (block : CompactBlock) : BlockRows :=
  match b.readTip with
  | .ok (some (tip, _)) =>
    if block.height < tip then b.store block else (b.store block).setTip block.height block.hash
  | .ok none => (b.store block).setTip block.height block.hash
  | .error _ => b.store block

/-- The tip keys after `rewindTip`. -/
def rewoundTip (b : BlockRows) (height : ℕ) : BlockRows :=
  match b.compactBlocks.get height with
  | some (.value block) => b.setTip height block.hash
  | some (.raw _) => b
  | none => if height = 0 then { b with tipHeight := none, tipHash := none } else b

/-- The block rows after a rewind. -/
def rewound (b : BlockRows) (height : ℕ) : BlockRows :=
  (b.deleteWhere fun h => decide (wrappingAdd height 1 ≤ h)).rewoundTip height

end BlockRows

/-! ## Effects of the functions -/

/-- `store_block_rows` writes the rows of the block. -/
theorem storeBlockRows_run (block : CompactBlock) (s : Cache) :
    (storeBlockRows block).run s = (.ok (), s.setBlocks (s.db.blocks.store block)) := by
  unfold storeBlockRows BlockRows.store
  by_cases hn : block.allNullifiers.isEmpty = true <;>
    by_cases hc : block.allCoins.isEmpty = true <;>
    · simp only [hn, hc, if_true, Bool.false_eq_true, if_false]
      rfl

/-- `get_tip` reads the two keys of the tip. -/
theorem getTip_run (s : Cache) : getTip.run s = (s.db.blocks.readTip, s) := by
  unfold getTip BlockRows.readTip
  rw [Prog.bind_eq, Prog.run_bind_of_ok (Cell.run_get metaTipHeight s)]
  simp only [metaTipHeight]
  rcases s.db.blocks.tipHeight with _ | height | bytes
  · rfl
  · simp only [decodeMeta, liftExcept, Prog.bind_eq, Prog.bind]
    rw [Prog.run_bind_of_ok (Cell.run_get metaTipHash s)]
    simp only [metaTipHash]
    rcases s.db.blocks.tipHash with _ | hash | bytes <;> rfl
  · rfl

/-- `delete_block_rows` removes the rows of a height. -/
theorem deleteBlockRows_run (height : ℕ) (s : Cache) :
    (deleteBlockRows height).run s = (.ok (), s.setBlocks (s.db.blocks.delete height)) := by
  unfold deleteBlockRows BlockRows.delete
  simp only [Prog.bind_eq]
  rw [Prog.run_bind_of_ok (Tree.run_remove compactBlocks height s),
    Prog.run_bind_of_ok (Tree.run_remove blockHashes height _)]
  simp only [compactBlocks, blockHashes]
  rcases s.db.blocks.blockHashes.get height with _ | hash | bytes <;> rfl

/-- A loop of `delete_block_rows` removes the rows of its heights. -/
theorem deleteBlockRows_forEach_run (heights : List ℕ) (s : Cache) :
    (Prog.forEach deleteBlockRows heights).run s =
      (.ok (), s.setBlocks (heights.foldl BlockRows.delete s.db.blocks)) := by
  rw [Prog.run_forEach deleteBlockRows (fun h s => s.setBlocks (s.db.blocks.delete h))
    deleteBlockRows_run]
  congr 1
  induction heights generalizing s with
  | nil => rfl
  | cons h heights ih => rw [List.foldl_cons, ih, List.foldl_cons]; rfl

/-- An insert stores the rows, then goes by the tip that was there before. -/
theorem insertMergedBlock_run (block : CompactBlock) {s : Cache} {tip : Option (ℕ × Bytes32)}
    (htip : s.db.blocks.readTip = .ok tip) : (insertMergedBlock block).run s =
      (match tip with
      | some (tipHeight, _) =>
        if block.height < tipHeight then backfillBlock block tipHeight else advanceTip block
      | none => advanceTip block).run (s.setBlocks (s.db.blocks.store block)) := by
  have hget : getTip.run (s.setBlocks (s.db.blocks.store block)) =
      (.ok tip, s.setBlocks (s.db.blocks.store block)) :=
    (getTip_run _).trans (Prod.ext htip rfl)
  unfold insertMergedBlock
  rw [Prog.bind_eq, Prog.run_bind_of_ok (storeBlockRows_run block s), Prog.bind_eq]
  exact Prog.run_bind_of_ok hget _

/-- An insert changes the block rows as `inserted` says, even when the tree fails. -/
theorem insertMergedBlock_blocks (block : CompactBlock) (s : Cache) :
    ((insertMergedBlock block).exec s).db.blocks = s.db.blocks.inserted block := by
  have hbackfill : ∀ tip t, ((backfillBlock block tip).exec t).db.blocks = t.db.blocks := by
    intro tip t
    have hframe := treeFrame_besideTrees tip t.besideTrees
    have hkeeps : (backfillBlock block tip).Keeps fun u => u.besideTrees = t.besideTrees :=
      (deleteSnapshotsAtOrAbove_keeps hframe _).bind fun _ =>
        rebuildTipMerkleTree_keeps hframe le_rfl
    exact congrArg Prod.fst (hkeeps.exec rfl)
  have hadvance : ∀ t, ((advanceTip block).exec t).db.blocks =
      t.db.blocks.setTip block.height block.hash := by
    intro t
    have hframe := treeFrame_besideTrees block.height
      (t.setBlocks (t.db.blocks.setTip block.height block.hash)).besideTrees
    exact congrArg Prod.fst
      ((appendCoinsToTipTree_keeps hframe le_rfl block.allCoins).exec rfl)
  have htip : (s.db.blocks.store block).readTip = s.db.blocks.readTip := rfl
  unfold insertMergedBlock Prog.exec
  rw [Prog.bind_eq, Prog.run_bind_of_ok (storeBlockRows_run block s), Prog.bind_eq, Prog.run_bind,
    getTip_run, setBlocks_blocks, htip]
  unfold BlockRows.inserted
  rcases s.db.blocks.readTip with e | _ | ⟨tip, hash⟩
  · rfl
  · exact hadvance _
  · simp only []
    by_cases hlt : block.height < tip
    · simp only [if_pos hlt]
      exact hbackfill _ _
    · simp only [if_neg hlt]
      exact hadvance _

/-- An insert stores the block with its pending clues merged in. -/
theorem insertCompactBlock_blocks (now : ℕ) (block : CompactBlock) (s : Cache) :
    ∃ merged : CompactBlock, merged.SameBeside block ∧
      ((insertCompactBlock now block).exec s).db.blocks = s.db.blocks.inserted merged := by
  obtain ⟨merged, s₁, hrun, hsame, hbeside⟩ := applyOmrClueHints_run now block s
  refine ⟨merged, hsame, ?_⟩
  have hexec : (insertCompactBlock now block).exec s = (insertMergedBlock merged).exec s₁ :=
    congrArg Prod.snd (Prog.run_bind_of_ok hrun _)
  have hblocks : s₁.db.blocks = s.db.blocks := congrArg Prod.fst hbeside
  rw [hexec, insertMergedBlock_blocks, hblocks]

/-- `rewind_tip` where the block row is none or readable. -/
theorem rewindTip_run {height : ℕ} {s : Cache}
    (h : ∀ bytes, s.db.blocks.compactBlocks.get height ≠ some (.raw bytes)) :
    (rewindTip height).run s = (.ok (), s.setBlocks (s.db.blocks.rewoundTip height)) := by
  unfold rewindTip getCompactBlock BlockRows.rewoundTip
  simp only [Prog.bind_eq, Prog.run_bind, Tree.run_get, compactBlocks]
  rcases hrow : s.db.blocks.compactBlocks.get height with _ | block | bytes
  · by_cases h0 : height = 0
    · simp only [if_pos h0]
      rfl
    · simp only [if_neg h0]
      rfl
  · rfl
  · exact absurd hrow (h bytes)

/-- Deleting rows leaves no undecodable block. -/
theorem BlockRows.foldl_delete_ne_raw {b : BlockRows} {height : ℕ} (heights : List ℕ)
    (h : ∀ bytes, b.compactBlocks.get height ≠ some (.raw bytes)) :
    ∀ bytes, (heights.foldl BlockRows.delete b).compactBlocks.get height ≠ some (.raw bytes) := by
  induction heights generalizing b with
  | nil => exact h
  | cons k heights ih =>
    apply ih
    intro bytes
    show (b.compactBlocks.remove k).get height ≠ _
    rw [OrderedMap.get_remove]
    by_cases hk : height = k
    · simp [hk]
    · simpa [hk] using h bytes

/-- A rewind changes the block rows as `rewound` says, even when the tree fails. -/
theorem rewindToHeight_run {height : ℕ} {s : Cache}
    (h : ∀ bytes, s.db.blocks.compactBlocks.get height ≠ some (.raw bytes)) :
    (rewindToHeight height).run s =
      ((deleteSnapshotsAbove height).bind fun _ => rebuildTipMerkleTree height).run
        (s.setBlocks (s.db.blocks.rewound height)) := by
  have hdel := deleteBlockRows_forEach_run
    (s.db.blocks.compactBlocks.filter fun k => decide (wrappingAdd height 1 ≤ k)).keys s
  have htip := rewindTip_run (s := s.setBlocks ((s.db.blocks.compactBlocks.filter fun k =>
    decide (wrappingAdd height 1 ≤ k)).keys.foldl BlockRows.delete s.db.blocks))
    (BlockRows.foldl_delete_ne_raw _ h)
  unfold rewindToHeight
  simp only [Prog.bind_eq]
  rw [Prog.run_bind_of_ok (Tree.run_keys compactBlocks _ s)]
  refine (Prog.run_bind_of_ok hdel _).trans ?_
  rw [Prog.run_bind_of_ok htip]
  rfl

/-- `prune_below_height` removes the rows below the height. -/
theorem pruneBelowHeight_run (minHeight : ℕ) (s : Cache) :
    (pruneBelowHeight minHeight).run s = (.ok (), s.setBlocks
      (s.db.blocks.deleteWhere fun h => decide (h < minHeight))) := by
  unfold pruneBelowHeight BlockRows.deleteWhere
  by_cases h0 : minHeight = 0
  · subst h0
    have hnone : (s.db.blocks.compactBlocks.filter fun h => decide (h < 0)).keys = [] := by
      apply List.eq_nil_iff_forall_not_mem.mpr
      intro k hk
      simp [OrderedMap.mem_keys_iff] at hk
    rw [if_pos rfl, hnone]
    rfl
  · have hbound : (fun h : ℕ => decide (h ≤ minHeight - 1)) = fun h => decide (h < minHeight) := by
      funext h
      rw [decide_eq_decide]
      omega
    rw [if_neg h0, hbound, Prog.bind_eq,
      Prog.run_bind_of_ok (Tree.run_keys compactBlocks _ s)]
    exact deleteBlockRows_forEach_run _ s

namespace BlockRows

/-! ## Rows after a deletion -/

section Delete

variable (b : BlockRows)

/-- The block rows left when heights are deleted. -/
theorem foldl_delete_compactBlocks (ks : List ℕ) :
    (ks.foldl delete b).compactBlocks = b.compactBlocks.removeAll ks := by
  induction ks generalizing b with
  | nil => rfl
  | cons k ks ih => rw [List.foldl_cons, ih]; rfl

/-- The hash rows left when heights are deleted. -/
theorem foldl_delete_blockHashes (ks : List ℕ) :
    (ks.foldl delete b).blockHashes = b.blockHashes.removeAll ks := by
  induction ks generalizing b with
  | nil => rfl
  | cons k ks ih => rw [List.foldl_cons, ih]; rfl

/-- The nullifier rows left when heights are deleted. -/
theorem foldl_delete_nullifiers (ks : List ℕ) :
    (ks.foldl delete b).nullifiers = b.nullifiers.removeAll ks := by
  induction ks generalizing b with
  | nil => rfl
  | cons k ks ih => rw [List.foldl_cons, ih]; rfl

/-- The coin rows left when heights are deleted. -/
theorem foldl_delete_coins (ks : List ℕ) :
    (ks.foldl delete b).coins = b.coins.removeAll ks := by
  induction ks generalizing b with
  | nil => rfl
  | cons k ks ih => rw [List.foldl_cons, ih]; rfl

/-- Deleting heights leaves the tip. -/
theorem foldl_delete_tip (ks : List ℕ) :
    (ks.foldl delete b).tipHeight = b.tipHeight ∧ (ks.foldl delete b).tipHash = b.tipHash := by
  induction ks generalizing b with
  | nil => exact ⟨rfl, rfl⟩
  | cons k ks ih => exact ih (b.delete k)

/-- The block rows left by a cut. -/
@[simp] theorem deleteWhere_compactBlocks (p : ℕ → Bool) :
    (b.deleteWhere p).compactBlocks = b.compactBlocks.filter fun h => !p h := by
  unfold deleteWhere
  rw [foldl_delete_compactBlocks, OrderedMap.removeAll_keys_filter]

/-- A cut leaves the height of the tip. -/
@[simp] theorem deleteWhere_tipHeight (p : ℕ → Bool) :
    (b.deleteWhere p).tipHeight = b.tipHeight := (foldl_delete_tip b _).1

/-- A cut leaves the hash of the tip. -/
@[simp] theorem deleteWhere_tipHash (p : ℕ → Bool) :
    (b.deleteWhere p).tipHash = b.tipHash := (foldl_delete_tip b _).2

/-- A cut leaves the tip. -/
@[simp] theorem deleteWhere_readTip (p : ℕ → Bool) : (b.deleteWhere p).readTip = b.readTip := by
  unfold readTip
  rw [deleteWhere_tipHeight, deleteWhere_tipHash]

end Delete

/-! ## Rows of stored blocks -/

/-- Every row belongs to a cached block, and a compact block sits at its own height. -/
structure Sound (b : BlockRows) : Prop where
  block : ∀ h row, b.compactBlocks.get h = some row →
    ∃ block, row = .value block ∧ block.height = h ∧ b.blockHashes.get h = some (.value block.hash)
  blockHashes : ∀ h, b.compactBlocks.get h = none → b.blockHashes.get h = none
  nullifiers : ∀ h, b.compactBlocks.get h = none → b.nullifiers.get h = none
  coins : ∀ h, b.compactBlocks.get h = none → b.coins.get h = none
  tip : b.tipHeight = none ∧ b.tipHash = none ∨
    ∃ t hash, b.tipHeight = some (.value t) ∧ b.tipHash = some (.value hash)

variable {b : BlockRows}

/-- No rows are sound. -/
theorem sound_empty : Sound .empty where
  block := by
    intro h row hrow
    cases hrow
  blockHashes := fun _ _ => rfl
  nullifiers := fun _ _ => rfl
  coins := fun _ _ => rfl
  tip := .inl ⟨rfl, rfl⟩

/-- The tip read is the tip written. -/
theorem readTip_setTip (h : ℕ) (hash : Bytes32) :
    (b.setTip h hash).readTip = .ok (some (h, hash)) := rfl

/-- Sound rows have a readable tip, or none. -/
theorem Sound.readTip (hb : b.Sound) : ∃ tip, b.readTip = .ok tip := by
  unfold BlockRows.readTip
  rcases hb.tip with ⟨hh, hhash⟩ | ⟨t, hash, hh, hhash⟩
  · exact ⟨none, by rw [hh]⟩
  · exact ⟨some (t, hash), by rw [hh, hhash]; rfl⟩

/-- Writing a tip keeps the rows sound. -/
theorem Sound.setTip (hb : b.Sound) (h : ℕ) (hash : Bytes32) : (b.setTip h hash).Sound :=
  ⟨hb.block, hb.blockHashes, hb.nullifiers, hb.coins, .inr ⟨h, hash, rfl, rfl⟩⟩

/-- An insertion in one tree whose key is also inserted in the tree of compact blocks. -/
theorem get_store_eq_none {V : Type} {m : OrderedMap ℕ V} {block : CompactBlock} {h : ℕ} {v : V}
    {q : Bool} (hm : b.compactBlocks.get h = none → m.get h = none)
    (hnone : (b.store block).compactBlocks.get h = none) :
    (if q then m else m.insert block.height v).get h = none := by
  have hget : (b.store block).compactBlocks.get h =
      if h = block.height then some (.value block) else b.compactBlocks.get h :=
    OrderedMap.get_insert _ _ _ _
  rw [hget] at hnone
  have hne : h ≠ block.height := fun heq => by simp [heq] at hnone
  rw [if_neg hne] at hnone
  cases q with
  | true => exact hm hnone
  | false =>
    show (m.insert block.height v).get h = none
    rw [OrderedMap.get_insert, if_neg hne]
    exact hm hnone

/-- Storing a block keeps the rows sound. -/
theorem Sound.store (hb : b.Sound) (block : CompactBlock) : (b.store block).Sound where
  block := by
    intro h row hrow
    have hget : (b.store block).compactBlocks.get h =
      if h = block.height then some (.value block) else b.compactBlocks.get h :=
      OrderedMap.get_insert _ _ _ _
    have hhash : (b.store block).blockHashes.get h =
      if h = block.height then some (.value block.hash) else b.blockHashes.get h :=
      OrderedMap.get_insert _ _ _ _
    rw [hget] at hrow
    by_cases heq : h = block.height
    · rw [if_pos heq] at hrow hhash
      cases hrow
      exact ⟨block, rfl, heq.symm, hhash⟩
    · rw [if_neg heq] at hrow hhash
      obtain ⟨block', h1, h2, h3⟩ := hb.block h row hrow
      exact ⟨block', h1, h2, hhash.trans h3⟩
  blockHashes := fun h hnone => get_store_eq_none (q := false) (hb.blockHashes h) hnone
  nullifiers := fun h hnone => get_store_eq_none (hb.nullifiers h) hnone
  coins := fun h hnone => get_store_eq_none (hb.coins h) hnone
  tip := hb.tip

/-- Inserting a block keeps the rows sound. -/
theorem Sound.inserted (hb : b.Sound) (block : CompactBlock) : (b.inserted block).Sound := by
  obtain ⟨tip, htip⟩ := hb.readTip
  unfold BlockRows.inserted
  rw [htip]
  cases tip with
  | none => exact (hb.store block).setTip _ _
  | some tip =>
    simp only []
    by_cases hlt : block.height < tip.1
    · rw [if_pos hlt]
      exact hb.store block
    · rw [if_neg hlt]
      exact (hb.store block).setTip _ _

section DeleteSound

variable (hb : b.Sound) (p : ℕ → Bool)
include hb

/-- The hash rows left by a cut of sound rows. -/
theorem Sound.deleteWhere_blockHashes :
    (b.deleteWhere p).blockHashes = b.blockHashes.filter fun h => !p h := by
  unfold BlockRows.deleteWhere
  rw [foldl_delete_blockHashes, OrderedMap.removeAll_keys_filter_of_support hb.blockHashes]

/-- The nullifier rows left by a cut of sound rows. -/
theorem Sound.deleteWhere_nullifiers :
    (b.deleteWhere p).nullifiers = b.nullifiers.filter fun h => !p h := by
  unfold BlockRows.deleteWhere
  rw [foldl_delete_nullifiers, OrderedMap.removeAll_keys_filter_of_support hb.nullifiers]

/-- The coin rows left by a cut of sound rows. -/
theorem Sound.deleteWhere_coins :
    (b.deleteWhere p).coins = b.coins.filter fun h => !p h := by
  unfold BlockRows.deleteWhere
  rw [foldl_delete_coins, OrderedMap.removeAll_keys_filter_of_support hb.coins]

/-- A cut keeps the rows sound. -/
theorem Sound.deleteWhere : (b.deleteWhere p).Sound := by
  have hnone : ∀ {V : Type} (m : OrderedMap ℕ V) (h : ℕ),
      (b.compactBlocks.get h = none → m.get h = none) →
      (b.deleteWhere p).compactBlocks.get h = none → (m.filter fun h => !p h).get h = none := by
    intro V m h hm hdel
    rw [deleteWhere_compactBlocks, OrderedMap.get_filter] at hdel
    rw [OrderedMap.get_filter]
    by_cases hp : (!p h) = true
    · rw [if_pos hp] at hdel ⊢
      exact hm hdel
    · rw [if_neg hp]
  refine ⟨?_, ?_, ?_, ?_, ?_⟩
  · intro h row hrow
    rw [deleteWhere_compactBlocks, OrderedMap.get_filter] at hrow
    by_cases hp : (!p h) = true
    · rw [if_pos hp] at hrow
      obtain ⟨block, h1, h2, h3⟩ := hb.block h row hrow
      refine ⟨block, h1, h2, ?_⟩
      rw [hb.deleteWhere_blockHashes, OrderedMap.get_filter, if_pos hp]
      exact h3
    · rw [if_neg hp] at hrow
      cases hrow
  · intro h hdel
    rw [hb.deleteWhere_blockHashes]
    exact hnone _ h (hb.blockHashes h) hdel
  · intro h hdel
    rw [hb.deleteWhere_nullifiers]
    exact hnone _ h (hb.nullifiers h) hdel
  · intro h hdel
    rw [hb.deleteWhere_coins]
    exact hnone _ h (hb.coins h) hdel
  · rw [deleteWhere_tipHeight, deleteWhere_tipHash]
    exact hb.tip

end DeleteSound

/-- A rewind keeps the rows sound. -/
theorem Sound.rewound (hb : b.Sound) (height : ℕ) : (b.rewound height).Sound := by
  have hdel := hb.deleteWhere fun h => decide (wrappingAdd height 1 ≤ h)
  unfold BlockRows.rewound BlockRows.rewoundTip
  rcases hrow : (b.deleteWhere fun h => decide (wrappingAdd height 1 ≤ h)).compactBlocks.get height
    with _ | block | bytes
  · by_cases h0 : height = 0
    · simp only [if_pos h0]
      exact ⟨hdel.block, hdel.blockHashes, hdel.nullifiers, hdel.coins, .inl ⟨rfl, rfl⟩⟩
    · simp only [if_neg h0]
      exact hdel
  · exact hdel.setTip _ _
  · exact hdel

end BlockRows

end LightWalletd
