import LightWalletd.Analysis.ChainCommands

/-!
# What each function leaves alone

The functions of the Money tree never touch a block row, whatever state they start
in and whether or not they succeed; the functions of the clue trees touch nothing
else. Both are stated with `Keeps`, so they hold of every state on the way as well
as of the last one.
-/

set_option autoImplicit false

namespace LightWalletd

open Stateful

/-- What the Money tree does not belong to. -/
def Cache.besideTrees (s : Cache) : BlockRows × OmrRows × ServerRows :=
  (s.db.blocks, s.db.omr, s.db.server)

/-- What the clue trees do not belong to. -/
def Cache.besideOmr (s : Cache) : BlockRows × TreeRows × ServerRows × LiveTipTree :=
  (s.db.blocks, s.db.trees, s.db.server, s.tipTree)

/-! ## Frames of single commands -/

section Commands

variable {I : Cache → Prop} {K V : Type} [LinearOrder K]

/-- Raising a known result changes nothing. -/
theorem keeps_liftExcept {α : Type} (r : Except LightWalletError α) :
    (liftExcept r).Keeps I := by
  cases r with
  | ok a => exact Prog.keeps_ret a
  | error e => exact Prog.keeps_fail e

/-- An insert keeps what every update of the tree keeps. -/
theorem Tree.keeps_insert {t : Tree K V}
    (h : ∀ s m, I s → I { s with db := t.upd m s.db }) (k : K) (v : V) : (t.insert k v).Keeps I :=
  Prog.keeps_put _ fun s hs => h s _ hs

/-- A removal keeps it too. -/
theorem Tree.keeps_remove {t : Tree K V}
    (h : ∀ s m, I s → I { s with db := t.upd m s.db }) (k : K) : (t.remove k).Keeps I :=
  Prog.keeps_swap _ _ fun s hs => h s _ hs

/-- A metadata key is written keeping what every update of it keeps. -/
theorem Cell.keeps_insert {c : Cell V}
    (h : ∀ s v, I s → I { s with db := c.upd v s.db }) (v : V) : (c.insert v).Keeps I :=
  Prog.keeps_put _ fun s hs => h s _ hs

end Commands

/-! ## The Money tree -/

/-- A property that no write of the Money tree can break, snapshots above `bound` apart. -/
structure TreeFrame (bound : ℕ) (I : Cache → Prop) : Prop where
  snapshot : ∀ s k v, k ≤ bound → I s → I (s.setSnapshots (s.db.trees.merkleSnapshots.insert k v))
  removed : ∀ s k, I s → I (s.setSnapshots (s.db.trees.merkleSnapshots.remove k))
  tipKeys : ∀ s tree height, I s → I (s.setTrees
    { s.db.trees with tipMerkleTree := tree, tipMerkleHeight := height })
  live : ∀ s live, I s → I (s.setLive live)

/-- What lies beside the tree rows is such a property. -/
theorem treeFrame_besideTrees (bound : ℕ) (p : BlockRows × OmrRows × ServerRows) :
    TreeFrame bound fun s => s.besideTrees = p :=
  ⟨fun _ _ _ _ h => h, fun _ _ h => h, fun _ _ _ h => h, fun _ _ h => h⟩

/-- The programs whose commands keep such a property have the writes of the Money tree. -/
theorem TreeFrame.commands {bound : ℕ} {I : Cache → Prop} (hI : TreeFrame bound I) :
    TreeCommands bound fun _ p => p.Keeps I where
  toChainReads := chainReads_keeps I
  insertSnapshot k v hk := Prog.keeps_put _ fun s hs => hI.snapshot s k v hk hs
  removeSnapshot k := Prog.keeps_swap _ _ fun s hs => hI.removed s k hs
  insertTree _ := Prog.keeps_put _ fun s hs => hI.tipKeys s _ _ hs
  removeTree := Prog.keeps_put _ fun s hs => hI.tipKeys s _ _ hs
  insertHeight _ := Prog.keeps_put _ fun s hs => hI.tipKeys s _ _ hs
  removeHeight := Prog.keeps_put _ fun s hs => hI.tipKeys s _ _ hs
  setLive _ := Prog.keeps_update fun s hs => hI.live s _ hs

section Reads

variable {I : Cache → Prop}

/-- `get_tip_tree_state` changes nothing. -/
theorem getTipTreeState_keeps : getTipTreeState.Keeps I := (chainReads_keeps I).getTipTreeState

/-- `get_tip` changes nothing. -/
theorem getTip_keeps : getTip.Keeps I := (chainReads_keeps I).getTip

/-- `get_compact_block` changes nothing. -/
theorem getCompactBlock_keeps (height : ℕ) : (getCompactBlock height).Keeps I :=
  (chainReads_keeps I).getCompactBlock height

/-- `get_coins_range` changes nothing. -/
theorem getCoinsRange_keeps (start last : ℕ) : (getCoinsRange start last).Keeps I :=
  (chainReads_keeps I).getCoinsRange start last

/-- `seed_snapshot` writes tree rows only. -/
theorem seedSnapshot_keeps (tipHeight : ℕ) : (seedSnapshot tipHeight).Keeps I :=
  (chainReads_keeps I).seedSnapshot tipHeight

end Reads

section MoneyTree

variable {I : Cache → Prop} {bound : ℕ} (hI : TreeFrame bound I)
include hI

/-- `delete_snapshots_at_or_above` writes tree rows only. -/
theorem deleteSnapshotsAtOrAbove_keeps (height : ℕ) : (deleteSnapshotsAtOrAbove height).Keeps I :=
  hI.commands.deleteSnapshotsAtOrAbove height

/-- `delete_snapshots_above` writes tree rows only. -/
theorem deleteSnapshotsAbove_keeps (height : ℕ) : (deleteSnapshotsAbove height).Keeps I :=
  hI.commands.deleteSnapshotsAbove height

/-- A rebuild writes tree rows only, and no snapshot above its height. -/
theorem rebuildTipMerkleTree_keeps {tip : ℕ} (htip : tip ≤ bound) :
    (rebuildTipMerkleTree tip).Keeps I :=
  hI.commands.rebuildTipMerkleTree htip

/-- An append writes tree rows only, and no snapshot above its height. -/
theorem appendCoinsToTipTree_keeps {height : ℕ} (h : height ≤ bound) (cs : List Bytes32) :
    (appendCoinsToTipTree height cs).Keeps I :=
  hI.commands.appendCoinsToTipTree h cs

end MoneyTree

/-- The programs whose commands keep a property that no write of blocks or of the Money tree can
break have all these writes. -/
theorem chainCommands_keeps {I : Cache → Prop} (htree : ∀ bound, TreeFrame bound I)
    (hblocks : ∀ s b, I s → I { s with db := { s.db with blocks := b } }) :
    ChainCommands (fun _ => True) fun _ p => p.Keeps I where
  tree bound := (htree bound).commands
  storeBlock _ _ _ := Prog.keeps_put _ fun s hs => hblocks s _ hs
  removeBlock _ := Prog.keeps_swap _ _ fun s hs => hblocks s _ hs
  putRows _ _ := Prog.keeps_put _ fun s hs => hblocks s _ hs
  swapRows _ _ _ := Prog.keeps_swap _ _ fun s hs => hblocks s _ hs

/-! ## The clue trees -/

/-- A property that survives changes of pending clues and metadata. -/
structure ClueFrame (I : Cache → Prop) : Prop where
  hints : ∀ s m, I s → I { s with db := omrClueHints.upd m s.db }
  stamps : ∀ s m, I s → I { s with db := omrClueHintMeta.upd m s.db }
  metadata : ∀ s m, I s → I { s with db := omrMetadataEnc.upd m s.db }
  swept : ∀ s now, I s → I { s with omrHintSweepUnix := now }

namespace ClueFrame

variable {I : Cache → Prop} (hI : ClueFrame I)

include hI

/-- `remove_omr_clue_hint` stays within the clue rows. -/
theorem removeOmrClueHint (txHash : Bytes32) : (removeOmrClueHint txHash).Keeps I := by
  refine (Tree.keeps_remove hI.hints _).bind fun _ => ?_
  exact (Tree.keeps_remove hI.stamps _).bind fun _ => Prog.keeps_ret _

/-- `drop_omr_clue_hint_if_expired` stays within the clue rows. -/
theorem dropOmrClueHintIfExpired (now : ℕ) (txHash : Bytes32) :
    (dropOmrClueHintIfExpired now txHash).Keeps I := by
  refine (Prog.keeps_get _).bind fun row => ?_
  cases row with
  | none => exact Prog.keeps_ret _
  | some value =>
    refine Prog.Keeps.ite ?_ (Prog.keeps_ret _)
    exact (hI.removeOmrClueHint _).bind fun _ => Prog.keeps_ret _

/-- `merge_tx_clues` stays within the clue rows. -/
theorem mergeTxClues (now : ℕ) (tx : CompactTx) : (mergeTxClues now tx).Keeps I := by
  refine (hI.dropOmrClueHintIfExpired _ _).bind fun dropped => ?_
  refine Prog.Keeps.ite (Prog.keeps_ret _) ?_
  refine (Prog.keeps_get _).bind fun row => ?_
  cases row with
  | none => exact Prog.keeps_ret _
  | some stored =>
    refine Prog.Keeps.ite ?_ (Prog.keeps_ret _)
    exact (hI.removeOmrClueHint _).bind fun _ => Prog.keeps_ret _

/-- `merge_tx_metadata` stays within the clue rows. -/
theorem mergeTxMetadata (tx : CompactTx) : (mergeTxMetadata tx).Keeps I := by
  refine (Prog.keeps_get _).bind fun row => ?_
  cases row with
  | none => exact Prog.keeps_ret _
  | some stored => exact (Tree.keeps_remove hI.metadata _).bind fun _ => Prog.keeps_ret _

/-- `apply_omr_clue_hints` stays within the clue rows. -/
theorem applyOmrClueHints (now : ℕ) (block : CompactBlock) :
    (applyOmrClueHints now block).Keeps I := by
  refine Prog.Keeps.bind (Prog.Keeps.mapEach (fun tx => ?_) _) fun _ => Prog.keeps_ret _
  exact (hI.mergeTxClues now tx).bind fun tx => hI.mergeTxMetadata tx

/-- `prune_expired_omr_clue_hints` stays within the clue rows. -/
theorem pruneExpiredOmrClueHints (now : ℕ) : (pruneExpiredOmrClueHints now).Keeps I := by
  have hsweep : (sweepExpiredOmrClueHintsAt now).Keeps I := by
    refine (Prog.keeps_get _).bind fun rows => ?_
    exact Prog.Keeps.forEach (fun txHash => hI.removeOmrClueHint txHash) _
  refine (Prog.keeps_get _).bind fun prev => Prog.Keeps.ite (Prog.keeps_ret _) ?_
  refine Prog.Keeps.bind (Prog.keeps_update fun s h => hI.swept s now h) fun _ =>
    hsweep.attempt.bind fun r => ?_
  cases r with
  | ok _ => exact Prog.keeps_ret _
  | error e =>
    exact Prog.Keeps.bind (Prog.keeps_update fun s h => hI.swept s prev h) fun _ =>
      Prog.keeps_fail e

/-- `store_omr_clue_hint` stays within the clue rows. -/
theorem storeOmrClueHint (now : ℕ) (txHash : Bytes32) (clue : Bytes) (outputIndex : Option ℕ) :
    (storeOmrClueHint now txHash clue outputIndex).Keeps I := by
  refine Prog.Keeps.ite (Prog.keeps_ret _) ?_
  refine (hI.pruneExpiredOmrClueHints now).bind fun _ => ?_
  refine (hI.dropOmrClueHintIfExpired now txHash).bind fun _ => ?_
  refine Prog.Keeps.bind (Prog.keeps_get _) fun stored => Prog.Keeps.ite (Prog.keeps_ret _) ?_
  refine (Tree.keeps_insert hI.hints _ _).bind fun _ => ?_
  exact Tree.keeps_insert hI.stamps _ _

end ClueFrame

section ClueTrees

variable {p : BlockRows × TreeRows × ServerRows × LiveTipTree}

/-- The frame of the clue functions. -/
abbrev BesideOmr (p : BlockRows × TreeRows × ServerRows × LiveTipTree) (s : Cache) : Prop :=
  s.besideOmr = p

/-- What does not read the clue rows survives every change of them. -/
theorem clueFrame_besideOmr : ClueFrame (BesideOmr p) :=
  ⟨fun _ _ h => h, fun _ _ h => h, fun _ _ h => h, fun _ _ h => h⟩

/-- Merging pending clues writes clue rows only. -/
theorem applyOmrClueHints_keeps (now : ℕ) (block : CompactBlock) :
    (applyOmrClueHints now block).Keeps (BesideOmr p) :=
  clueFrame_besideOmr.applyOmrClueHints now block

/-- `prune_expired_omr_clue_hints` changes nothing beside the clue rows. -/
theorem pruneExpiredOmrClueHints_keeps (now : ℕ) :
    (pruneExpiredOmrClueHints now).Keeps (BesideOmr p) :=
  clueFrame_besideOmr.pruneExpiredOmrClueHints now

end ClueTrees

/-! ## What merging leaves in a block -/

/-- A change of one element that `g` does not see. -/
theorem map_modify_of_forall {α β : Type} (g : α → β) (f : α → α) (h : ∀ a, g (f a) = g a)
    (i : ℕ) (l : List α) : (l.modify i f).map g = l.map g := by
  apply List.ext_getElem?
  intro j
  rw [List.getElem?_map, List.getElem?_map, List.getElem?_modify]
  cases l[j]? with
  | none => rfl
  | some a => by_cases hij : i = j <;> simp [hij, h]

/-- Filling a clue in leaves the coins. -/
theorem map_coin_fillClueAt (i : ℕ) (clue : Bytes) (outputs : List CompactOutput) :
    (fillClueAt i clue outputs).map CompactOutput.coin = outputs.map CompactOutput.coin := by
  unfold fillClueAt
  apply map_modify_of_forall
  intro o
  by_cases h : o.omrClue.isEmpty <;> simp [h]

/-- Filling metadata in leaves the coins. -/
theorem map_coin_fillMetadataAt (i : ℕ) (enc : Bytes) (outputs : List CompactOutput) :
    (fillMetadataAt i enc outputs).map CompactOutput.coin = outputs.map CompactOutput.coin := by
  unfold fillMetadataAt
  apply map_modify_of_forall
  intro o
  by_cases h : o.omrMetadataEnc.isEmpty <;> simp [h]

/-- Merging a clue leaves the coins. -/
theorem map_coin_mergeClue (outputs : List CompactOutput) (clue : Option ℕ × Bytes) :
    (mergeClue outputs clue).map CompactOutput.coin = outputs.map CompactOutput.coin := by
  obtain ⟨idx, clue⟩ := clue
  unfold mergeClue
  by_cases h : (clue.isEmpty || outputs.any fun o => o.omrClue == clue) = true
  · simp only [h, if_true]
  · simp only [h, Bool.false_eq_true, if_false]
    cases idx with
    | none => exact map_coin_fillClueAt _ _ _
    | some i => exact map_coin_fillClueAt _ _ _

/-- Merging clues leaves the coins. -/
theorem map_coin_foldl_mergeClue (clues : List (Option ℕ × Bytes)) (outputs : List CompactOutput) :
    (clues.foldl mergeClue outputs).map CompactOutput.coin = outputs.map CompactOutput.coin := by
  induction clues generalizing outputs with
  | nil => rfl
  | cons clue clues ih => rw [List.foldl_cons, ih, map_coin_mergeClue]

/-- Merging metadata keeps what filling it in keeps. -/
theorem map_mergeMetadata {β : Type} {f : CompactOutput → β}
    (hf : ∀ i enc outputs, (fillMetadataAt i enc outputs).map f = outputs.map f)
    (outputs : List CompactOutput) (stored : Bytes) :
    (mergeMetadata outputs stored).map f = outputs.map f := by
  unfold mergeMetadata
  obtain ⟨idx, enc⟩ := parseStoredOmrClueHint stored
  by_cases h : enc.isEmpty = true
  · simp only [h, if_true]
  · simp only [h, Bool.false_eq_true, if_false]
    cases idx with
    | none => exact hf _ _ _
    | some i => exact hf _ _ _

/-- Merging metadata leaves the coins. -/
theorem map_coin_mergeMetadata (outputs : List CompactOutput) (stored : Bytes) :
    (mergeMetadata outputs stored).map CompactOutput.coin = outputs.map CompactOutput.coin :=
  map_mergeMetadata map_coin_fillMetadataAt outputs stored

/-- Two transactions that differ in their clue fields at most. -/
def CompactTx.SameBeside (tx tx' : CompactTx) : Prop :=
  tx.txHash = tx'.txHash ∧ tx.outputs.map CompactOutput.coin = tx'.outputs.map CompactOutput.coin ∧
    tx.nullifiers = tx'.nullifiers ∧ tx.fee = tx'.fee

/-- Two blocks that differ in their clue fields at most. -/
structure CompactBlock.SameBeside (b b' : CompactBlock) : Prop where
  height : b.height = b'.height
  hash : b.hash = b'.hash
  prevHash : b.prevHash = b'.prevHash
  timestamp : b.timestamp = b'.timestamp
  daoCalls : b.daoCalls = b'.daoCalls
  funcEvents : b.funcEvents = b'.funcEvents
  txs : List.Forall₂ CompactTx.SameBeside b.txs b'.txs

/-- Blocks that are the same beside clues have the same coins. -/
theorem CompactBlock.SameBeside.allCoins {b b' : CompactBlock} (h : b.SameBeside b') :
    b.allCoins = b'.allCoins :=
  flatMap_eq_of_forall₂ (h.txs.imp fun _ _ ht => ht.2.1)

/-- And the same nullifiers. -/
theorem CompactBlock.SameBeside.allNullifiers {b b' : CompactBlock} (h : b.SameBeside b') :
    b.allNullifiers = b'.allNullifiers :=
  flatMap_eq_of_forall₂ (h.txs.imp fun _ _ ht => ht.2.2.1)

/-- A transaction is the same as itself. -/
theorem CompactTx.SameBeside.refl (tx : CompactTx) : tx.SameBeside tx := ⟨rfl, rfl, rfl, rfl⟩

/-- Two changes of clues are one. -/
theorem CompactTx.SameBeside.trans {a b c : CompactTx} (hab : a.SameBeside b)
    (hbc : b.SameBeside c) : a.SameBeside c :=
  ⟨hab.1.trans hbc.1, hab.2.1.trans hbc.2.1, hab.2.2.1.trans hbc.2.2.1, hab.2.2.2.trans hbc.2.2.2⟩

/-- `remove_omr_clue_hint` does not fail. -/
theorem removeOmrClueHint_run (txHash : Bytes32) (s : Cache) :
    ∃ s', (removeOmrClueHint txHash).run s = (.ok (), s') := by
  unfold removeOmrClueHint
  simp [Prog.run_bind]

/-- `drop_omr_clue_hint_if_expired` does not fail. -/
theorem dropOmrClueHintIfExpired_run (now : ℕ) (txHash : Bytes32) (s : Cache) :
    ∃ dropped s', (dropOmrClueHintIfExpired now txHash).run s = (.ok dropped, s') := by
  unfold dropOmrClueHintIfExpired
  cases hrow : omrClueHintMeta.sel s.db |>.get txHash with
  | none => simp [Prog.run_bind, hrow]
  | some value =>
    obtain ⟨s', hs'⟩ := removeOmrClueHint_run txHash s
    by_cases hexp : omrHintMetaExpired value now = true
    · simp [Prog.run_bind, hrow, hexp, hs']
    · simp [Prog.run_bind, hrow, hexp]

/-- `merge_tx_clues` does not fail, and changes clues only. -/
theorem mergeTxClues_run (now : ℕ) (tx : CompactTx) (s : Cache) :
    ∃ tx' s', (mergeTxClues now tx).run s = (.ok tx', s') ∧ tx'.SameBeside tx := by
  obtain ⟨dropped, s₁, hdrop⟩ := dropOmrClueHintIfExpired_run now tx.txHash s
  unfold mergeTxClues
  rw [Prog.bind_eq, Prog.run_bind_of_ok hdrop]
  cases dropped with
  | true => exact ⟨tx, s₁, rfl, .refl tx⟩
  | false =>
    cases hrow : omrClueHints.sel s₁.db |>.get tx.txHash with
    | none =>
      refine ⟨tx, s₁, ?_, .refl tx⟩
      simp [Prog.run_bind, hrow]
    | some stored =>
      by_cases hall : ((decodeOmrClueHints stored).all fun c => c.2.isEmpty) = true
      · obtain ⟨s₂, hs₂⟩ := removeOmrClueHint_run tx.txHash s₁
        refine ⟨tx, s₂, ?_, .refl tx⟩
        simp only [Bool.false_eq_true, if_false, Prog.bind_eq]
        rw [Prog.run_bind_of_ok (Tree.run_get _ _ _), hrow]
        simp only [hall, if_true, Prog.run_bind_of_ok hs₂]
        rfl
      · refine ⟨{ tx with outputs := (decodeOmrClueHints stored).foldl mergeClue tx.outputs }, s₁,
          ?_, rfl, map_coin_foldl_mergeClue _ _, rfl, rfl⟩
        simp only [Bool.false_eq_true, if_false, Prog.bind_eq]
        rw [Prog.run_bind_of_ok (Tree.run_get _ _ _), hrow]
        simp only [hall, Bool.false_eq_true, if_false]
        rfl

/-- `merge_tx_metadata` does not fail, and changes metadata only. -/
theorem mergeTxMetadata_run (tx : CompactTx) (s : Cache) :
    ∃ tx' s', (mergeTxMetadata tx).run s = (.ok tx', s') ∧ tx'.SameBeside tx := by
  unfold mergeTxMetadata
  cases hrow : omrMetadataEnc.sel s.db |>.get tx.txHash with
  | none =>
    refine ⟨tx, s, ?_, .refl tx⟩
    simp [Prog.run_bind, hrow]
  | some stored =>
    refine ⟨{ tx with outputs := mergeMetadata tx.outputs stored },
      (omrMetadataEnc.remove tx.txHash).exec s, ?_, rfl, map_coin_mergeMetadata _ _, rfl, rfl⟩
    rw [Prog.bind_eq, Prog.run_bind_of_ok (Tree.run_get _ _ _), hrow]
    rfl

/-- Merging succeeds, and what it returns differs from the block in clue fields at most. -/
theorem applyOmrClueHints_run (now : ℕ) (block : CompactBlock) (s : Cache) :
    ∃ merged s', (applyOmrClueHints now block).run s = (.ok merged, s') ∧
      merged.SameBeside block ∧ s'.besideOmr = s.besideOmr := by
  have hmap : ∀ (txs : List CompactTx) (s : Cache), ∃ txs' s',
      (Prog.mapEach (fun tx => (mergeTxClues now tx).bind mergeTxMetadata) txs).run s =
        (.ok txs', s') ∧ List.Forall₂ CompactTx.SameBeside txs' txs := by
    intro txs
    induction txs with
    | nil => exact fun s => ⟨[], s, rfl, .nil⟩
    | cons tx txs ih =>
      intro s
      obtain ⟨tx₁, s₁, hrun₁, hsame₁⟩ := mergeTxClues_run now tx s
      obtain ⟨tx₂, s₂, hrun₂, hsame₂⟩ := mergeTxMetadata_run tx₁ s₁
      obtain ⟨txs', s₃, hrun₃, hsame₃⟩ := ih s₂
      refine ⟨tx₂ :: txs', s₃, ?_, .cons (hsame₂.trans hsame₁) hsame₃⟩
      have hfirst : ((mergeTxClues now tx).bind mergeTxMetadata).run s = (.ok tx₂, s₂) :=
        (Prog.run_bind_of_ok hrun₁ _).trans hrun₂
      unfold Prog.mapEach
      rw [Prog.run_bind_of_ok hfirst, Prog.run_bind_of_ok hrun₃]
      rfl
  obtain ⟨txs', s', hrun, hsame⟩ := hmap block.txs s
  have hwhole : (applyOmrClueHints now block).run s = (.ok { block with txs := txs' }, s') :=
    Prog.run_bind_of_ok hrun _
  exact ⟨_, s', hwhole, ⟨rfl, rfl, rfl, rfl, rfl, rfl, hsame⟩,
    (applyOmrClueHints_keeps now block).run rfl hwhole⟩

end LightWalletd
