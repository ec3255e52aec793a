import LightWalletd.Analysis.TreeReplies

/-!
# Block rows on the way

While a call of the poller runs, every compact block is one of the longer of the two chains,
before and after the call. The height and the hash under the tip keys are written one after the
other, the height first, so the height fits the hash that is stored after the next command.
-/

set_option autoImplicit false

namespace LightWalletd

open Stateful

/-- The compact blocks are among those of `top`. -/
def BlockRows.Among (top : List CompactBlock) (b : BlockRows) : Prop :=
  ∀ k row, b.compactBlocks.get k = some row → ∃ block, top[k]? = some block ∧ row = .value block

/-- The height and the hash under the tip keys. -/
def BlockRows.tipKeys (b : BlockRows) : Option (Stored ℕ) × Option (Stored Bytes32) :=
  (b.tipHeight, b.tipHash)

/-- A height and a hash belong together: they are those of one block of `top`, or there is
neither. -/
def TipFits (top : List CompactBlock) (keys : Option (Stored ℕ) × Option (Stored Bytes32)) : Prop :=
  keys = (none, none) ∨
    ∃ h block, top[h]? = some block ∧ keys = (some (.value h), some (.value block.hash))

/-- While no command writes the tip keys. -/
structure TipSteady (top : List CompactBlock) (keys : Option (Stored ℕ) × Option (Stored Bytes32))
    (s : Cache) : Prop where
  among : s.db.blocks.Among top
  tipKeys : s.db.blocks.tipKeys = keys

/-- Neighbouring states of a call. -/
structure BlockStep (top : List CompactBlock) (s s' : Cache) : Prop where
  before : s.db.blocks.Among top
  after : s'.db.blocks.Among top
  fits : TipFits top (s.db.blocks.tipHeight, s'.db.blocks.tipHash)

section Steady

variable {top chain : List CompactBlock} {s s' : Cache}
  {keys : Option (Stored ℕ) × Option (Stored Bytes32)}

/-- Between steady states with fitting keys the blocks step. -/
theorem TipSteady.step (hkeys : TipFits top keys) (hs : TipSteady top keys s)
    (hs' : TipSteady top keys s') : BlockStep top s s' := by
  refine ⟨hs.among, hs'.among, ?_⟩
  have hheight : s.db.blocks.tipHeight = keys.1 := congrArg Prod.fst hs.tipKeys
  have hhash : s'.db.blocks.tipHash = keys.2 := congrArg Prod.snd hs'.tipKeys
  rw [hheight, hhash]
  exact hkeys

/-- Steadiness depends on the block rows only. -/
theorem TipSteady.congr (hs : TipSteady top keys s) (h : s'.db.blocks = s.db.blocks) :
    TipSteady top keys s' := by
  refine ⟨?_, ?_⟩
  · rw [h]
    exact hs.among
  · rw [h]
    exact hs.tipKeys

/-- No write of the Money tree matters. -/
theorem treeFrame_tipSteady (bound : ℕ) : TreeFrame bound (TipSteady top keys) :=
  ⟨fun _ _ _ _ h => h.congr rfl, fun _ _ h => h.congr rfl, fun _ _ _ h => h.congr rfl,
    fun _ _ h => h.congr rfl⟩

/-- The rows of a chain state are among the chain. -/
theorem ChainState.among (hs : ChainState chain s) : s.db.blocks.Among chain := by
  intro k row hrow
  rw [hs.rows.compactBlocks] at hrow
  obtain ⟨block, hblock, rfl⟩ := Option.map_eq_some_iff.mp hrow
  exact ⟨block, hblock, rfl⟩

/-- Its tip keys fit. -/
theorem ChainState.tipFits (hs : ChainState chain s) : TipFits chain s.db.blocks.tipKeys := by
  unfold BlockRows.tipKeys
  rcases hs.tip with ⟨hheight, hhash, -⟩ | ⟨t, hash, hheight, hhash, -⟩
  · rw [hheight, hhash]
    exact Or.inl rfl
  · have hread := hs.readTip
    unfold BlockRows.readTip at hread
    rw [hheight, hhash] at hread
    have htip : chainTip chain = some (t, hash) := (Except.ok.inj hread).symm
    obtain ⟨block, hblock, -, rfl⟩ := chainTip_eq_some_iff.mp htip
    rw [hheight, hhash]
    exact Or.inr ⟨t, block, hblock, rfl⟩

/-- It is steady at its own keys. -/
theorem ChainState.tipSteady (hs : ChainState chain s) :
    TipSteady chain s.db.blocks.tipKeys s := ⟨hs.among, rfl⟩

/-- Keys that fit an initial part fit the whole. -/
theorem TipFits.mono (hkeys : TipFits chain keys) (hpre : chain <+: top) : TipFits top keys := by
  rcases hkeys with hnone | ⟨h, block, hblock, heq⟩
  · exact Or.inl hnone
  · have hlt := (List.getElem?_eq_some_iff.mp hblock).1
    exact Or.inr ⟨h, block, (getElem?_of_initial hpre hlt).trans hblock, heq⟩

/-- A state steady over an initial part is steady over the whole. -/
theorem TipSteady.mono (hs : TipSteady chain keys s) (hpre : chain <+: top) :
    TipSteady top keys s := by
  refine ⟨fun k row hrow => ?_, hs.tipKeys⟩
  obtain ⟨block, hblock, rfl⟩ := hs.among k row hrow
  have hlt := (List.getElem?_eq_some_iff.mp hblock).1
  exact ⟨block, (getElem?_of_initial hpre hlt).trans hblock, rfl⟩

/-! ## Rows -/

/-- The rows of a block of the chain can be written. -/
theorem storeBlockRows_tipSteady {block : CompactBlock} (hblock : top[block.height]? = some block) :
    (storeBlockRows block).Keeps (TipSteady top keys) := by
  have hcoins : (if block.allCoins.isEmpty then Prog.ret ()
      else coins.insert block.height (.value block.allCoins)).Keeps (TipSteady top keys) :=
    Prog.Keeps.ite (Prog.keeps_ret _) (Prog.keeps_put _ fun s hs => ⟨hs.among, hs.tipKeys⟩)
  unfold storeBlockRows
  refine Prog.Keeps.bind (Prog.keeps_put _ fun s hs => ?_) fun _ => ?_
  · refine ⟨fun k row hrow => ?_, hs.tipKeys⟩
    change (s.db.blocks.compactBlocks.insert block.height _).get k = some row at hrow
    rw [OrderedMap.get_insert] at hrow
    by_cases hk : k = block.height
    · rw [if_pos hk] at hrow
      cases hrow
      rw [hk]
      exact ⟨block, hblock, rfl⟩
    · rw [if_neg hk] at hrow
      exact hs.among k row hrow
  · refine Prog.Keeps.bind (Prog.keeps_put _ fun s hs => ⟨hs.among, hs.tipKeys⟩) fun _ => ?_
    refine Prog.Keeps.bind (Prog.keeps_put _ fun s hs => ⟨hs.among, hs.tipKeys⟩) fun _ => ?_
    refine Prog.Keeps.ite hcoins ?_
    exact Prog.Keeps.bind (Prog.keeps_put _ fun s hs => ⟨hs.among, hs.tipKeys⟩) fun _ => hcoins

/-- The rows of a height can be deleted. -/
theorem deleteBlockRows_tipSteady (height : ℕ) :
    (deleteBlockRows height).Keeps (TipSteady top keys) := by
  have hrest : (Prog.bind (nullifiers.remove height) fun _ => (coins.remove height).bind fun _ =>
      Prog.ret ()).Keeps (TipSteady top keys) := by
    refine Prog.Keeps.bind (Prog.keeps_swap _ _ fun s hs => ⟨hs.among, hs.tipKeys⟩) fun _ => ?_
    refine Prog.Keeps.bind (Prog.keeps_swap _ _ fun s hs => ⟨hs.among, hs.tipKeys⟩) fun _ => ?_
    exact Prog.keeps_ret _
  unfold deleteBlockRows
  refine Prog.Keeps.bind (Prog.keeps_swap _ _ fun s hs => ?_) fun _ => ?_
  · refine ⟨fun k row hrow => ?_, hs.tipKeys⟩
    change (s.db.blocks.compactBlocks.remove height).get k = some row at hrow
    rw [OrderedMap.get_remove] at hrow
    split_ifs at hrow
    exact hs.among k row hrow
  · refine Prog.Keeps.bind (Prog.keeps_swap _ _ fun s hs => ⟨hs.among, hs.tipKeys⟩) fun row => ?_
    match row with
    | none => exact hrest
    | some (.raw _) => exact hrest
    | some (.value hash) =>
      exact Prog.Keeps.bind (Prog.keeps_swap _ _ fun s hs => ⟨hs.among, hs.tipKeys⟩) fun _ => hrest

/-! ## The two tip keys -/

/-- Moving the tip to a block of `top`: the height, then the hash. -/
theorem setTip_steps {h : ℕ} {block : CompactBlock} (hblock : top[h]? = some block)
    (hkeys : TipFits top keys) (hs : TipSteady top keys s) {rest : CacheM Unit}
    (hrest : rest.Keeps (TipSteady top (some (.value h), some (.value block.hash)))) :
    ((metaTipHeight.insert (.value h)).bind fun _ =>
      (metaTipHash.insert (.value block.hash)).bind fun _ => rest).Guarantees (BlockStep top) s := by
  set s₁ : Cache := { s with db := metaTipHeight.upd (some (.value h)) s.db } with hs₁
  set s₂ : Cache := { s₁ with db := metaTipHash.upd (some (.value block.hash)) s₁.db } with hs₂
  have hfits : TipFits top (some (.value h), some (.value block.hash)) :=
    Or.inr ⟨h, block, hblock, rfl⟩
  have hsteady₂ : TipSteady top (some (.value h), some (.value block.hash)) s₂ := ⟨hs.among, rfl⟩
  have hfirst : BlockStep top s s₁ := by
    refine ⟨hs.among, hs.among, ?_⟩
    rw [show (s.db.blocks.tipHeight, s₁.db.blocks.tipHash) = keys from hs.tipKeys]
    exact hkeys
  have hsecond : BlockStep top s₁ s₂ := ⟨hs.among, hsteady₂.among, hfits⟩
  have hchanges : ((metaTipHeight.insert (.value h)).bind fun _ =>
      (metaTipHash.insert (.value block.hash)).bind fun _ => rest).changes s =
      s₁ :: s₂ :: rest.changes s₂ := rfl
  unfold Prog.Guarantees
  rw [hchanges]
  refine List.isChain_cons_cons.mpr ⟨hfirst, List.isChain_cons_cons.mpr ⟨hsecond, ?_⟩⟩
  exact hrest.guarantees hsteady₂ fun _ _ => TipSteady.step hfits

end Steady

/-! ## Whole calls -/

section Calls

variable {chain : List CompactBlock} {s : Cache}

/-- An insert of the next block. -/
theorem insertCompactBlock_blockSteps (now : ℕ) {block : CompactBlock} (hs : ChainState chain s)
    (hcan : block.CanonicalCoins) (hheight : block.height = chain.length)
    (hmax : chain.length ≤ u32Max)
    (hlink : ∀ low ∈ chain.getLast?, block.prevHash = low.hash) :
    ∃ merged s', merged.SameBeside block ∧ (insertCompactBlock now block).run s = (.ok (), s') ∧
      ChainState (chain ++ [merged]) s' ∧
      (insertCompactBlock now block).Guarantees (BlockStep (chain ++ [merged])) s := by
  obtain ⟨merged, s₁, hclues, hsame, hbeside⟩ := applyOmrClueHints_run now block s
  have hs₁ := hs.congr hbeside
  have hheight₁ : merged.height = chain.length := hsame.height.trans hheight
  obtain ⟨s', hrun, hstate⟩ := hs₁.appendMerged (by rw [hsame.allCoins]; exact hcan) hheight₁ hmax
    fun low hlow => by
      rw [hsame.prevHash]
      exact hlink low hlow
  refine ⟨merged, s', hsame, (Prog.run_bind_of_ok hclues _).trans hrun, hstate, ?_⟩
  set top := chain ++ [merged] with htop
  have hself : top[merged.height]? = some merged := by
    rw [hheight₁]
    exact List.getElem?_concat_length
  set keys := s.db.blocks.tipKeys
  have hkeys : TipFits top keys := hs.tipFits.mono (List.prefix_append _ _)
  have hsteady : TipSteady top keys s := hs.tipSteady.mono (List.prefix_append _ _)
  have hmixed : ∀ t t', TipSteady top keys t → TipSteady top keys t' → BlockStep top t t' :=
    fun _ _ => TipSteady.step hkeys
  have hclueSteps : (applyOmrClueHints now block).Guarantees (BlockStep top) s := by
    refine (applyOmrClueHints_keeps now block).guarantees rfl fun t t' ht ht' => ?_
    exact hmixed t t' (hsteady.congr (congrArg Prod.fst ht)) (hsteady.congr (congrArg Prod.fst ht'))
  have hsteady₁ : TipSteady top keys s₁ := hsteady.congr (congrArg Prod.fst hbeside)
  have hstore : (storeBlockRows merged).Keeps (TipSteady top keys) := storeBlockRows_tipSteady hself
  set s₂ := s₁.setBlocks (s₁.db.blocks.store merged) with hs₂
  have hsteady₂ : TipSteady top keys s₂ := hstore.run hsteady₁ (storeBlockRows_run merged s₁)
  have hadvance : (advanceTip merged).Guarantees (BlockStep top) s₂ :=
    setTip_steps hself hkeys hsteady₂ (appendCoinsToTipTree_keeps (treeFrame_tipSteady _) le_rfl _)
  unfold insertCompactBlock
  refine hclueSteps.bind hclues ?_
  exact insertMergedBlock_guarantees hs₁ hheight₁ (hstore.guarantees hsteady₁ hmixed)
    (getTip_keeps.guarantees hsteady₂ hmixed) hadvance

/-- A rewind to one of the heights, but the last of all. -/
theorem rewindToHeight_blockSteps {h : ℕ} (hs : ChainState chain s) (hlt : h < chain.length)
    (hmax : h < u32Max) : (rewindToHeight h).Guarantees (BlockStep chain) s := by
  set keys := s.db.blocks.tipKeys
  have hmixed : ∀ t t', TipSteady chain keys t → TipSteady chain keys t' → BlockStep chain t t' :=
    fun _ _ => TipSteady.step hs.tipFits
  set gone := (s.db.blocks.compactBlocks.filter fun k => decide (wrappingAdd h 1 ≤ k)).keys with hgone
  have hdel := deleteBlockRows_forEach_run gone s
  have hdelKeeps : (Prog.forEach deleteBlockRows gone).Keeps (TipSteady chain keys) :=
    Prog.Keeps.forEach deleteBlockRows_tipSteady gone
  set s₁ := s.setBlocks (gone.foldl BlockRows.delete s.db.blocks) with hs₁
  have hsteady₁ : TipSteady chain keys s₁ := hdelKeeps.run hs.tipSteady hdel
  -- the target is not among the deleted rows
  have hblock : chain[h]? = some chain[h] := List.getElem?_eq_getElem hlt
  have hself : s₁.db.blocks.compactBlocks.get h = some (.value chain[h]) := by
    have hno : ¬ wrappingAdd h 1 ≤ h := by
      unfold wrappingAdd
      rw [Nat.mod_eq_of_lt (by omega)]
      omega
    show (gone.foldl BlockRows.delete s.db.blocks).compactBlocks.get h = _
    rw [BlockRows.foldl_delete_compactBlocks, hgone, OrderedMap.removeAll_keys_filter,
      OrderedMap.get_filter, if_pos (by simpa using hno), hs.rows.compactBlocks, chainMap, hblock]
    rfl
  have hrest : ((deleteSnapshotsAbove h).bind fun _ => rebuildTipMerkleTree h).Keeps
      (TipSteady chain (some (.value h), some (.value chain[h].hash))) :=
    (deleteSnapshotsAbove_keeps (treeFrame_tipSteady h) h).bind fun _ =>
      rebuildTipMerkleTree_keeps (treeFrame_tipSteady h) le_rfl
  unfold rewindToHeight
  refine Prog.Guarantees.bind (List.isChain_singleton s) (Tree.run_keys compactBlocks _ s) ?_
  refine (hdelKeeps.guarantees hs.tipSteady hmixed).bind hdel ?_
  unfold rewindTip
  rw [Prog.bind_eq, Prog.bind_eq, Prog.bind_assoc]
  refine Prog.Guarantees.bind ((getCompactBlock_keeps h).guarantees hsteady₁ hmixed)
    (getCompactBlock_run_of_value hself) ?_
  dsimp only [Prog.bind_eq]
  rw [Prog.bind_assoc]
  exact setTip_steps hblock hs.tipFits hsteady₁ hrest

/-- Every write of the poller steps so. -/
theorem blockStep_rules : WriterRules BlockStep where
  rest _ _ hs := hs.tipSteady.step hs.tipFits hs.tipSteady
  insert _ _ now _ hs hcan hheight hmax hlink :=
    insertCompactBlock_blockSteps now hs hcan hheight hmax hlink
  rewind _ _ _ hs hlt hmax := rewindToHeight_blockSteps hs hlt hmax

end Calls

end LightWalletd
