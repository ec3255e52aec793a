import LightWalletd.Analysis.ChainState
import LightWalletd.Analysis.TreeWrites

/-!
# The states on the way

While a call of the poller runs, other parties see a cache that is not what any chain makes
of it. It still consists of pieces of one chain, the longer one of the chain before and the
chain after the call: every block hash is one of its hashes, and every snapshot is its tree
up to that height. The tree under the tip keys is one of its trees too, but not always that
of the height under the tip keys: the two are written one after the other.
-/

set_option autoImplicit false

namespace LightWalletd

open Stateful

/-- The coins of a chain. -/
abbrev chainCoins (chain : List CompactBlock) : ℕ → List Bytes32 := coinsOf (chainMap chain)

/-- The block hashes and snapshots are those of `top`. -/
structure Within (top : List CompactBlock) (s : Cache) : Prop where
  blockHashes : ∀ k row, s.db.blocks.blockHashes.get k = some row →
    ∃ block, top[k]? = some block ∧ row = .value block.hash
  snapshots : ∀ k row, s.db.trees.merkleSnapshots.get k = some row →
    k < top.length ∧ row = .value (treeTo (chainCoins top) k)

/-- The tree and the height under the tip keys. -/
def TreeRows.tipKeys (t : TreeRows) : Option (Stored MerkleTree) × Option (Stored ℕ) :=
  (t.tipMerkleTree, t.tipMerkleHeight)

/-- A tree and a height belong together: they are of one height of `top`, or there is neither. -/
def Fits (top : List CompactBlock) (keys : Option (Stored MerkleTree) × Option (Stored ℕ)) : Prop :=
  keys = (none, none) ∨
    ∃ H < top.length, keys = (some (.value (treeTo (chainCoins top) H)), some (.value H))

/-- While no command writes the tip keys of the tree. -/
structure Steady (top : List CompactBlock) (keys : Option (Stored MerkleTree) × Option (Stored ℕ))
    (s : Cache) : Prop extends Within top s where
  tipKeys : s.db.trees.tipKeys = keys

/-- Neighbouring states of a call. The tree is written right before its height, so it fits the
height of the next state. -/
structure TreeStep (top : List CompactBlock) (s s' : Cache) : Prop where
  before : Within top s
  after : Within top s'
  fits : Fits top (s.db.trees.tipMerkleTree, s'.db.trees.tipMerkleHeight)

section Steady

variable {top : List CompactBlock} {s s' : Cache}
  {keys : Option (Stored MerkleTree) × Option (Stored ℕ)}

/-- A state within the chain is steady at its own keys. -/
theorem Within.steady (hs : Within top s) : Steady top s.db.trees.tipKeys s := ⟨hs, rfl⟩

/-- Between steady states with fitting keys the tree steps. -/
theorem Steady.step (hkeys : Fits top keys) (hs : Steady top keys s) (hs' : Steady top keys s') :
    TreeStep top s s' := by
  refine ⟨hs.toWithin, hs'.toWithin, ?_⟩
  have htree : s.db.trees.tipMerkleTree = s'.db.trees.tipMerkleTree :=
    congrArg Prod.fst (hs.tipKeys.trans hs'.tipKeys.symm)
  have hboth : (s'.db.trees.tipMerkleTree, s'.db.trees.tipMerkleHeight) = keys := hs'.tipKeys
  rw [htree, hboth]
  exact hkeys

/-- Steadiness depends on the hashes, the tree rows and nothing else. -/
theorem Steady.congr (hs : Steady top keys s)
    (hhashes : s'.db.blocks.blockHashes = s.db.blocks.blockHashes)
    (htrees : s'.db.trees = s.db.trees) : Steady top keys s' := by
  refine ⟨⟨?_, ?_⟩, ?_⟩
  · rw [hhashes]
    exact hs.blockHashes
  · rw [htrees]
    exact hs.snapshots
  · rw [htrees]
    exact hs.tipKeys

/-- A cache that holds a chain is within it. -/
theorem ChainState.within {chain : List CompactBlock} (hs : ChainState chain s) :
    Within chain s := by
  refine ⟨fun k row hrow => ?_, fun k row hrow => ?_⟩
  · rw [hs.rows.blockHashes] at hrow
    obtain ⟨block, hblock, rfl⟩ := Option.map_eq_some_iff.mp hrow
    exact ⟨block, hblock, rfl⟩
  · rcases hs.tree with ⟨-, htrees, -⟩ | ⟨H, hat⟩
    · rw [htrees] at hrow
      cases hrow
    · obtain ⟨hk, hval⟩ := hat.snapshots k row hrow
      have hlen := hs.length_of_treeAt hat
      exact ⟨by omega, hval⟩

/-- In a chain state the tip keys fit. -/
theorem ChainState.fits {chain : List CompactBlock} (hs : ChainState chain s) :
    Fits chain s.db.trees.tipKeys := by
  rcases hs.tree with ⟨-, htrees, -⟩ | ⟨H, hat⟩
  · rw [htrees]
    exact Or.inl rfl
  · have hlen := hs.length_of_treeAt hat
    exact Or.inr ⟨H, by omega, Prod.ext hat.tipMerkleTree hat.tipMerkleHeight⟩

section Extend

variable {chain : List CompactBlock}

/-- A block of an initial part is the block of the whole. -/
theorem getElem?_of_initial (hpre : chain <+: top) {k : ℕ} (hk : k < chain.length) :
    top[k]? = chain[k]? := by
  obtain ⟨rest, rfl⟩ := hpre
  exact List.getElem?_append_left hk

/-- The tree of an initial part is the tree of the whole. -/
theorem treeTo_of_initial (hpre : chain <+: top) {k : ℕ} (hk : k < chain.length) :
    treeTo (chainCoins chain) k = treeTo (chainCoins top) k := by
  refine treeTo_congr fun j hj => ?_
  unfold chainCoins coinsOf chainMap
  rw [getElem?_of_initial hpre (by omega)]

/-- What is within a chain is within every chain that continues it. -/
theorem Within.mono (hs : Within chain s) (hpre : chain <+: top) : Within top s := by
  have hlen := hpre.length_le
  refine ⟨fun k row hrow => ?_, fun k row hrow => ?_⟩
  · obtain ⟨block, hblock, rfl⟩ := hs.blockHashes k row hrow
    have hk := (List.getElem?_eq_some_iff.mp hblock).1
    exact ⟨block, (getElem?_of_initial hpre hk).trans hblock, rfl⟩
  · obtain ⟨hk, rfl⟩ := hs.snapshots k row hrow
    exact ⟨by omega, by rw [treeTo_of_initial hpre hk]⟩

/-- Keys that fit an initial part fit the whole. -/
theorem Fits.mono (hkeys : Fits chain keys) (hpre : chain <+: top) : Fits top keys := by
  rcases hkeys with hnone | ⟨H, hH, heq⟩
  · exact Or.inl hnone
  · have hlen := hpre.length_le
    exact Or.inr ⟨H, by omega, by rw [heq, treeTo_of_initial hpre hH]⟩

end Extend

/-! ## Commands that keep a steady state -/

/-- The snapshot of a height can be written. -/
theorem insertSnapshot_steady {k : ℕ} (hk : k < top.length) :
    (merkleSnapshots.insert k (.value (treeTo (chainCoins top) k))).Keeps (Steady top keys) := by
  refine Prog.keeps_put _ fun s hs => ⟨⟨hs.blockHashes, fun j row hrow => ?_⟩, hs.tipKeys⟩
  change (s.db.trees.merkleSnapshots.insert k _).get j = some row at hrow
  rw [OrderedMap.get_insert] at hrow
  by_cases hj : j = k
  · rw [if_pos hj] at hrow
    cases hrow
    rw [hj]
    exact ⟨hk, rfl⟩
  · rw [if_neg hj] at hrow
    exact hs.snapshots j row hrow

/-- A snapshot can be removed. -/
theorem removeSnapshot_steady (k : ℕ) : (merkleSnapshots.remove k).Keeps (Steady top keys) := by
  refine Prog.keeps_swap _ _ fun s hs => ⟨⟨hs.blockHashes, fun j row hrow => ?_⟩, hs.tipKeys⟩
  change (s.db.trees.merkleSnapshots.remove k).get j = some row at hrow
  rw [OrderedMap.get_remove] at hrow
  split_ifs at hrow
  exact hs.snapshots j row hrow

/-- A hash can be removed. -/
theorem removeHash_steady (k : ℕ) : (blockHashes.remove k).Keeps (Steady top keys) := by
  refine Prog.keeps_swap _ _ fun s hs => ⟨⟨fun j row hrow => ?_, hs.snapshots⟩, hs.tipKeys⟩
  change (s.db.blocks.blockHashes.remove k).get j = some row at hrow
  rw [OrderedMap.get_remove] at hrow
  split_ifs at hrow
  exact hs.blockHashes j row hrow

/-- The rows of a block of the chain can be written. -/
theorem storeBlockRows_steady {block : CompactBlock} (hblock : top[block.height]? = some block) :
    (storeBlockRows block).Keeps (Steady top keys) := by
  unfold storeBlockRows
  refine Prog.Keeps.bind (Prog.keeps_put _ fun s hs => hs.congr rfl rfl) fun _ => ?_
  refine Prog.Keeps.bind (Prog.keeps_put _ fun s hs => ?_) fun _ => ?_
  · refine ⟨⟨fun j row hrow => ?_, hs.snapshots⟩, hs.tipKeys⟩
    change (s.db.blocks.blockHashes.insert block.height _).get j = some row at hrow
    rw [OrderedMap.get_insert] at hrow
    by_cases hj : j = block.height
    · rw [if_pos hj] at hrow
      cases hrow
      rw [hj]
      exact ⟨block, hblock, rfl⟩
    · rw [if_neg hj] at hrow
      exact hs.blockHashes j row hrow
  · refine Prog.Keeps.bind (Prog.keeps_put _ fun s hs => hs.congr rfl rfl) fun _ => ?_
    have hcoins : (if block.allCoins.isEmpty then Prog.ret ()
        else coins.insert block.height (.value block.allCoins)).Keeps (Steady top keys) :=
      Prog.Keeps.ite (Prog.keeps_ret _) (Prog.keeps_put _ fun s hs => hs.congr rfl rfl)
    refine Prog.Keeps.ite hcoins ?_
    exact Prog.Keeps.bind (Prog.keeps_put _ fun s hs => hs.congr rfl rfl) fun _ => hcoins

/-- The rows of a height can be deleted. -/
theorem deleteBlockRows_steady (height : ℕ) : (deleteBlockRows height).Keeps (Steady top keys) := by
  unfold deleteBlockRows
  refine Prog.Keeps.bind (Prog.keeps_swap _ _ fun s hs => hs.congr rfl rfl) fun _ => ?_
  refine Prog.Keeps.bind (removeHash_steady height) fun row => ?_
  have hrest : (Prog.bind (nullifiers.remove height) fun _ => (coins.remove height).bind fun _ =>
      Prog.ret ()).Keeps (Steady top keys) := by
    refine Prog.Keeps.bind (Prog.keeps_swap _ _ fun s hs => hs.congr rfl rfl) fun _ => ?_
    exact Prog.Keeps.bind (Prog.keeps_swap _ _ fun s hs => hs.congr rfl rfl) fun _ =>
      Prog.keeps_ret _
  match row with
  | none => exact hrest
  | some (.raw _) => exact hrest
  | some (.value hash) =>
    exact Prog.Keeps.bind (Prog.keeps_swap _ _ fun s hs => hs.congr rfl rfl) fun _ => hrest

/-- The tip can be rewound. -/
theorem rewindTip_steady (height : ℕ) : (rewindTip height).Keeps (Steady top keys) := by
  unfold rewindTip
  refine (getCompactBlock_keeps height).bind fun row => ?_
  cases row with
  | some block =>
    refine Prog.Keeps.bind (Prog.keeps_put _ fun s hs => hs.congr rfl rfl) fun _ => ?_
    exact Prog.keeps_put _ fun s hs => hs.congr rfl rfl
  | none =>
    refine Prog.Keeps.ite ?_ (Prog.keeps_ret _)
    refine Prog.Keeps.bind (Prog.keeps_put _ fun s hs => hs.congr rfl rfl) fun _ => ?_
    exact Prog.keeps_put _ fun s hs => hs.congr rfl rfl

/-- The live tree can be updated. -/
theorem updateLive_steady (live : LiveTipTree) :
    (Prog.update fun s : Cache => { s with tipTree := live } : CacheM Unit).Keeps (Steady top keys) :=
  Prog.keeps_update fun _ hs => hs.congr rfl rfl

/-- A snapshot of the chain can be recorded. -/
theorem recordTreeSnapshot_steady {H : ℕ} (hH : H < top.length) (prev : Option ℕ) (isTip : Bool) :
    (recordTreeSnapshot prev H (treeTo (chainCoins top) H) isTip).Keeps (Steady top keys) := by
  have hdrop : (dropNonIntervalSnapshotsExcept prev H).Keeps (Steady top keys) := by
    unfold dropNonIntervalSnapshotsExcept
    cases prev with
    | none => exact Prog.keeps_ret ()
    | some prev =>
      refine Prog.Keeps.ite ?_ (Prog.keeps_ret ())
      exact (removeSnapshot_steady prev).bind fun _ => Prog.keeps_ret _
  have htip : (if isTip then dropNonIntervalSnapshotsExcept prev H else Prog.ret ()).Keeps
      (Steady top keys) := Prog.Keeps.ite hdrop (Prog.keeps_ret ())
  unfold recordTreeSnapshot
  exact Prog.Keeps.ite ((insertSnapshot_steady hH).bind fun _ => htip) htip

/-! ## The two tip keys of the tree -/

/-- The tip keys of the tree of `top` at a height. -/
def keysAt (top : List CompactBlock) (H : ℕ) : Option (Stored MerkleTree) × Option (Stored ℕ) :=
  (some (.value (treeTo (chainCoins top) H)), some (.value H))

/-- The keys of a height of the chain fit. -/
theorem fits_keysAt {H : ℕ} (hH : H < top.length) : Fits top (keysAt top H) := Or.inr ⟨H, hH, rfl⟩

/-- Storing a tree of `top`: the tree, then the height, then the snapshot row. -/
theorem storeTipTree_steps {H : ℕ} (hH : H < top.length) (prev : Option ℕ)
    (hkeys : Fits top keys) (hs : Steady top keys s) :
    (storeTipTree prev H (treeTo (chainCoins top) H)).Guarantees (TreeStep top) s ∧
      Steady top (keysAt top H) ((storeTipTree prev H (treeTo (chainCoins top) H)).exec s) := by
  set tree := treeTo (chainCoins top) H with htree
  set s₁ := s.setTrees { s.db.trees with tipMerkleTree := some (.value tree) } with hs₁
  set s₂ := s₁.setTrees { s₁.db.trees with tipMerkleHeight := some (.value H) } with hs₂
  have hwithin₁ : Within top s₁ := ⟨hs.blockHashes, hs.snapshots⟩
  have hsteady₂ : Steady top (keysAt top H) s₂ := ⟨⟨hs.blockHashes, hs.snapshots⟩, rfl⟩
  have hrest : (recordTreeSnapshot prev H tree true).Keeps (Steady top (keysAt top H)) :=
    recordTreeSnapshot_steady hH prev true
  have hchanges : (storeTipTree prev H tree).changes s =
      s₁ :: s₂ :: (recordTreeSnapshot prev H tree true).changes s₂ := rfl
  have hexec : (storeTipTree prev H tree).exec s = (recordTreeSnapshot prev H tree true).exec s₂ :=
    rfl
  have hfirst : TreeStep top s s₁ := by
    refine ⟨hs.toWithin, hwithin₁, ?_⟩
    rw [show (s.db.trees.tipMerkleTree, s₁.db.trees.tipMerkleHeight) = keys from hs.tipKeys]
    exact hkeys
  have hsecond : TreeStep top s₁ s₂ := ⟨hwithin₁, hsteady₂.toWithin, fits_keysAt hH⟩
  refine ⟨?_, ?_⟩
  · unfold Prog.Guarantees
    rw [hchanges]
    refine List.isChain_cons_cons.mpr ⟨hfirst, List.isChain_cons_cons.mpr ⟨hsecond, ?_⟩⟩
    exact hrest.guarantees hsteady₂ fun _ _ => Steady.step (fits_keysAt hH)
  · rw [hexec]
    exact hrest.exec hsteady₂

/-- Storing the tree of a height steps from tip to tip. -/
theorem storeTree_steps {H : ℕ} (hH : H < top.length) (prev : Option ℕ) (hkeys : Fits top keys)
    (hs : Steady top keys s) : (storeTree (chainCoins top) prev H).Guarantees (TreeStep top) s := by
  obtain ⟨hsteps, hsteady⟩ := storeTipTree_steps hH prev hkeys hs
  have hrun : (storeTipTree prev H (treeTo (chainCoins top) H)).run s = (.ok (),
      (storeTipTree prev H (treeTo (chainCoins top) H)).exec s) := by
    unfold Prog.exec
    rw [storeTipTree_run]
  unfold storeTree
  refine hsteps.bind hrun ((updateLive_steady _).guarantees hsteady fun _ _ => ?_)
  exact Steady.step (fits_keysAt hH)

end Steady

/-! ## Whole calls -/

section Calls

variable {chain : List CompactBlock} {s : Cache}

/-- An append to the tree in memory. -/
theorem appendNodes_steps {top : List CompactBlock} {H : ℕ}
    {keys : Option (Stored MerkleTree) × Option (Stored ℕ)} (hH : H < top.length)
    (hcan : Canonical (chainCoins top H))
    (hlive : s.tipTree.tree = tipTreeOf (coinsBelow (chainCoins top) H)) (hkeys : Fits top keys)
    (hs : Steady top keys s) :
    (appendNodes H (chainCoins top H)).Guarantees (TreeStep top) s := by
  have htree : ((chainCoins top H).filterMap Base.fromBytes).foldl MerkleTree.append s.tipTree.tree =
      treeTo (chainCoins top) H := by
    rw [hlive, foldl_append_tipTreeOf]
    unfold treeTo
    rw [coinsBelow_succ]
  set s₁ := s.setLive { s.tipTree with tree := treeTo (chainCoins top) H } with hs₁
  have hsteady₁ : Steady top keys s₁ := hs.congr rfl rfl
  obtain ⟨hsteps, hsteady₂⟩ := storeTipTree_steps hH s.tipTree.height hkeys hsteady₁
  have hrun : (storeTipTree s.tipTree.height H (treeTo (chainCoins top) H)).attempt.run s₁ =
      (.ok (.ok ()), (storeTipTree s.tipTree.height H (treeTo (chainCoins top) H)).exec s₁) := by
    rw [Prog.run_attempt]
    unfold Prog.exec
    rw [storeTipTree_run]
  have hattempt : (storeTipTree s.tipTree.height H (treeTo (chainCoins top) H)).attempt.Guarantees
      (TreeStep top) s₁ := by
    unfold Prog.Guarantees
    rw [Prog.changes_attempt]
    exact hsteps
  have hupdate : (Prog.update fun s : Cache => { s with
      tipTree.tree := treeTo (chainCoins top) H } : CacheM Unit).Guarantees (TreeStep top) s :=
    (Prog.keeps_update fun _ h => h.congr rfl rfl).guarantees hs fun _ _ => Steady.step hkeys
  unfold appendNodes
  rw [mapM_coinToMerkleNode hcan]
  simp only [Prog.bind_eq]
  refine Prog.Guarantees.bind (Prog.guarantees_ret _ _) rfl ?_
  refine Prog.Guarantees.bind (List.isChain_singleton s) (Prog.run_get _ s) ?_
  rw [htree]
  refine hupdate.bind rfl (hattempt.bind hrun ?_)
  exact (updateLive_steady _).guarantees hsteady₂ fun _ _ => Steady.step (fits_keysAt hH)

/-- An insert of the next block writes its rows, reads the tip and advances it. -/
theorem insertMergedBlock_guarantees {block : CompactBlock} {R : Cache → Cache → Prop}
    (hs : ChainState chain s) (hheight : block.height = chain.length)
    (hstore : (storeBlockRows block).Guarantees R s)
    (hread : getTip.Guarantees R (s.setBlocks (s.db.blocks.store block)))
    (hadvance : (advanceTip block).Guarantees R (s.setBlocks (s.db.blocks.store block))) :
    (insertMergedBlock block).Guarantees R s := by
  have hget : getTip.run (s.setBlocks (s.db.blocks.store block)) =
      (.ok (chainTip chain), s.setBlocks (s.db.blocks.store block)) :=
    (getTip_run _).trans (Prod.ext hs.readTip rfl)
  unfold insertMergedBlock
  refine hstore.bind (storeBlockRows_run block s) (hread.bind hget ?_)
  cases htip : chainTip chain with
  | none => exact hadvance
  | some tip =>
    obtain ⟨_, -, hlen, -⟩ := chainTip_eq_some_iff.mp
      (show chainTip chain = some (tip.1, tip.2) from htip)
    simp only []
    rw [if_neg (by omega)]
    exact hadvance

/-- An insert of the next block, its clues merged in. -/
theorem insertMergedBlock_steps {block : CompactBlock} (hs : ChainState chain s)
    (hcan : Canonical block.allCoins) (hheight : block.height = chain.length)
    (hmax : chain.length ≤ u32Max) :
    (insertMergedBlock block).Guarantees (TreeStep (chain ++ [block])) s := by
  set top := chain ++ [block] with htop
  have hself : top[block.height]? = some block := by
    rw [hheight]
    exact List.getElem?_concat_length
  have hlt : block.height < top.length := (List.getElem?_eq_some_iff.mp hself).1
  set keys := s.db.trees.tipKeys
  have hkeys : Fits top keys := hs.fits.mono (List.prefix_append _ _)
  have hmixed : ∀ t t', Steady top keys t → Steady top keys t' → TreeStep top t t' :=
    fun _ _ => Steady.step hkeys
  have hsteady : Steady top keys s := (hs.within.mono (List.prefix_append _ _)).steady
  have hstore : (storeBlockRows block).Keeps (Steady top keys) := storeBlockRows_steady hself
  set s₁ := s.setBlocks (s.db.blocks.store block) with hs₁
  have hsteady₁ : Steady top keys s₁ := hstore.run hsteady (storeBlockRows_run block s)
  have hcoins : block.allCoins = chainCoins top block.height := by
    unfold chainCoins coinsOf chainMap
    rw [hself]
    rfl
  -- the tip moves to the block, then its coins enter the tree
  have hadvance : (advanceTip block).Guarantees (TreeStep top) s₁ := by
    have htip : ∀ {V : Type} (cell : Cell V) (v : V), (∀ s : Cache, Steady top keys s →
        Steady top keys { s with db := cell.upd (some v) s.db }) →
          (cell.insert v).Keeps (Steady top keys) :=
      fun cell v h => Prog.keeps_put _ h
    have h1 := htip metaTipHeight (.value block.height) fun _ hs => hs.congr rfl rfl
    have h2 := htip metaTipHash (.value block.hash) fun _ hs => hs.congr rfl rfl
    have hrun₁ := Cell.run_insert metaTipHeight (.value block.height) s₁
    have hsteady₂ := h1.run hsteady₁ hrun₁
    unfold advanceTip
    refine (h1.guarantees hsteady₁ hmixed).bind hrun₁ ?_
    refine (h2.guarantees hsteady₂ hmixed).bind rfl ?_
    have hsteady₃ := h2.run hsteady₂ rfl
    unfold appendCoinsToTipTree
    refine Prog.Guarantees.bind (List.isChain_singleton _) (Prog.run_get _ _) ?_
    have hneeds : s.tipTree.needsRebuild block.height = false ∧
        s.tipTree.tree = tipTreeOf (coinsBelow (chainCoins top) block.height) := by
      have hbelow : coinsBelow (chainCoins top) chain.length =
          coinsBelow (chainCoins chain) chain.length := by
        refine coinsBelow_congr fun k hk => ?_
        unfold chainCoins coinsOf chainMap
        rw [htop, List.getElem?_append_left hk]
      unfold LiveTipTree.needsRebuild
      rw [hheight, hbelow]
      rcases hs.tree with ⟨hfresh, -, hnil⟩ | ⟨H, hat⟩
      · rw [hfresh]
        refine ⟨rfl, ?_⟩
        rw [show coinsBelow (chainCoins chain) chain.length = [] from
          List.flatMap_eq_nil_iff.mpr fun k _ => hnil k]
        rfl
      · have hlen := hs.length_of_treeAt hat
        rw [hat.live, hlen]
        refine ⟨?_, rfl⟩
        show decide (H + 1 ≠ saturatingAdd H 1) = false
        unfold saturatingAdd
        simp only [ne_eq, decide_not, Bool.not_eq_false', decide_eq_true_eq]
        omega
    simp only []
    rw [if_neg (by rw [Bool.not_eq_true]; exact hneeds.1), hcoins]
    exact appendNodes_steps hlt (hcoins ▸ hcan) hneeds.2 hkeys hsteady₃
  exact insertMergedBlock_guarantees hs hheight (hstore.guarantees hsteady hmixed)
    (getTip_keeps.guarantees hsteady₁ hmixed) hadvance

/-- A rewind to one of the heights, but the last of all. -/
theorem rewindToHeight_steps {h : ℕ} (hs : ChainState chain s) (hlt : h < chain.length)
    (hmax : h < u32Max) : (rewindToHeight h).Guarantees (TreeStep chain) s := by
  set keys := s.db.trees.tipKeys
  have hmixed : ∀ t t', Steady chain keys t → Steady chain keys t' → TreeStep chain t t' :=
    fun _ _ => Steady.step hs.fits
  have hsteady : Steady chain keys s := hs.within.steady
  have hrows := hs.holdsChain.rewound hlt hmax
  have hcut : ∀ k ≤ h, chainCoins (chain.take (h + 1)) k = chainCoins chain k := by
    intro k hk
    unfold chainCoins coinsOf chainMap
    rw [List.getElem?_take, if_pos (by omega)]
  have hblock : chain[h]? = some chain[h] := List.getElem?_eq_getElem hlt
  have hraw : ∀ bytes, s.db.blocks.compactBlocks.get h ≠ some (.raw bytes) := by
    intro bytes hrow
    rw [hs.rows.compactBlocks] at hrow
    unfold chainMap at hrow
    rw [hblock] at hrow
    cases hrow
  -- the block rows go, then the snapshots above the target
  set gone := (s.db.blocks.compactBlocks.filter fun k => decide (wrappingAdd h 1 ≤ k)).keys
  have hdel := deleteBlockRows_forEach_run gone s
  have hdelKeeps : (Prog.forEach deleteBlockRows gone).Keeps (Steady chain keys) :=
    Prog.Keeps.forEach deleteBlockRows_steady gone
  have hsteady₁ := hdelKeeps.run hsteady hdel
  have htip := rewindTip_run (s := s.setBlocks (gone.foldl BlockRows.delete s.db.blocks))
    (BlockRows.foldl_delete_ne_raw gone hraw)
  have hsteady₂ := (rewindTip_steady h).run hsteady₁ htip
  set s₂ := s.setBlocks (s.db.blocks.rewound h) with hs₂
  have hsnaps := deleteSnapshotsAbove_run h s₂ fun heq => absurd heq hmax.ne
  have hsnapsKeeps := deleteSnapshotsAbove_keeps_right (I := Steady chain keys) removeSnapshot_steady h
  have hsteady₃ := hsnapsKeeps.run hsteady₂ hsnaps
  have hrebuild : (rebuildTipMerkleTree h).Guarantees (TreeStep chain)
      (s₂.setSnapshots (s₂.db.trees.merkleSnapshots.filter fun k => decide (k ≤ h))) := by
    refine rebuildTipMerkleTree_guarantees (I := Steady chain keys) (c := chainCoins chain) ?_
      removeSnapshot_steady hmixed ?_ hmax.le (fun heq => absurd heq hmax.ne) ?_ ?_ ?_ ?_ hsteady₃
    · intro k hk
      exact insertSnapshot_steady (hk.trans_lt hlt)
    · intro prev t ht
      exact storeTree_steps hlt prev hs.fits ht
    · intro h0
      refine ⟨chain[h], ?_⟩
      change (s.db.blocks.rewound h).compactBlocks.get 0 = _
      rw [hrows.rows.compactBlocks, ← h0]
      unfold chainMap
      rw [List.getElem?_take, if_pos (Nat.lt_succ_self h), hblock]
      rfl
    · intro k hk
      rw [← hcut k hk]
      exact BlockRows.Holds.coinRows s₂.db hrows.rows h k hk
    · exact fun k _ => hs.canonical_coinsOf k
    · intro k _ row hrow
      exact (hsteady₃.snapshots k row hrow).2
  unfold rewindToHeight
  refine Prog.Guarantees.bind (List.isChain_singleton s) (Tree.run_keys compactBlocks _ s) ?_
  refine (hdelKeeps.guarantees hsteady hmixed).bind hdel ?_
  refine ((rewindTip_steady h).guarantees hsteady₁ hmixed).bind htip ?_
  exact (hsnapsKeeps.guarantees hsteady₂ hmixed).bind hsnaps hrebuild

/-- An insert of the next block. -/
theorem insertCompactBlock_steps (now : ℕ) {block : CompactBlock} (hs : ChainState chain s)
    (hcan : block.CanonicalCoins) (hheight : block.height = chain.length)
    (hmax : chain.length ≤ u32Max)
    (hlink : ∀ low ∈ chain.getLast?, block.prevHash = low.hash) :
    ∃ merged s', merged.SameBeside block ∧ (insertCompactBlock now block).run s = (.ok (), s') ∧
      ChainState (chain ++ [merged]) s' ∧
      (insertCompactBlock now block).Guarantees (TreeStep (chain ++ [merged])) s := by
  obtain ⟨merged, s₁, hclues, hsame, hbeside⟩ := applyOmrClueHints_run now block s
  have hs₁ := hs.congr hbeside
  have hcan₁ : Canonical merged.allCoins := by
    rw [hsame.allCoins]
    exact hcan
  have hheight₁ : merged.height = chain.length := hsame.height.trans hheight
  obtain ⟨s', hrun, hstate⟩ := hs₁.appendMerged hcan₁ hheight₁ hmax fun low hlow => by
    rw [hsame.prevHash]
    exact hlink low hlow
  refine ⟨merged, s', hsame, (Prog.run_bind_of_ok hclues _).trans hrun, hstate, ?_⟩
  set keys := s.db.trees.tipKeys
  have hkeys : Fits (chain ++ [merged]) keys := hs.fits.mono (List.prefix_append _ _)
  have hsteady : Steady (chain ++ [merged]) keys s :=
    (hs.within.mono (List.prefix_append _ _)).steady
  have hmixed : ∀ t t', BesideOmr s.besideOmr t → BesideOmr s.besideOmr t' →
      TreeStep (chain ++ [merged]) t t' := by
    intro t t' ht ht'
    have hbeside : ∀ {u : Cache}, u.besideOmr = s.besideOmr → Steady (chain ++ [merged]) keys u :=
      fun h => hsteady.congr (congrArg (fun p => p.1.blockHashes) h)
        (congrArg (fun p => p.2.1) h)
    exact (hbeside ht).step hkeys (hbeside ht')
  unfold insertCompactBlock
  refine ((applyOmrClueHints_keeps now block).guarantees rfl hmixed).bind hclues ?_
  exact insertMergedBlock_steps hs₁ hcan₁ hheight₁ hmax

end Calls

end LightWalletd
