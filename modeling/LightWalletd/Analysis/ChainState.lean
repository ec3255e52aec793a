import LightWalletd.Analysis.ProcessedBlock
import LightWalletd.Analysis.TreeState

/-!
# Caches that hold a chain

The poller keeps a chain: the blocks of the heights `0..=tip`, each linked to the one
below. `ChainState chain s` says that `s` is what these blocks make of it, with the tip
keys and the tree at the last block. The next block extends the chain, and a rewind to
one of its heights cuts it.
-/

set_option autoImplicit false

namespace LightWalletd

open Stateful

/-- The block of a chain at each height. -/
def chainMap (chain : List CompactBlock) : BlockMap := fun k => chain[k]?

/-- The tip of a chain. -/
def chainTip (chain : List CompactBlock) : Option (ℕ × Bytes32) :=
  chain.getLast?.map fun block => (chain.length - 1, block.hash)

/-- Every block names the hash of the one below. -/
def Linked (chain : List CompactBlock) : Prop :=
  chain.IsChain fun low high => high.prevHash = low.hash

/-- The rows are those of a chain, and the tip is its last block. -/
structure BlockRows.HoldsChain (b : BlockRows) (chain : List CompactBlock) : Prop where
  rows : b.Holds (chainMap chain)
  readTip : b.readTip = .ok (chainTip chain)

/-- The cache `s` is what blocks at the heights from 0 on make of it, linked or not. -/
structure StackState (chain : List CompactBlock) (s : Cache) : Prop
    extends TreeState (chainMap chain) s where
  readTip : s.db.blocks.readTip = .ok (chainTip chain)
  treeHeight : s.tipTree.height = (chainTip chain).map Prod.fst
  short : chain.length ≤ u32Max + 1

/-- The cache `s` is what a chain makes of it. -/
structure ChainState (chain : List CompactBlock) (s : Cache) : Prop
    extends TreeState (chainMap chain) s where
  readTip : s.db.blocks.readTip = .ok (chainTip chain)
  treeHeight : s.tipTree.height = (chainTip chain).map Prod.fst
  linked : Linked chain
  short : chain.length ≤ u32Max + 1

/-! ## Chains as maps -/

section Maps

variable {chain : List CompactBlock}

/-- At its length a chain has no block. -/
theorem chainMap_length (chain : List CompactBlock) : chainMap chain chain.length = none :=
  List.getElem?_eq_none le_rfl

/-- A chain has a block at exactly the heights below its length. -/
theorem chainMap_isSome {k : ℕ} : (chainMap chain k).isSome ↔ k < chain.length := by
  unfold chainMap
  simp

/-- The next block makes the chain longer by one. -/
theorem update_chainMap (chain : List CompactBlock) (block : CompactBlock) :
    Function.update (chainMap chain) chain.length (some block) = chainMap (chain ++ [block]) := by
  funext k
  unfold chainMap
  by_cases heq : k = chain.length
  · rw [heq, Function.update_self, List.getElem?_concat_length]
  · rw [Function.update_of_ne heq]
    rcases Nat.lt_or_gt_of_ne heq with hlt | hgt
    · rw [List.getElem?_append_left hlt]
    · rw [List.getElem?_eq_none (by omega), List.getElem?_eq_none (by simp; omega)]

/-- Up to a height a chain is its first blocks. -/
theorem upTo_chainMap (chain : List CompactBlock) (h : ℕ) :
    (chainMap chain).upTo h = chainMap (chain.take (h + 1)) := by
  funext k
  unfold BlockMap.upTo chainMap
  rw [List.getElem?_take]
  by_cases hk : k ≤ h
  · rw [if_pos hk, if_pos (by omega)]
  · rw [if_neg hk, if_neg (by omega)]

/-- The tip of a longer chain is its last block. -/
theorem chainTip_concat (chain : List CompactBlock) (block : CompactBlock) :
    chainTip (chain ++ [block]) = some (chain.length, block.hash) := by
  unfold chainTip
  rw [List.getLast?_concat, List.length_append]
  rfl

/-- The tip of a chain that is not empty. -/
theorem chainTip_of_last {h : ℕ} {block : CompactBlock} (hblock : chain[h]? = some block)
    (hlen : chain.length = h + 1) : chainTip chain = some (h, block.hash) := by
  unfold chainTip
  rw [List.getLast?_eq_getElem?, hlen, Nat.add_sub_cancel, hblock]
  rfl

/-- The last block up to one of the heights of a chain is the one at that height. -/
theorem chainTip_take {h : ℕ} {block : CompactBlock} (hblock : chain[h]? = some block) :
    chainTip (chain.take (h + 1)) = some (h, block.hash) := by
  have hlt : h < chain.length := (List.getElem?_eq_some_iff.mp hblock).1
  refine chainTip_of_last ?_ (by rw [List.length_take]; omega)
  rw [List.getElem?_take, if_pos (Nat.lt_succ_self h), hblock]

/-- Only the empty chain has no tip. -/
theorem chainTip_eq_none_iff : chainTip chain = none ↔ chain = [] := by
  unfold chainTip
  rw [Option.map_eq_none_iff, List.getLast?_eq_none_iff]

/-- The tip is the last block. -/
theorem chainTip_eq_some_iff {t : ℕ} {hash : Bytes32} :
    chainTip chain = some (t, hash) ↔
      ∃ block, chain[t]? = some block ∧ chain.length = t + 1 ∧ block.hash = hash := by
  constructor
  · intro h
    unfold chainTip at h
    obtain ⟨block, hblock, heq⟩ := Option.map_eq_some_iff.mp h
    have hne : chain ≠ [] := by
      rintro rfl
      cases hblock
    have hpos := List.length_pos_iff.mpr hne
    rw [List.getLast?_eq_getElem?] at hblock
    cases heq
    exact ⟨block, hblock, by omega, rfl⟩
  · rintro ⟨block, hblock, hlen, rfl⟩
    exact chainTip_of_last hblock hlen

end Maps

/-! ## Lookups -/

section Lookups

variable {m : BlockMap} {s : Cache}

/-- `get_compact_block` over rows that hold a chain. -/
theorem getCompactBlock_run (hs : s.db.blocks.Holds m) (h : ℕ) :
    (getCompactBlock h).run s = (.ok (m h), s) := by
  unfold getCompactBlock
  rw [Prog.bind_eq, Prog.run_bind_of_ok (Tree.run_get compactBlocks h s)]
  simp only [compactBlocks, hs.compactBlocks]
  cases m h <;> rfl

/-- `get_block_hash` over rows that hold a chain. -/
theorem getBlockHash_run (hs : s.db.blocks.Holds m) (h : ℕ) :
    (getBlockHash h).run s = (.ok ((m h).map CompactBlock.hash), s) := by
  unfold getBlockHash
  rw [Prog.bind_eq, Prog.run_bind_of_ok (Tree.run_get blockHashes h s)]
  simp only [blockHashes, hs.blockHashes]
  cases m h <;> rfl

end Lookups

namespace BlockRows.HoldsChain

variable {b : BlockRows} {chain : List CompactBlock}

/-- Rows that hold a chain are sound. -/
theorem sound (hb : b.HoldsChain chain) {h : ℕ} (hlt : h < chain.length) : b.Sound := by
  refine hb.rows.sound_of_tip (Or.inr ?_)
  have hread := hb.readTip
  have hne : chainTip chain ≠ none := fun hnone => by
    rw [chainTip_eq_none_iff.mp hnone] at hlt
    exact absurd hlt (Nat.not_lt_zero h)
  obtain ⟨⟨t, hash⟩, htip⟩ := Option.ne_none_iff_exists'.mp hne
  rw [htip] at hread
  unfold BlockRows.readTip at hread
  rcases hheight : b.tipHeight with _ | t' | bytes <;> rw [hheight] at hread
  · cases hread
  · rcases hhash : b.tipHash with _ | hash' | bytes <;> rw [hhash] at hread
    · cases hread
    · exact ⟨t', hash', rfl, rfl⟩
    · cases hread
  · cases hread

/-- No rows hold no blocks. -/
theorem empty : BlockRows.empty.HoldsChain [] :=
  ⟨⟨fun _ _ => nofun, fun _ => rfl, fun _ => rfl, fun _ => rfl, fun _ => rfl⟩, rfl⟩

/-- The next block extends the rows and becomes the tip. -/
theorem inserted (hb : b.HoldsChain chain) {block : CompactBlock}
    (hheight : block.height = chain.length) :
    (b.inserted block).HoldsChain (chain ++ [block]) := by
  have hstore := hb.rows.store fun old (hold : chainMap chain block.height = some old) => by
    rw [hheight, chainMap_length] at hold
    cases hold
  rw [hheight, update_chainMap] at hstore
  have hnext : b.inserted block = (b.store block).setTip block.height block.hash := by
    unfold BlockRows.inserted
    rw [hb.readTip]
    cases htip : chainTip chain with
    | none => rfl
    | some tip =>
      obtain ⟨_, -, hlen, -⟩ := chainTip_eq_some_iff.mp (show chainTip chain = some (tip.1, tip.2)
        from htip)
      simp only [if_neg (show ¬ block.height < tip.1 by omega)]
  rw [hnext]
  refine ⟨⟨hstore.height, hstore.compactBlocks, hstore.blockHashes, hstore.nullifiers,
    hstore.coins⟩, ?_⟩
  rw [chainTip_concat, BlockRows.readTip_setTip, hheight]

/-- A rewind within the heights of a chain cuts the rows. -/
theorem rewound (hb : b.HoldsChain chain) {h : ℕ} (hlt : h < chain.length) (hmax : h < u32Max) :
    (b.rewound h).HoldsChain (chain.take (h + 1)) := by
  have hsound := hb.sound hlt
  obtain ⟨h1, h2, h3, h4⟩ := BlockRows.rewound_rows hsound hmax
  have hrows := hb.rows.of_filter h1 h2 h3 h4
  have hmap : (fun k => if decide (k ≤ h) = true then chainMap chain k else none) =
      chainMap (chain.take (h + 1)) := by
    rw [← upTo_chainMap]
    funext k
    unfold BlockMap.upTo
    simp only [decide_eq_true_eq]
  rw [hmap] at hrows
  refine ⟨hrows, ?_⟩
  have hblock : chain[h]? = some chain[h] := List.getElem?_eq_getElem hlt
  have hself : (b.rewound h).compactBlocks.get h = some (.value chain[h]) := by
    rw [hrows.compactBlocks]
    unfold chainMap
    rw [List.getElem?_take, if_pos (Nat.lt_succ_self h), hblock]
    rfl
  rw [BlockRows.rewound_readTip hsound, hself, chainTip_take hblock]

end BlockRows.HoldsChain

namespace StackState

variable {chain : List CompactBlock} {s : Cache}

/-- A stack state holds its chain. -/
theorem holdsChain (hs : StackState chain s) : s.db.blocks.HoldsChain chain :=
  ⟨hs.rows, hs.readTip⟩

/-- The tree is at the last height. -/
theorem length_of_treeAt {H : ℕ} (hs : StackState chain s)
    (hat : s.TreeAt (coinsOf (chainMap chain)) H) : chain.length = H + 1 := by
  have hheight := hs.treeHeight
  rw [hat.live] at hheight
  obtain ⟨tip, htip, heq⟩ := Option.map_eq_some_iff.mp hheight.symm
  obtain ⟨_, -, hlen, -⟩ := chainTip_eq_some_iff.mp (show chainTip chain = some (tip.1, tip.2)
    from htip)
  omega

/-- An empty cache holds no block. -/
theorem of_new {now : ℕ} {s : Cache} (h : Cache.new now .empty = .ok s) : StackState [] s := by
  obtain ⟨hblocks, -, -, hlive⟩ := new_empty h
  refine ⟨TreeState.of_new h, ?_, ?_, Nat.zero_le _⟩
  · rw [hblocks]
    rfl
  · rw [hlive]
    rfl

/-- A change of clue rows does not matter. -/
theorem congr {s' : Cache} (hs : StackState chain s) (h : s'.besideOmr = s.besideOmr) :
    StackState chain s' := by
  have hblocks : s'.db.blocks = s.db.blocks := congrArg Prod.fst h
  have hlive : s'.tipTree = s.tipTree := congrArg (fun p => p.2.2.2) h
  exact ⟨hs.toTreeState.congr h, hblocks ▸ hs.readTip, hlive ▸ hs.treeHeight, hs.short⟩

/-- The next block, its clues merged in, comes on top. -/
theorem appendMerged {block : CompactBlock} (hs : StackState chain s)
    (hcan : Canonical block.allCoins) (hheight : block.height = chain.length)
    (hmax : chain.length ≤ u32Max) :
    ∃ s', (insertMergedBlock block).run s = (.ok (), s') ∧ StackState (chain ++ [block]) s' := by
  have hfree : ∀ k, chain.length ≤ k → chainMap chain k = none :=
    fun k hk => List.getElem?_eq_none hk
  obtain ⟨s', hrun, hstate, hblocks, hlive⟩ := insertMerged_advance hs.toTreeState hs.readTip hcan
    (by omega) (fun old hold => by rw [hfree _ hheight.ge] at hold; cases hold)
    (fun hlast => coinsOf_eq_nil (hfree _ (by omega)))
    (fun tip htip => by
      obtain ⟨_, -, hlen, -⟩ := chainTip_eq_some_iff.mp (show chainTip chain = some (tip.1, tip.2)
        from htip)
      omega)
    (fun k hk => hfree k (by omega))
    (fun h0 => by
      -- nothing is cached below height 0, so there is no tree yet
      have hnil : chain = [] := List.length_eq_zero_iff.mp (hheight ▸ h0)
      left
      rcases hs.tree with ⟨-, htrees, -⟩ | ⟨H, hat⟩
      · rw [htrees]
        rfl
      · have hheight := hs.treeHeight
        rw [hat.live, hnil] at hheight
        cases hheight)
  rw [hheight, update_chainMap] at hstate
  refine ⟨s', hrun, hstate, ?_, ?_, ?_⟩
  · rw [hblocks, chainTip_concat, hheight]
    exact BlockRows.readTip_setTip _ _
  · rw [hlive, chainTip_concat, hheight]
    rfl
  · rw [List.length_append]
    exact Nat.succ_le_succ hmax

/-- The next block comes on top. -/
theorem append (now : ℕ) {block : CompactBlock} (hs : StackState chain s)
    (hcan : block.CanonicalCoins) (hheight : block.height = chain.length)
    (hmax : chain.length ≤ u32Max) :
    ∃ merged s', merged.SameBeside block ∧ (insertCompactBlock now block).run s = (.ok (), s') ∧
      StackState (chain ++ [merged]) s' := by
  obtain ⟨merged, s₁, hclues, hsame, hbeside⟩ := applyOmrClueHints_run now block s
  obtain ⟨s', hrun, hstate⟩ := (hs.congr hbeside).appendMerged
    (by rw [hsame.allCoins]; exact hcan) (hsame.height.trans hheight) hmax
  exact ⟨merged, s', hsame, (Prog.run_bind_of_ok hclues _).trans hrun, hstate⟩

/-- A rewind to one of the heights cuts the blocks there. -/
theorem rewind {h : ℕ} (hs : StackState chain s) (hlt : h < chain.length) (hmax : h < u32Max) :
    ∃ s', (rewindToHeight h).run s = (.ok (), s') ∧ StackState (chain.take (h + 1)) s' := by
  obtain ⟨s', hrun, hstate, hblocks, hlive, -⟩ := hs.toTreeState.rewind hmax
  have hblock : chain[h]? = some chain[h] := List.getElem?_eq_getElem hlt
  have hno : ¬ (h = 0 ∧ chainMap chain 0 = none) := by
    rintro ⟨rfl, hnone⟩
    rw [chainMap, hblock] at hnone
    cases hnone
  rw [upTo_chainMap] at hstate
  rw [if_neg hno] at hlive
  refine ⟨s', hrun, hstate, ?_, ?_, ?_⟩
  · rw [hblocks]
    exact (hs.holdsChain.rewound hlt hmax).readTip
  · rw [hlive, chainTip_take hblock]
    rfl
  · have := hs.short
    rw [List.length_take]
    omega

/-- A stack state can be opened again. -/
theorem reopen (now : ℕ) (hs : StackState chain s) :
    ∃ s', Cache.new now s.db = .ok s' ∧ StackState chain s' := by
  obtain ⟨s', hnew, hstate, hblocks, hlive⟩ := hs.toTreeState.reopen now
  exact ⟨s', hnew, hstate, hblocks ▸ hs.readTip, hlive ▸ hs.treeHeight, hs.short⟩

end StackState

/-- A block that names the last hash is linked to the chain. -/
theorem Linked.concat {chain : List CompactBlock} {block : CompactBlock} (h : Linked chain)
    (hlink : ∀ low ∈ chain.getLast?, block.prevHash = low.hash) : Linked (chain ++ [block]) := by
  refine List.isChain_append.mpr ⟨h, List.isChain_singleton _, fun low hlow high hhigh => ?_⟩
  cases hhigh
  exact hlink low hlow

namespace ChainState

variable {chain : List CompactBlock} {s : Cache}

/-- A chain state is a stack state. -/
theorem stack (hs : ChainState chain s) : StackState chain s :=
  ⟨hs.toTreeState, hs.readTip, hs.treeHeight, hs.short⟩

/-- A linked stack state is a chain state. -/
theorem of_stack (hs : StackState chain s) (hlinked : Linked chain) : ChainState chain s :=
  ⟨hs.toTreeState, hs.readTip, hs.treeHeight, hlinked, hs.short⟩

/-- A chain state holds its chain. -/
theorem holdsChain (hs : ChainState chain s) : s.db.blocks.HoldsChain chain := hs.stack.holdsChain

/-- The tree is at the last height of the chain. -/
theorem length_of_treeAt {H : ℕ} (hs : ChainState chain s)
    (hat : s.TreeAt (coinsOf (chainMap chain)) H) : chain.length = H + 1 :=
  hs.stack.length_of_treeAt hat

/-- An empty cache holds the empty chain. -/
theorem of_new {now : ℕ} {s : Cache} (h : Cache.new now .empty = .ok s) : ChainState [] s :=
  of_stack (.of_new h) List.isChain_nil

/-- A change of clue rows does not matter. -/
theorem congr {s' : Cache} (hs : ChainState chain s) (h : s'.besideOmr = s.besideOmr) :
    ChainState chain s' :=
  of_stack (hs.stack.congr h) hs.linked

/-- The next block, its clues merged in, extends the chain. -/
theorem appendMerged {block : CompactBlock} (hs : ChainState chain s)
    (hcan : Canonical block.allCoins) (hheight : block.height = chain.length)
    (hmax : chain.length ≤ u32Max)
    (hlink : ∀ low ∈ chain.getLast?, block.prevHash = low.hash) :
    ∃ s', (insertMergedBlock block).run s = (.ok (), s') ∧ ChainState (chain ++ [block]) s' := by
  obtain ⟨s', hrun, hstate⟩ := hs.stack.appendMerged hcan hheight hmax
  exact ⟨s', hrun, of_stack hstate (hs.linked.concat hlink)⟩

/-- The next block extends the chain. -/
theorem append (now : ℕ) {block : CompactBlock} (hs : ChainState chain s)
    (hcan : block.CanonicalCoins) (hheight : block.height = chain.length)
    (hmax : chain.length ≤ u32Max)
    (hlink : ∀ low ∈ chain.getLast?, block.prevHash = low.hash) :
    ∃ merged s', merged.SameBeside block ∧ (insertCompactBlock now block).run s = (.ok (), s') ∧
      ChainState (chain ++ [merged]) s' := by
  obtain ⟨merged, s', hsame, hrun, hstate⟩ := hs.stack.append now hcan hheight hmax
  refine ⟨merged, s', hsame, hrun, of_stack hstate (hs.linked.concat fun low hlow => ?_)⟩
  rw [hsame.prevHash]
  exact hlink low hlow

/-- A rewind to one of the heights cuts the chain there. -/
theorem rewind {h : ℕ} (hs : ChainState chain s) (hlt : h < chain.length) (hmax : h < u32Max) :
    ∃ s', (rewindToHeight h).run s = (.ok (), s') ∧ ChainState (chain.take (h + 1)) s' := by
  obtain ⟨s', hrun, hstate⟩ := hs.stack.rewind hlt hmax
  exact ⟨s', hrun, of_stack hstate (hs.linked.take _)⟩

end ChainState

end LightWalletd
