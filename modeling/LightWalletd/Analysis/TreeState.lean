import Mathlib.Logic.Function.Basic
import LightWalletd.Analysis.RewindLaw

/-!
# The tree follows the blocks

`TreeState m s` says that the cache `s` is what the blocks `m` make of it: the rows are
those of the blocks, the tree in memory and on disk has their coins as leaves, and so
does every snapshot for its height. The tip may lie above the tree, which happens after
a rewind to a height that is not cached; the tree is right for the blocks even then.

Each operation keeps it. An insert at a cached height does so under the conditions that
`Overwritable` lists; a rewind, for every target below the last height.
-/

set_option autoImplicit false

namespace LightWalletd

open Stateful

/-- The coins of a compact-block row, in transaction, then output order. -/
def blockCoins : Stored CompactBlock → List Bytes32
  | .value block => block.allCoins
  | .raw _ => []

/-- The coins of the block cached at `h`; none when there is no block. -/
def Cache.coinsAt (s : Cache) (h : ℕ) : List Bytes32 :=
  (s.db.blocks.compactBlocks.get h).elim [] blockCoins

/-- Which block is cached at each height. -/
abbrev BlockMap := ℕ → Option CompactBlock

/-- The coins of a block map. -/
def coinsOf (m : BlockMap) (h : ℕ) : List Bytes32 := (m h).elim [] CompactBlock.allCoins

/-- The blocks at or below `h`. -/
def BlockMap.upTo (m : BlockMap) (h : ℕ) : BlockMap := fun k => if k ≤ h then m k else none

/-- The block rows are those of `m`. -/
structure BlockRows.Holds (b : BlockRows) (m : BlockMap) : Prop where
  height : ∀ h block, m h = some block → block.height = h
  compactBlocks : ∀ h, b.compactBlocks.get h = (m h).map .value
  blockHashes : ∀ h, b.blockHashes.get h = (m h).map fun block => .value block.hash
  nullifiers : ∀ h, b.nullifiers.get h = (m h).bind BlockRows.nullifierRow
  coins : ∀ h, b.coins.get h = (m h).bind BlockRows.coinRow

/-- The tip is at or above every block; without a tip there are no blocks. -/
def BlockRows.TipOver (b : BlockRows) (m : BlockMap) : Prop :=
  (b.tipHeight = none ∧ b.tipHash = none ∧ ∀ k, m k = none) ∨
    ∃ t hash, b.tipHeight = some (.value t) ∧ b.tipHash = some (.value hash) ∧ t ≤ u32Max ∧
      ∀ k, (m k).isSome → k ≤ t

/-- The tree at height `H`, in memory and on disk, has all coins of `c` as leaves, and
every snapshot those up to its height. -/
structure Cache.TreeAt (s : Cache) (c : ℕ → List Bytes32) (H : ℕ) : Prop where
  le_max : H ≤ u32Max
  live : s.tipTree = ⟨some H, treeTo c H, false⟩
  tipMerkleTree : s.db.trees.tipMerkleTree = some (.value (treeTo c H))
  tipMerkleHeight : s.db.trees.tipMerkleHeight = some (.value H)
  snapshots : ∀ k row, s.db.trees.merkleSnapshots.get k = some row →
    k ≤ H ∧ row = .value (treeTo c k)
  above : ∀ k, H < k → c k = []

/-- The trees are those of the coins `c`: none at all, or trees at some height. -/
def Cache.TreeOf (s : Cache) (c : ℕ → List Bytes32) : Prop :=
  (s.tipTree = .fresh ∧ s.db.trees = .empty ∧ ∀ k, c k = []) ∨ ∃ H, s.TreeAt c H

/-- The cache `s` is what the blocks `m` make of it. -/
structure TreeState (m : BlockMap) (s : Cache) : Prop where
  rows : s.db.blocks.Holds m
  canonical : ∀ k block, m k = some block → Canonical block.allCoins
  tip : s.db.blocks.TipOver m
  tree : s.TreeOf (coinsOf m)
  format : s.db.Current

/-- Changing block rows leaves the trees. -/
theorem Cache.TreeOf.setBlocks {s : Cache} {c : ℕ → List Bytes32} (h : s.TreeOf c)
    (b : BlockRows) : (s.setBlocks b).TreeOf c :=
  h.imp (fun hn => hn) fun ⟨H, hat⟩ => ⟨H, hat.le_max, hat.live, hat.tipMerkleTree,
    hat.tipMerkleHeight, hat.snapshots, hat.above⟩

/-! ## Rows of a block map -/

section Rows

variable {b : BlockRows} {m : BlockMap}

/-- Rows that hold blocks hold their coins. -/
theorem BlockRows.Holds.coinRows (db : Db) (h : db.blocks.Holds m) (tip : ℕ) :
    CoinRows db (coinsOf m) tip := by
  intro k _
  rw [h.coins k]
  unfold coinsOf
  cases hk : m k with
  | none => exact Or.inl ⟨rfl, rfl⟩
  | some block =>
    show BlockRows.coinRow block = none ∧ block.allCoins = [] ∨
      BlockRows.coinRow block = some (.value block.allCoins)
    unfold BlockRows.coinRow
    by_cases hempty : block.allCoins.isEmpty = true
    · exact Or.inl ⟨if_pos hempty, List.isEmpty_iff.mp hempty⟩
    · exact Or.inr (if_neg hempty)

/-- The coins of a height. -/
theorem BlockRows.Holds.coinsAt {s : Cache} (h : s.db.blocks.Holds m) (k : ℕ) :
    s.coinsAt k = coinsOf m k := by
  unfold Cache.coinsAt coinsOf
  rw [h.compactBlocks]
  cases m k <;> rfl

/-- Rows of two maps are the same rows only when the maps are. -/
theorem BlockRows.Holds.unique {b' : BlockRows} {m' : BlockMap} (h : b.Holds m) (h' : b'.Holds m')
    (heq : b.compactBlocks = b'.compactBlocks) : m = m' := by
  funext k
  have hk := h.compactBlocks k
  rw [heq, h'.compactBlocks k] at hk
  cases hm : m k with
  | none =>
    rw [hm] at hk
    exact (Option.map_eq_none_iff.mp hk).symm
  | some block =>
    rw [hm] at hk
    obtain ⟨block', hblock', heq'⟩ := Option.map_eq_some_iff.mp hk
    cases heq'
    exact hblock'.symm

/-- Held rows are sound if both keys of the tip are readable or missing. -/
theorem BlockRows.Holds.sound_of_tip (h : b.Holds m)
    (htip : b.tipHeight = none ∧ b.tipHash = none ∨
      ∃ t hash, b.tipHeight = some (.value t) ∧ b.tipHash = some (.value hash)) : b.Sound where
  block := by
    intro k row hrow
    rw [h.compactBlocks k] at hrow
    obtain ⟨block, hblock, rfl⟩ := Option.map_eq_some_iff.mp hrow
    refine ⟨block, rfl, h.height k block hblock, ?_⟩
    rw [h.blockHashes k, hblock]
    rfl
  blockHashes := by
    intro k hnone
    rw [h.compactBlocks k, Option.map_eq_none_iff] at hnone
    rw [h.blockHashes k, hnone]
    rfl
  nullifiers := by
    intro k hnone
    rw [h.compactBlocks k, Option.map_eq_none_iff] at hnone
    rw [h.nullifiers k, hnone]
    rfl
  coins := by
    intro k hnone
    rw [h.compactBlocks k, Option.map_eq_none_iff] at hnone
    rw [h.coins k, hnone]
    rfl
  tip := htip

/-- Held rows with a tip over them are sound. -/
theorem BlockRows.Holds.sound (h : b.Holds m) (htip : b.TipOver m) : b.Sound :=
  h.sound_of_tip (htip.imp (fun ht => ⟨ht.1, ht.2.1⟩)
    fun ⟨t, hash, h1, h2, _⟩ => ⟨t, hash, h1, h2⟩)

/-- Storing a block over `old` leaves no row of `old` behind. -/
def CompactBlock.Covers (block old : CompactBlock) : Prop :=
  (block.allNullifiers = [] → old.allNullifiers = []) ∧ (block.allCoins = [] → old.allCoins = [])

/-- Storing a block that covers the old one holds the new one. -/
theorem BlockRows.Holds.store {block : CompactBlock} (h : b.Holds m)
    (hcov : ∀ old, m block.height = some old → block.Covers old) :
    (b.store block).Holds (Function.update m block.height (some block)) := by
  have hnull : (m block.height).bind BlockRows.nullifierRow = none ∨
      block.allNullifiers.isEmpty = false := by
    by_cases hempty : block.allNullifiers.isEmpty = true
    · left
      cases hold : m block.height with
      | none => rfl
      | some old =>
        have hnil := (hcov old hold).1 (List.isEmpty_iff.mp hempty)
        exact if_pos (List.isEmpty_iff.mpr hnil)
    · exact Or.inr (by simpa using hempty)
  have hcoin : (m block.height).bind BlockRows.coinRow = none ∨
      block.allCoins.isEmpty = false := by
    by_cases hempty : block.allCoins.isEmpty = true
    · left
      cases hold : m block.height with
      | none => rfl
      | some old =>
        have hnil := (hcov old hold).2 (List.isEmpty_iff.mp hempty)
        exact if_pos (List.isEmpty_iff.mpr hnil)
    · exact Or.inr (by simpa using hempty)
  refine ⟨?_, ?_, ?_, ?_, ?_⟩
  · intro k block' hk
    by_cases heq : k = block.height
    · subst heq
      rw [Function.update_self] at hk
      cases hk
      rfl
    · rw [Function.update_of_ne heq] at hk
      exact h.height k block' hk
  · intro k
    show (b.compactBlocks.insert block.height _).get k = _
    rw [OrderedMap.get_insert]
    by_cases heq : k = block.height
    · rw [if_pos heq, heq, Function.update_self]
      rfl
    · rw [if_neg heq, Function.update_of_ne heq]
      exact h.compactBlocks k
  · intro k
    show (b.blockHashes.insert block.height _).get k = _
    rw [OrderedMap.get_insert]
    by_cases heq : k = block.height
    · rw [if_pos heq, heq, Function.update_self]
      rfl
    · rw [if_neg heq, Function.update_of_ne heq]
      exact h.blockHashes k
  · intro k
    show (if block.allNullifiers.isEmpty then b.nullifiers
      else b.nullifiers.insert block.height (.value block.allNullifiers)).get k = _
    by_cases heq : k = block.height
    · rw [heq, Function.update_self]
      show _ = BlockRows.nullifierRow block
      unfold BlockRows.nullifierRow
      by_cases hempty : block.allNullifiers.isEmpty = true
      · rw [if_pos hempty, if_pos hempty, h.nullifiers]
        rcases hnull with hnone | hne
        · exact hnone
        · rw [hne] at hempty
          cases hempty
      · rw [if_neg hempty, if_neg hempty, OrderedMap.get_insert, if_pos rfl]
    · rw [Function.update_of_ne heq, ← h.nullifiers k]
      split_ifs
      · rfl
      · rw [OrderedMap.get_insert, if_neg heq]
  · intro k
    show (if block.allCoins.isEmpty then b.coins
      else b.coins.insert block.height (.value block.allCoins)).get k = _
    by_cases heq : k = block.height
    · rw [heq, Function.update_self]
      show _ = BlockRows.coinRow block
      unfold BlockRows.coinRow
      by_cases hempty : block.allCoins.isEmpty = true
      · rw [if_pos hempty, if_pos hempty, h.coins]
        rcases hcoin with hnone | hne
        · exact hnone
        · rw [hne] at hempty
          cases hempty
      · rw [if_neg hempty, if_neg hempty, OrderedMap.get_insert, if_pos rfl]
    · rw [Function.update_of_ne heq, ← h.coins k]
      split_ifs
      · rfl
      · rw [OrderedMap.get_insert, if_neg heq]

/-- The rows of a filtered map. -/
theorem BlockRows.Holds.of_filter {b' : BlockRows} {p : ℕ → Bool} (h : b.Holds m)
    (h1 : b'.compactBlocks = b.compactBlocks.filter p)
    (h2 : b'.blockHashes = b.blockHashes.filter p) (h3 : b'.nullifiers = b.nullifiers.filter p)
    (h4 : b'.coins = b.coins.filter p) :
    b'.Holds fun k => if p k then m k else none := by
  refine ⟨?_, ?_, ?_, ?_, ?_⟩
  · intro k block hk
    by_cases hp : p k = true
    · rw [if_pos hp] at hk
      exact h.height k block hk
    · rw [if_neg hp] at hk
      cases hk
  · intro k
    rw [h1, OrderedMap.get_filter, h.compactBlocks]
    by_cases hp : p k = true <;> simp [hp]
  · intro k
    rw [h2, OrderedMap.get_filter, h.blockHashes]
    by_cases hp : p k = true <;> simp [hp]
  · intro k
    rw [h3, OrderedMap.get_filter, h.nullifiers]
    by_cases hp : p k = true <;> simp [hp]
  · intro k
    rw [h4, OrderedMap.get_filter, h.coins]
    by_cases hp : p k = true <;> simp [hp]

end Rows

/-! ## Appending and rebuilding -/

/-- A rebuild of `tip` ends with the tree at `tip` and the snapshots of a rebuild. -/
theorem treeAt_rebuild {s : Cache} {c : ℕ → List Bytes32} {tip : ℕ} (htip : tip ≤ u32Max)
    (hgen : tip = 0 → ∃ block, s.db.blocks.compactBlocks.get 0 = some (.value block))
    (hrows : CoinRows s.db c tip) (hcan : ∀ k ≤ tip, Canonical (c k))
    (hsnaps : ∀ k row, s.db.trees.merkleSnapshots.get k = some row → k ≤ u32Max ∧
      (k ≤ tip → row = .value (treeTo c k)))
    (habove : ∀ k, tip < k → c k = []) :
    ∃ s', (rebuildTipMerkleTree tip).run s = (.ok (), s') ∧ s'.TreeAt c tip ∧
      s'.besideTrees = s.besideTrees ∧
      RebuiltSnapshots c tip (seedHeight s.db.trees.merkleSnapshots tip)
        (s.db.trees.merkleSnapshots.filter fun h => decide (h ≤ tip))
        s'.db.trees.merkleSnapshots := by
  have hmax : tip = u32Max → ∀ k, (s.db.trees.merkleSnapshots.get k).isSome → k ≤ tip := by
    intro heq k hk
    obtain ⟨row, hrow⟩ := Option.isSome_iff_exists.mp hk
    rw [heq]
    exact (hsnaps k row hrow).1
  obtain ⟨snaps, hrun, hnew⟩ := rebuildTipMerkleTree_run htip hmax hgen hrows hcan
    (fun k hk row hrow => (hsnaps k row hrow).2 hk)
  have hright := hnew.right fun k row hrow => by
    rw [OrderedMap.get_filter] at hrow
    by_cases hk : k ≤ tip
    · rw [if_pos (by simpa using hk)] at hrow
      exact ⟨hk, (hsnaps k row hrow).2 hk⟩
    · simp [hk] at hrow
  exact ⟨_, hrun, ⟨htip, rfl, rfl, rfl, hright, habove⟩, rfl, hnew⟩

/-- Of the interval heights up to `tip` a rebuild keeps the snapshots that were there, and writes
those above all that were there. -/
theorem RebuiltSnapshots.interval {m new : OrderedMap ℕ (Stored MerkleTree)}
    {c : ℕ → List Bytes32} {tip k : ℕ}
    (hnew : RebuiltSnapshots c tip (seedHeight m tip) (m.filter fun h => decide (h ≤ tip)) new)
    (hk : k ≤ tip) (hint : k % merkleSnapshotInterval = 0)
    (hold : (m.get k).isSome ∨ ∀ j, k ≤ j → m.get j = none) : (new.get k).isSome := by
  have hint' : ¬ (seedHeight m tip = some k ∧ k % merkleSnapshotInterval ≠ 0) :=
    fun hc => hc.2 hint
  rw [hnew k]
  by_cases htop : k = tip
  · rw [if_pos htop]
    rfl
  · rw [if_neg htop, if_neg hint']
    split_ifs with hpassed
    · rfl
    · rw [OrderedMap.get_filter, if_pos (by simpa using hk)]
      rcases hold with hsome | hnone
      · exact hsome
      · -- a seed at or above `k` would be a snapshot there
        refine absurd ⟨fun j hj => ?_, hk, hint⟩ hpassed
        by_contra hge
        obtain ⟨row, hrow⟩ := seedHeight_mem hj
        rw [hnone j (by omega)] at hrow
        cases hrow

/-- What an append leaves, when the tree it extends has the coins below `h` as leaves. -/
theorem treeAt_appendNodes {s : Cache} {d : ℕ → List Bytes32} {h : ℕ} (hmax : h ≤ u32Max)
    (hcan : Canonical (d h)) (habove : ∀ k, h < k → d k = [])
    (hlive : s.tipTree.tree = tipTreeOf (coinsBelow d h))
    (hsnaps : ∀ k row, s.db.trees.merkleSnapshots.get k = some row → k ≠ h →
      k ≤ h ∧ row = .value (treeTo d k)) :
    ∃ s', (appendNodes h (d h)).run s = (.ok (), s') ∧ s'.TreeAt d h ∧
      s'.besideTrees = s.besideTrees := by
  have hstep : tipTreeOf (coinsBelow d h ++ d h) = treeTo d h := by
    unfold treeTo
    rw [coinsBelow_succ]
  have hrun := appendNodes_run h s hcan
  rw [hlive, foldl_append_tipTreeOf, hstep] at hrun
  refine ⟨_, hrun, ⟨hmax, rfl, rfl, rfl, fun k row hrow => ?_, habove⟩, rfl⟩
  change (dropPrevious s.tipTree.height h (s.db.trees.merkleSnapshots.insert h
    (.value (treeTo d h)))).get k = some row at hrow
  rw [get_dropPrevious, OrderedMap.get_insert] at hrow
  by_cases hk : k = h
  · simp only [hk, ne_eq, not_true_eq_false, false_and, and_false, if_false, if_true] at hrow
    cases hrow
    exact ⟨hk.le, by rw [hk]⟩
  · rw [if_neg hk] at hrow
    split_ifs at hrow
    exact hsnaps k row hrow hk

/-- Appending the block of height `h` to trees of `c` makes them trees of `d`, when `d` is
`c` with the coins of that block at `h`. The three conditions cover the heights where the
code takes no account of what was there: the last height, which saturation makes its own
successor, and height 0, whose snapshot is taken for the tree itself. -/
theorem treeAt_append {s : Cache} {c d : ℕ → List Bytes32} {h : ℕ} (hs : s.TreeOf c)
    (hmax : h ≤ u32Max) (hrows : CoinRows s.db d h) (hcan : ∀ k ≤ h, Canonical (d k))
    (hsame : ∀ k < h, d k = c k) (habove : ∀ k, h < k → d k = [])
    (hlast : h = u32Max → c h = [])
    (hzero : h = 0 → s.db.trees.merkleSnapshots.get 0 = none ∨ d 0 = c 0)
    (hgen : h = 0 → ∃ block, s.db.blocks.compactBlocks.get 0 = some (.value block))
    (hfirst : s.db.blocks.compactBlocks.get 0 = none ∨
      ∃ block, s.db.blocks.compactBlocks.get 0 = some (.value block))
    (hfirstCoins : s.db.blocks.compactBlocks.get 0 = none → d 0 = []) :
    ∃ s', (appendCoinsToTipTree h (d h)).run s = (.ok (), s') ∧ s'.TreeAt d h ∧
      s'.besideTrees = s.besideTrees := by
  have hcanh : Canonical (d h) := hcan h le_rfl
  have hbelow : coinsBelow c h = coinsBelow d h :=
    coinsBelow_congr fun k hk => (hsame k hk).symm
  have htree : ∀ k < h, treeTo c k = treeTo d k := fun k hk =>
    treeTo_congr fun j hj => (hsame j (by omega)).symm
  rw [appendCoinsToTipTree_run]
  rcases hs with ⟨hlive, htrees, hnil⟩ | ⟨H, hat⟩
  · -- nothing was appended before
    have hneeds : s.tipTree.needsRebuild h = false := by
      rw [hlive]
      rfl
    have hempty : coinsBelow d h = [] := by
      rw [← hbelow]
      exact List.flatMap_eq_nil_iff.mpr fun k _ => hnil k
    rw [hneeds]
    refine treeAt_appendNodes hmax hcanh habove ?_ fun k row hrow _ => ?_
    · rw [hlive, hempty]
      rfl
    · rw [htrees] at hrow
      cases hrow
  · have hneeds : s.tipTree.needsRebuild h = decide (h ≠ saturatingAdd H 1) := by
      rw [hat.live]
      rfl
    have hsnaps : ∀ k row, s.db.trees.merkleSnapshots.get k = some row → k < h →
        row = .value (treeTo d k) := by
      intro k row hrow hk
      rw [← htree k hk]
      exact (hat.snapshots k row hrow).2
    rw [hneeds]
    by_cases hnext : h = saturatingAdd H 1
    · -- the next height: extend the tree in memory
      have hlow : coinsBelow c (H + 1) = coinsBelow d h := by
        rw [← hbelow]
        unfold saturatingAdd at hnext
        have hle := hat.le_max
        by_cases hlt : H < u32Max
        · rw [show h = H + 1 by omega]
        · have hH : H = h := by omega
          have hmaxh : h = u32Max := by omega
          rw [hH, coinsBelow_succ, hlast hmaxh, List.append_nil]
      rw [if_neg (by simpa using hnext)]
      refine treeAt_appendNodes hmax hcanh habove ?_ fun k row hrow hk => ?_
      · rw [hat.live, ← hlow]
        rfl
      · have hle := (hat.snapshots k row hrow).1
        have hmaxH := hat.le_max
        have hkh : k < h := by
          unfold saturatingAdd at hnext
          omega
        exact ⟨hkh.le, hsnaps k row hrow hkh⟩
    · rw [if_pos (by simpa using hnext)]
      by_cases h0 : h = 0
      · -- the genesis block: a rebuild of height 0
        subst h0
        rw [if_pos rfl]
        obtain ⟨s', hrun, htree, hbeside, -⟩ := treeAt_rebuild (Nat.zero_le _) hgen hrows hcan
          (fun k row hrow => by
            obtain ⟨hle, hval⟩ := hat.snapshots k row hrow
            refine ⟨hle.trans hat.le_max, fun hk => ?_⟩
            have hk0 : k = 0 := by omega
            subst hk0
            rcases hzero rfl with hnone | hc
            · rw [hnone] at hrow
              cases hrow
            · rw [hval]
              congr 1
              exact treeTo_congr fun j hj => by rw [show j = 0 by omega, hc]) habove
        exact ⟨s', hrun, htree, hbeside⟩
      · -- a gap: rebuild the height below, then append
        rw [if_neg h0]
        have hpred : coinsBelow d (h - 1 + 1) = coinsBelow d h := by
          rw [show h - 1 + 1 = h by omega]
        by_cases habsent : h = 1 ∧ s.db.blocks.compactBlocks.get 0 = none
        · obtain ⟨h1, hnone⟩ := habsent
          subst h1
          have hrun := rebuildTipMerkleTree_run_absent hnone
          rw [Prog.run_bind_of_ok hrun]
          refine treeAt_appendNodes hmax hcanh habove ?_ fun k row hrow _ => ?_
          · show emptyTipTree = _
            rw [coinsBelow_succ, coinsBelow_zero, hfirstCoins hnone]
            rfl
          · cases hrow
        · have hpresent : h - 1 = 0 →
              ∃ block, s.db.blocks.compactBlocks.get 0 = some (.value block) := by
            intro h1
            rcases hfirst with hnone | hsome
            · exact absurd ⟨by omega, hnone⟩ habsent
            · exact hsome
          obtain ⟨snaps, hrun, hnew⟩ := rebuildTipMerkleTree_run (s := s)
            (show h - 1 ≤ u32Max by omega) (fun heq => by omega) hpresent (hrows.mono (by omega))
            (fun k hk => hcan k (by omega))
            (fun k hk row hrow => hsnaps k row hrow (by omega))
          have hright := hnew.right fun k row hrow => by
            rw [OrderedMap.get_filter] at hrow
            by_cases hk : k ≤ h - 1
            · rw [if_pos (by simpa using hk)] at hrow
              exact ⟨hk, hsnaps k row hrow (by omega)⟩
            · simp [hk] at hrow
          rw [Prog.run_bind_of_ok hrun]
          refine treeAt_appendNodes hmax hcanh habove ?_ fun k row hrow _ => ?_
          · rw [← hpred]
            rfl
          · obtain ⟨hle, hval⟩ := hright k row hrow
            exact ⟨by omega, hval⟩

/-! ## The operations -/

/-- What an insert needs of the blocks `m` already there: it covers the rows of the block it
replaces, no coins were stored at the last height, and at height 0, when no block is above
it, the snapshot of height 0 is right for it. -/
structure Overwritable (m : BlockMap) (s : Cache) (block : CompactBlock) : Prop where
  covers : ∀ old, m block.height = some old → block.Covers old
  last : block.height = u32Max → coinsOf m u32Max = []
  zero : block.height = 0 → (∀ t, s.db.blocks.tipHeight = some (.value t) → t = 0) →
    s.db.trees.merkleSnapshots.get 0 = none ∨ block.allCoins = coinsOf m 0

/-- An insert at a height that is not cached needs nothing below the last height, except that
block 0 comes before any tree was made. -/
theorem overwritable_of_fresh {m : BlockMap} {s : Cache} {block : CompactBlock}
    (hfresh : m block.height = none)
    (hzero : block.height = 0 → (∀ t, s.db.blocks.tipHeight = some (.value t) → t = 0) →
      s.db.trees.merkleSnapshots.get 0 = none) : Overwritable m s block := by
  refine ⟨fun old hold => ?_, fun hlast => ?_, fun h0 ht => Or.inl (hzero h0 ht)⟩
  · rw [hfresh] at hold
    cases hold
  · rw [← hlast]
    unfold coinsOf
    rw [hfresh]
    rfl

namespace TreeState

variable {m : BlockMap} {s : Cache}

/-- A tree state does not depend on the pending clues. -/
theorem congr {s' : Cache} (hs : TreeState m s) (h : s'.besideOmr = s.besideOmr) :
    TreeState m s' := by
  have hblocks : s'.db.blocks = s.db.blocks := congrArg Prod.fst h
  have htrees : s'.db.trees = s.db.trees := congrArg (fun p => p.2.1) h
  have hserver : s'.db.server = s.db.server := congrArg (fun p => p.2.2.1) h
  have hlive : s'.tipTree = s.tipTree := congrArg (fun p => p.2.2.2) h
  refine ⟨hblocks ▸ hs.rows, hs.canonical, hblocks ▸ hs.tip, ?_, ?_⟩
  · rcases hs.tree with ⟨h1, h2, h3⟩ | ⟨H, hat⟩
    · exact Or.inl ⟨hlive.trans h1, htrees.trans h2, h3⟩
    · exact Or.inr ⟨H, hat.le_max, hlive.trans hat.live, htrees ▸ hat.tipMerkleTree,
        htrees ▸ hat.tipMerkleHeight, htrees ▸ hat.snapshots, hat.above⟩
  · unfold Db.Current
    rw [hserver]
    exact hs.format

/-- The rows of a tree state are sound. -/
theorem sound (hs : TreeState m s) : s.db.blocks.Sound := hs.rows.sound hs.tip

/-- The coins after storing a block. -/
theorem coinsOf_update (m : BlockMap) (block : CompactBlock) (k : ℕ) :
    coinsOf (Function.update m block.height (some block)) k =
      if k = block.height then block.allCoins else coinsOf m k := by
  unfold coinsOf
  by_cases heq : k = block.height
  · rw [if_pos heq, heq, Function.update_self]
    rfl
  · rw [if_neg heq, Function.update_of_ne heq]

end TreeState

section Insert

variable {m : BlockMap} {s : Cache} {block : CompactBlock}

/-- A missing block has no coins. -/
theorem coinsOf_eq_nil {m : BlockMap} {k : ℕ} (h : m k = none) : coinsOf m k = [] := by
  unfold coinsOf
  rw [h]
  rfl

/-- Up to a height the coins are as before. -/
theorem coinsOf_upTo_of_le {h k : ℕ} (hk : k ≤ h) : coinsOf (m.upTo h) k = coinsOf m k := by
  unfold coinsOf BlockMap.upTo
  rw [if_pos hk]

/-- Above it there are none. -/
theorem coinsOf_upTo_of_lt {h k : ℕ} (hk : h < k) : coinsOf (m.upTo h) k = [] := by
  unfold coinsOf BlockMap.upTo
  rw [if_neg (by omega)]
  rfl

/-- Storing a block with canonical coins keeps the coins canonical. -/
theorem canonical_update (hcanm : ∀ k b, m k = some b → Canonical b.allCoins)
    (hcan : Canonical block.allCoins) :
    ∀ k b, Function.update m block.height (some block) k = some b → Canonical b.allCoins := by
  intro k b hk
  by_cases heq : k = block.height
  · rw [heq, Function.update_self] at hk
    cases hk
    exact hcan
  · rw [Function.update_of_ne heq] at hk
    exact hcanm k b hk

/-- The coins of every height are canonical. -/
theorem canonical_coins (hcanm : ∀ k b, m k = some b → Canonical b.allCoins) (k : ℕ) :
    Canonical (coinsOf m k) := by
  unfold coinsOf
  cases hk : m k with
  | none => exact fun coin hcoin => by cases hcoin
  | some b => exact hcanm k b hk

/-- The coins of a tree state are canonical. -/
theorem TreeState.canonical_coinsOf (hs : TreeState m s) (k : ℕ) : Canonical (coinsOf m k) :=
  canonical_coins hs.canonical k

/-- A block below the tip: the tree is rebuilt from the snapshots below the block, which are
all that has to be right before. -/
theorem insertMerged_backfill {t : ℕ} {hash : Bytes32} (hrows : s.db.blocks.Holds m)
    (hcanm : ∀ k b, m k = some b → Canonical b.allCoins) (hcan : Canonical block.allCoins)
    (hcov : ∀ old, m block.height = some old → block.Covers old)
    (htipHeight : s.db.blocks.tipHeight = some (.value t))
    (htipHash : s.db.blocks.tipHash = some (.value hash)) (htmax : t ≤ u32Max)
    (hle : ∀ k, (m k).isSome → k ≤ t) (hlt : block.height < t)
    (hsnaps : ∀ k < block.height, ∀ row, s.db.trees.merkleSnapshots.get k = some row →
      row = .value (treeTo (coinsOf m) k)) (hformat : s.db.Current) :
    ∃ s', (insertMergedBlock block).run s = (.ok (), s') ∧
      TreeState (Function.update m block.height (some block)) s' ∧
      s'.db.blocks = s.db.blocks.store block ∧ s'.tipTree.height = some t ∧
      ∀ k ≤ t, k % merkleSnapshotInterval = 0 →
        block.height ≤ k ∨ (s.db.trees.merkleSnapshots.get k).isSome →
        (s'.db.trees.merkleSnapshots.get k).isSome := by
  set h := block.height with hh
  set m' := Function.update m h (some block) with hm'
  have hrows' : (s.db.blocks.store block).Holds m' := hrows.store hcov
  have hcan' := canonical_update hcanm hcan
  have hsame : ∀ k, k ≠ h → coinsOf m' k = coinsOf m k := fun k hk => by
    rw [hm', TreeState.coinsOf_update, if_neg hk]
  have hrun := insertMergedBlock_run block
    (show s.db.blocks.readTip = .ok (some (t, hash)) by
      unfold BlockRows.readTip
      rw [htipHeight, htipHash]
      rfl)
  simp only [← hh, if_pos hlt] at hrun
  set s₁ := (s.setBlocks (s.db.blocks.store block)).setSnapshots
    (s.db.trees.merkleSnapshots.filter fun k => decide (k < h)) with hs₁
  have hdel : (deleteSnapshotsAtOrAbove block.height).run
      (s.setBlocks (s.db.blocks.store block)) = (.ok (), s₁) := deleteSnapshotsAtOrAbove_run _ _
  have hget : ∀ k, s₁.db.trees.merkleSnapshots.get k =
      if decide (k < h) = true then s.db.trees.merkleSnapshots.get k else none :=
    fun k => OrderedMap.get_filter _ _ _
  have hsnaps₁ : ∀ k row, s₁.db.trees.merkleSnapshots.get k = some row → k ≤ u32Max ∧
      (k ≤ t → row = .value (treeTo (coinsOf m') k)) := by
    intro k row hrow
    rw [hget] at hrow
    by_cases hk : k < h
    · rw [if_pos (by simpa using hk)] at hrow
      refine ⟨by omega, fun _ => ?_⟩
      rw [hsnaps k hk row hrow]
      congr 1
      exact treeTo_congr fun j hj => (hsame j (by omega)).symm
    · simp [hk] at hrow
  obtain ⟨s', hrebuild, htree, hbeside, hsnaps'⟩ := treeAt_rebuild (s := s₁) (c := coinsOf m')
    htmax (fun h0 => by omega)
    (BlockRows.Holds.coinRows { s.db with blocks := s.db.blocks.store block } hrows' t)
    (fun k _ => canonical_coins hcan' k) hsnaps₁ (fun k hk => by
      rw [hsame k (by omega)]
      refine coinsOf_eq_nil (Option.not_isSome_iff_eq_none.mp fun hsome => ?_)
      have := hle k hsome
      omega)
  have hblocks : s'.db.blocks = s.db.blocks.store block := congrArg Prod.fst hbeside
  have hserver : s'.db.server = s.db.server := congrArg (fun p => p.2.2) hbeside
  refine ⟨s', hrun.trans ((Prog.run_bind_of_ok hdel _).trans hrebuild),
    ⟨hblocks ▸ hrows', hcan', ?_, Or.inr ⟨t, htree⟩, ?_⟩, hblocks, by rw [htree.live], ?_⟩
  · rw [hblocks]
    refine Or.inr ⟨t, hash, htipHeight, htipHash, htmax, fun k hk => ?_⟩
    by_cases heq : k = h
    · omega
    · rw [hm', Function.update_of_ne heq] at hk
      exact hle k hk
  · unfold Db.Current
    rw [hserver]
    exact hformat
  · intro k hk hint hold
    refine hsnaps'.interval hk hint ?_
    by_cases hkh : k < h
    · left
      rw [hget, if_pos (by simpa using hkh)]
      exact hold.resolve_left (by omega)
    · right
      intro j hj
      rw [hget, if_neg (by simp; omega)]

/-- A block at or above the tip becomes the tip. -/
theorem insertMerged_advance {tip : Option (ℕ × Bytes32)} (hs : TreeState m s)
    (hread : s.db.blocks.readTip = .ok tip) (hcan : Canonical block.allCoins)
    (hmax : block.height ≤ u32Max) (hcov : ∀ old, m block.height = some old → block.Covers old)
    (hlast : block.height = u32Max → coinsOf m u32Max = [])
    (hge : ∀ t ∈ tip, ¬ block.height < t.1) (hnone : ∀ k, block.height < k → m k = none)
    (hzero : block.height = 0 →
      s.db.trees.merkleSnapshots.get 0 = none ∨ block.allCoins = coinsOf m 0) :
    ∃ s', (insertMergedBlock block).run s = (.ok (), s') ∧
      TreeState (Function.update m block.height (some block)) s' ∧
      s'.db.blocks = (s.db.blocks.store block).setTip block.height block.hash ∧
      s'.tipTree.height = some block.height := by
  set h := block.height with hh
  set m' := Function.update m h (some block) with hm'
  have hrows : (s.db.blocks.store block).Holds m' := hs.rows.store hcov
  have hcan' := canonical_update hs.canonical hcan
  have hat : coinsOf m' h = block.allCoins := by
    rw [hm', TreeState.coinsOf_update, if_pos rfl]
  have hsame : ∀ k, k ≠ h → coinsOf m' k = coinsOf m k := fun k hk => by
    rw [hm', TreeState.coinsOf_update, if_neg hk]
  have hstored : (s.db.blocks.store block).compactBlocks.get h = some (.value block) := by
    rw [hrows.compactBlocks, hm', Function.update_self]
    rfl
  have hfirst : (s.db.blocks.store block).compactBlocks.get 0 = none ∨
      ∃ first, (s.db.blocks.store block).compactBlocks.get 0 = some (.value first) := by
    rw [hrows.compactBlocks]
    cases m' 0 with
    | none => exact Or.inl rfl
    | some first => exact Or.inr ⟨first, rfl⟩
  have hfirstCoins : (s.db.blocks.store block).compactBlocks.get 0 = none → coinsOf m' 0 = [] := by
    rw [hrows.compactBlocks, Option.map_eq_none_iff]
    exact coinsOf_eq_nil
  have hadvance : (insertMergedBlock block).run s =
      (advanceTip block).run (s.setBlocks (s.db.blocks.store block)) := by
    rw [insertMergedBlock_run block hread]
    rcases tip with _ | ⟨t, hash⟩
    · rfl
    · simp only [← hh, if_neg (hge (t, hash) rfl)]
  have hrun : (advanceTip block).run (s.setBlocks (s.db.blocks.store block)) =
      (appendCoinsToTipTree h (coinsOf m' h)).run
        (s.setBlocks ((s.db.blocks.store block).setTip h block.hash)) := by
    rw [hat]
    rfl
  have hrowsTip : ((s.db.blocks.store block).setTip h block.hash).Holds m' :=
    ⟨hrows.height, hrows.compactBlocks, hrows.blockHashes, hrows.nullifiers, hrows.coins⟩
  obtain ⟨s', hrun', htree, hbeside⟩ := treeAt_append
    (s := s.setBlocks ((s.db.blocks.store block).setTip h block.hash))
    (c := coinsOf m) (d := coinsOf m') (h := h) (hs.tree.setBlocks _) hmax
    (BlockRows.Holds.coinRows { s.db with
      blocks := (s.db.blocks.store block).setTip h block.hash } hrowsTip h)
    (fun k _ => canonical_coins hcan' k) (fun k hk => hsame k (by omega))
    (fun k hk => by rw [hsame k (by omega), coinsOf_eq_nil (hnone k hk)])
    (fun hlast' => by rw [hlast']; exact hlast hlast')
    (fun h0 => (hzero h0).imp_right fun hc => by
      rw [hm', TreeState.coinsOf_update, if_pos (by omega), hc])
    (fun h0 => ⟨block, by rw [← hstored, h0]; rfl⟩) hfirst hfirstCoins
  have hblocks : s'.db.blocks = (s.db.blocks.store block).setTip h block.hash :=
    congrArg Prod.fst hbeside
  have hserver : s'.db.server = s.db.server := congrArg (fun p => p.2.2) hbeside
  refine ⟨s', hadvance.trans (hrun.trans hrun'),
    ⟨hblocks ▸ hrowsTip, hcan', ?_, Or.inr ⟨h, htree⟩, ?_⟩, hblocks, by rw [htree.live]⟩
  · rw [hblocks]
    refine Or.inr ⟨h, block.hash, rfl, rfl, hmax, fun k hk => ?_⟩
    by_contra hlt
    rw [hm', Function.update_of_ne (by omega), hnone k (by omega)] at hk
    cases hk
  · unfold Db.Current
    rw [hserver]
    exact hs.format

end Insert

namespace TreeState

variable {m : BlockMap} {s : Cache}

/-- An insert keeps the state, with the block in the map, and leaves the tree at the tip. -/
theorem insertMerged {block : CompactBlock} (hs : TreeState m s)
    (hcan : Canonical block.allCoins) (hmax : block.height ≤ u32Max)
    (hok : Overwritable m s block) :
    ∃ s', (insertMergedBlock block).run s = (.ok (), s') ∧
      TreeState (Function.update m block.height (some block)) s' ∧
      ∃ H, s'.tipTree.height = some H ∧ s'.db.blocks.tipHeight = some (.value H) ∧
        (H = block.height ∨ s.db.blocks.tipHeight = some (.value H)) := by
  have hadvance : ∀ tip, s.db.blocks.readTip = .ok tip → (∀ t ∈ tip, ¬ block.height < t.1) →
      (∀ k, block.height < k → m k = none) →
      (block.height = 0 →
        s.db.trees.merkleSnapshots.get 0 = none ∨ block.allCoins = coinsOf m 0) →
      ∃ s', (insertMergedBlock block).run s = (.ok (), s') ∧
        TreeState (Function.update m block.height (some block)) s' ∧
        ∃ H, s'.tipTree.height = some H ∧ s'.db.blocks.tipHeight = some (.value H) ∧
          (H = block.height ∨ s.db.blocks.tipHeight = some (.value H)) := by
    intro tip hread hge hnone hzero
    obtain ⟨s', hrun, hstate, hblocks, hlive⟩ :=
      insertMerged_advance hs hread hcan hmax hok.covers hok.last hge hnone hzero
    refine ⟨s', hrun, hstate, block.height, hlive, ?_, Or.inl rfl⟩
    rw [hblocks]
    rfl
  rcases hs.tip with ⟨h1, h2, hnone⟩ | ⟨t, hash, h1, h2, htmax, hle⟩
  · have hread : s.db.blocks.readTip = .ok none := by
      unfold BlockRows.readTip
      rw [h1]
    exact hadvance none hread (fun t ht => by cases ht) (fun k _ => hnone k)
      fun h0 => hok.zero h0 fun t ht => by rw [h1] at ht; cases ht
  · by_cases hlt : block.height < t
    · have hsnaps : ∀ k < block.height, ∀ row, s.db.trees.merkleSnapshots.get k = some row →
          row = .value (treeTo (coinsOf m) k) := by
        intro k _ row hrow
        rcases hs.tree with ⟨-, htrees, -⟩ | ⟨H, hold⟩
        · rw [htrees] at hrow
          cases hrow
        · exact (hold.snapshots k row hrow).2
      obtain ⟨s', hrun, hstate, hblocks, hlive, -⟩ := insertMerged_backfill hs.rows hs.canonical
        hcan hok.covers h1 h2 htmax hle hlt hsnaps hs.format
      refine ⟨s', hrun, hstate, t, hlive, ?_, Or.inr h1⟩
      rw [hblocks]
      exact h1
    · have hread : s.db.blocks.readTip = .ok (some (t, hash)) := by
        unfold BlockRows.readTip
        rw [h1, h2]
        rfl
      refine hadvance (some (t, hash)) hread (fun t' ht' => ?_) (fun k hk => ?_)
        fun h0 => hok.zero h0 fun t' ht' => ?_
      · cases ht'
        exact hlt
      · refine Option.not_isSome_iff_eq_none.mp fun hsome => ?_
        have := hle k hsome
        omega
      · rw [h1] at ht'
        cases ht'
        omega

/-- The whole insert: the clues are merged first, which changes clue fields at most. -/
theorem insert (now : ℕ) {block : CompactBlock} (hs : TreeState m s)
    (hcan : block.CanonicalCoins) (hmax : block.height ≤ u32Max)
    (hok : Overwritable m s block) :
    ∃ merged s', merged.SameBeside block ∧ (insertCompactBlock now block).run s = (.ok (), s') ∧
      TreeState (Function.update m block.height (some merged)) s' ∧
      ∃ H, s'.tipTree.height = some H ∧ s'.db.blocks.tipHeight = some (.value H) ∧
        (H = block.height ∨ s.db.blocks.tipHeight = some (.value H)) := by
  obtain ⟨merged, s₁, hrun, hsame, hbeside⟩ := applyOmrClueHints_run now block s
  have hs₁ := hs.congr hbeside
  have hblocks : s₁.db.blocks = s.db.blocks := congrArg Prod.fst hbeside
  have htrees : s₁.db.trees = s.db.trees := congrArg (fun p => p.2.1) hbeside
  have hcoins := hsame.allCoins
  have hok₁ : Overwritable m s₁ merged := by
    refine ⟨fun old hold => ?_, fun hlast => hok.last (hsame.height ▸ hlast), fun h0 ht => ?_⟩
    · have hcov := hok.covers old (hsame.height ▸ hold)
      unfold CompactBlock.Covers at hcov ⊢
      rwa [hcoins, hsame.allNullifiers]
    · rw [htrees, hcoins]
      exact hok.zero (hsame.height ▸ h0) (hblocks ▸ ht)
  obtain ⟨s', hrun', hstate, hheight⟩ := hs₁.insertMerged
    (by rw [hcoins]; exact hcan) (hsame.height ▸ hmax) hok₁
  rw [hsame.height] at hstate hheight
  rw [hblocks] at hheight
  exact ⟨merged, s', hsame, (Prog.run_bind_of_ok hrun _).trans hrun', hstate, hheight⟩

/-- A rewind leaves the rows up to the target. -/
theorem holds_rewound {h : ℕ} (hs : TreeState m s) (hmax : h < u32Max) :
    (s.db.blocks.rewound h).Holds (m.upTo h) := by
  obtain ⟨h1, h2, h3, h4⟩ := BlockRows.rewound_rows hs.sound hmax
  have hholds := hs.rows.of_filter h1 h2 h3 h4
  have hmap : (fun k => if decide (k ≤ h) = true then m k else none) = m.upTo h := by
    funext k
    unfold BlockMap.upTo
    simp only [decide_eq_true_eq]
  rwa [hmap] at hholds

/-- The tip after a rewind is the target, or the old tip where the target has no block. -/
theorem tipOver_rewound {h : ℕ} (hs : TreeState m s) (hmax : h < u32Max) :
    (s.db.blocks.rewound h).TipOver (m.upTo h) := by
  have hread := BlockRows.rewound_readTip (h := h) hs.sound
  have hsound' := hs.sound.rewound h
  have hle : ∀ k, (m.upTo h k).isSome → k ≤ h := by
    intro k hk
    unfold BlockMap.upTo at hk
    by_contra hlt
    rw [if_neg hlt] at hk
    cases hk
  have htarget : (s.db.blocks.rewound h).compactBlocks.get h = (m h).map .value := by
    rw [(hs.holds_rewound hmax).compactBlocks]
    unfold BlockMap.upTo
    rw [if_pos le_rfl]
  rw [htarget] at hread
  unfold BlockRows.readTip at hread
  rcases hsound'.tip with ⟨h1, h2⟩ | ⟨t, hash, h1, h2⟩
  · -- no tip: the target was 0 and is gone, or there was none before
    refine Or.inl ⟨h1, h2, fun k => ?_⟩
    rw [h1] at hread
    unfold BlockMap.upTo
    split_ifs with hk
    · cases hmh : m h with
      | some block =>
        rw [hmh] at hread
        cases hread
      | none =>
        rw [hmh] at hread
        by_cases h0 : h = 0
        · rw [show k = h by omega, hmh]
        · simp only [Option.map_none, if_neg h0] at hread
          rcases hs.tip with ⟨-, -, hnone⟩ | ⟨t, hash, h1', h2', -⟩
          · exact hnone k
          · rw [h1', h2'] at hread
            cases hread
    · rfl
  · rw [h1, h2] at hread
    cases hmh : m h with
    | some block =>
      rw [hmh] at hread
      cases hread
      exact Or.inr ⟨h, block.hash, h1, h2, hmax.le, hle⟩
    | none =>
      rw [hmh] at hread
      by_cases h0 : h = 0
      · simp only [Option.map_none, if_pos h0] at hread
        cases hread
      · simp only [Option.map_none, if_neg h0] at hread
        rcases hs.tip with ⟨h1', -, -⟩ | ⟨t', hash', h1', h2', htmax, hold⟩
        · rw [h1'] at hread
          cases hread
        · rw [h1', h2'] at hread
          cases hread
          refine Or.inr ⟨t, hash, h1, h2, htmax, fun k hk => ?_⟩
          unfold BlockMap.upTo at hk
          split_ifs at hk
          · exact hold k hk
          · cases hk

/-- A rewind keeps the state, with the blocks up to the target, and leaves the tree there. Unless
the tree is dropped, it is rebuilt from the snapshots up to the target. -/
theorem rewind {h : ℕ} (hs : TreeState m s) (hmax : h < u32Max) :
    ∃ s', (rewindToHeight h).run s = (.ok (), s') ∧ TreeState (m.upTo h) s' ∧
      s'.db.blocks = s.db.blocks.rewound h ∧
      s'.tipTree.height = (if h = 0 ∧ m 0 = none then none else some h) ∧
      (¬ (h = 0 ∧ m 0 = none) → RebuiltSnapshots (coinsOf (m.upTo h)) h
        (seedHeight s.db.trees.merkleSnapshots h)
        (s.db.trees.merkleSnapshots.filter fun k => decide (k ≤ h))
        s'.db.trees.merkleSnapshots) := by
  have hsound := hs.sound
  have hraw : ∀ bytes, s.db.blocks.compactBlocks.get h ≠ some (.raw bytes) := by
    intro bytes hrow
    obtain ⟨block, heq, -⟩ := hsound.block h _ hrow
    cases heq
  have hrows := hs.holds_rewound hmax
  have hcan : ∀ k block, m.upTo h k = some block → Canonical block.allCoins := by
    intro k block hk
    unfold BlockMap.upTo at hk
    split_ifs at hk
    exact hs.canonical k block hk
  -- the tree: dropped when there is no genesis block left, rebuilt otherwise
  set s₁ := s.setBlocks (s.db.blocks.rewound h) with hs₁
  have hsnapsOld : ∀ k row, s.db.trees.merkleSnapshots.get k = some row → k ≤ u32Max ∧
      (k ≤ h → row = .value (treeTo (coinsOf (m.upTo h)) k)) := by
    intro k row hrow
    rcases hs.tree with ⟨-, htrees, -⟩ | ⟨H, hold⟩
    · rw [htrees] at hrow
      cases hrow
    · obtain ⟨hkH, hval⟩ := hold.snapshots k row hrow
      refine ⟨hkH.trans hold.le_max, fun hk => ?_⟩
      rw [hval]
      congr 1
      exact treeTo_congr fun j hj => (coinsOf_upTo_of_le (by omega)).symm
  have hdel := deleteSnapshotsAbove_run h s₁ (fun heq => absurd heq (by omega))
  set s₂ := s₁.setSnapshots (s₁.db.trees.merkleSnapshots.filter fun k => decide (k ≤ h)) with hs₂
  have hrun := rewindToHeight_run hraw
  rw [Prog.run_bind_of_ok hdel] at hrun
  have hfirst : s₂.db.blocks.compactBlocks.get 0 = (m 0).map .value := by
    show (s.db.blocks.rewound h).compactBlocks.get 0 = _
    rw [hrows.compactBlocks]
    unfold BlockMap.upTo
    rw [if_pos (Nat.zero_le h)]
  by_cases hgone : h = 0 ∧ m 0 = none
  · obtain ⟨h0, hnone⟩ := hgone
    have hrebuild := rebuildTipMerkleTree_run_absent (s := s₂) (by rw [hfirst, hnone]; rfl)
    rw [← h0] at hrebuild
    refine ⟨_, hrun.trans hrebuild, ⟨hrows, hcan, hs.tipOver_rewound hmax,
      Or.inl ⟨rfl, rfl, fun k => ?_⟩, hs.format⟩, rfl, ?_, fun hno => absurd ⟨h0, hnone⟩ hno⟩
    · by_cases hk : k ≤ h
      · rw [coinsOf_upTo_of_le hk, show k = 0 by omega]
        unfold coinsOf
        rw [hnone]
        rfl
      · exact coinsOf_upTo_of_lt (by omega)
    · rw [if_pos ⟨h0, hnone⟩]
      rfl
  · obtain ⟨s', hrebuild, htree, hbeside, hsnaps'⟩ := treeAt_rebuild (s := s₂) (c := coinsOf (m.upTo h))
      hmax.le (fun h0 => by
        rw [hfirst]
        cases hm0 : m 0 with
        | none => exact absurd ⟨h0, hm0⟩ hgone
        | some block => exact ⟨block, rfl⟩)
      (BlockRows.Holds.coinRows s₂.db hrows h)
      (fun k _ => by
        unfold coinsOf
        cases hk : m.upTo h k with
        | none => exact fun coin hcoin => by cases hcoin
        | some block => exact hcan k block hk)
      (fun k row hrow => by
        change (s.db.trees.merkleSnapshots.filter fun k => decide (k ≤ h)).get k = some row at hrow
        rw [OrderedMap.get_filter] at hrow
        split_ifs at hrow
        exact hsnapsOld k row hrow) fun k hk => coinsOf_upTo_of_lt hk
    have hblocks : s'.db.blocks = s.db.blocks.rewound h := congrArg Prod.fst hbeside
    have hserver : s'.db.server = s.db.server := congrArg (fun p => p.2.2) hbeside
    refine ⟨s', hrun.trans hrebuild, ⟨hblocks ▸ hrows, hcan, hblocks ▸ hs.tipOver_rewound hmax,
      Or.inr ⟨h, htree⟩, ?_⟩, hblocks, ?_, fun _ => ?_⟩
    · unfold Db.Current
      rw [hserver]
      exact hs.format
    · rw [if_neg hgone, htree.live]
    · have hkept : s₂.db.trees.merkleSnapshots =
          s.db.trees.merkleSnapshots.filter fun k => decide (k ≤ h) := rfl
      rwa [hkept, seedHeight_filter_le, OrderedMap.filter_filter_self] at hsnaps'

/-- Closing and reopening keeps the state, the block rows and the tree in memory. -/
theorem reopen (now : ℕ) (hs : TreeState m s) :
    ∃ s', Cache.new now s.db = .ok s' ∧ TreeState m s' ∧ s'.db.blocks = s.db.blocks ∧
      s'.tipTree = s.tipTree := by
  obtain ⟨s', hnew, hblocks, htrees, hformat, hlive⟩ := new_of_current now hs.format hs.sound
  rcases hs.tree with ⟨h1, h2, h3⟩ | ⟨H, hat⟩
  · rw [h2] at htrees hlive
    exact ⟨s', hnew, ⟨hblocks ▸ hs.rows, hs.canonical, hblocks ▸ hs.tip,
      Or.inl ⟨hlive, htrees, h3⟩, hformat⟩, hblocks, hlive.trans h1.symm⟩
  · -- the tip tree is indexed unless it is already
    have hindexed : s.db.trees.indexed.tipMerkleTree = some (.value (treeTo (coinsOf m) H)) ∧
        s.db.trees.indexed.tipMerkleHeight = some (.value H) ∧
        ∀ k row, s.db.trees.indexed.merkleSnapshots.get k = some row →
          k ≤ H ∧ row = .value (treeTo (coinsOf m) k) := by
      unfold TreeRows.indexed
      simp only [hat.tipMerkleHeight, hat.tipMerkleTree]
      cases hsnap : s.db.trees.merkleSnapshots.get H with
      | some row => exact ⟨hat.tipMerkleTree, hat.tipMerkleHeight, hat.snapshots⟩
      | none =>
        refine ⟨rfl, rfl, fun k row hrow => ?_⟩
        rw [OrderedMap.get_insert] at hrow
        by_cases hk : k = H
        · rw [if_pos hk] at hrow
          cases hrow
          exact ⟨hk.le, by rw [hk]⟩
        · rw [if_neg hk] at hrow
          exact hat.snapshots k row hrow
    obtain ⟨i1, i2, i3⟩ := hindexed
    have hloaded : s'.tipTree = ⟨some H, treeTo (coinsOf m) H, false⟩ := by
      rw [hlive]
      unfold TreeRows.loaded
      simp only [i1, i2]
    exact ⟨s', hnew, ⟨hblocks ▸ hs.rows, hs.canonical, hblocks ▸ hs.tip,
      Or.inr ⟨H, hat.le_max, hloaded, htrees ▸ i1, htrees ▸ i2, htrees ▸ i3, hat.above⟩, hformat⟩,
      hblocks, hloaded.trans hat.live.symm⟩

/-- An empty cache. -/
theorem of_new {now : ℕ} {s : Cache} (h : Cache.new now .empty = .ok s) :
    TreeState (fun _ => none) s := by
  obtain ⟨hblocks, htrees, hformat, hlive⟩ := new_empty h
  refine ⟨?_, fun _ _ => nofun, ?_, Or.inl ⟨hlive, htrees, fun _ => rfl⟩, hformat⟩
  · rw [hblocks]
    exact ⟨fun _ _ => nofun, fun _ => rfl, fun _ => rfl, fun _ => rfl, fun _ => rfl⟩
  · rw [hblocks]
    exact Or.inl ⟨rfl, rfl, fun _ => rfl⟩

end TreeState

end LightWalletd
