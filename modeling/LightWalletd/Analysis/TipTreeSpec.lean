import LightWalletd.Analysis.LeafSequence
import LightWalletd.Computation.Loops

/-!
# What the tip-tree functions do

One equation for the run of each function that maintains the Money tree. They touch
the snapshot tree, the two tip keys and the tree in memory, so their effect is
written with `setTrees` and `setLive`; block rows, clue rows and server keys come
out as they went in.

The rebuild is described against a coin assignment `c` that the coin rows realise up
to the rebuilt height. From right snapshots it ends with the tree `treeTo c` of that
height, and its snapshots are again right.
-/

set_option autoImplicit false

namespace LightWalletd

open Stateful

/-- The cache with other tree rows. -/
def Cache.setTrees (s : Cache) (t : TreeRows) : Cache := { s with db := { s.db with trees := t } }

/-- The cache with other snapshots. -/
def Cache.setSnapshots (s : Cache) (m : OrderedMap ℕ (Stored MerkleTree)) : Cache :=
  s.setTrees { s.db.trees with merkleSnapshots := m }

/-- The cache with another tree in memory. -/
def Cache.setLive (s : Cache) (live : LiveTipTree) : Cache := { s with tipTree := live }

section Fields

variable (s : Cache) (t : TreeRows) (m : OrderedMap ℕ (Stored MerkleTree)) (live : LiveTipTree)

/-- The tree rows after writing tree rows. -/
@[simp] theorem setTrees_trees : (s.setTrees t).db.trees = t := rfl

/-- Writing tree rows leaves the blocks. -/
@[simp] theorem setTrees_blocks : (s.setTrees t).db.blocks = s.db.blocks := rfl

/-- It leaves the clues. -/
@[simp] theorem setTrees_omr : (s.setTrees t).db.omr = s.db.omr := rfl

/-- It leaves the server's own rows. -/
@[simp] theorem setTrees_server : (s.setTrees t).db.server = s.db.server := rfl

/-- It leaves the live tree. -/
@[simp] theorem setTrees_tipTree : (s.setTrees t).tipTree = s.tipTree := rfl

/-- The last tree rows written count. -/
@[simp] theorem setTrees_setTrees (t' : TreeRows) : (s.setTrees t).setTrees t' = s.setTrees t' :=
  rfl

/-- The snapshots after writing snapshots. -/
@[simp] theorem setSnapshots_merkleSnapshots :
    (s.setSnapshots m).db.trees.merkleSnapshots = m := rfl

/-- Writing snapshots leaves the blocks. -/
@[simp] theorem setSnapshots_blocks : (s.setSnapshots m).db.blocks = s.db.blocks := rfl

/-- It leaves the live tree. -/
@[simp] theorem setSnapshots_tipTree : (s.setSnapshots m).tipTree = s.tipTree := rfl

/-- Snapshots are tree rows: writing all of them overwrites the snapshots. -/
@[simp] theorem setSnapshots_setTrees : (s.setSnapshots m).setTrees t = s.setTrees t := rfl

/-- The last snapshots written count. -/
@[simp] theorem setSnapshots_setSnapshots (m' : OrderedMap ℕ (Stored MerkleTree)) :
    (s.setSnapshots m).setSnapshots m' = s.setSnapshots m' := rfl

/-- Writing the snapshots that are there changes nothing. -/
@[simp] theorem setSnapshots_self : s.setSnapshots s.db.trees.merkleSnapshots = s := rfl

/-- Writing the live tree leaves the database. -/
@[simp] theorem setLive_db : (s.setLive live).db = s.db := rfl

/-- The live tree after writing it. -/
@[simp] theorem setLive_tipTree : (s.setLive live).tipTree = live := rfl

/-- The last live tree written counts. -/
@[simp] theorem setLive_setLive (live' : LiveTipTree) :
    (s.setLive live).setLive live' = s.setLive live' := rfl

end Fields

/-! ## Snapshot rows -/

/-- Removing the snapshots of a list of heights. -/
theorem removeSnapshots_run (heights : List ℕ) (s : Cache) :
    (removeSnapshots heights).run s =
      (.ok (), s.setSnapshots (s.db.trees.merkleSnapshots.removeAll heights)) := by
  unfold removeSnapshots
  rw [Prog.run_forEach _ fun h s => s.setSnapshots (s.db.trees.merkleSnapshots.remove h)]
  · congr 1
    induction heights generalizing s with
    | nil => rfl
    | cons h heights ih =>
      rw [List.foldl_cons, ih]
      rfl
  · intro h s
    rfl

/-- `delete_snapshots_at_or_above` keeps the snapshots below. -/
theorem deleteSnapshotsAtOrAbove_run (height : ℕ) (s : Cache) :
    (deleteSnapshotsAtOrAbove height).run s =
      (.ok (), s.setSnapshots (s.db.trees.merkleSnapshots.filter fun h => decide (h < height))) := by
  have hkeep : (fun h : ℕ => !decide (height ≤ h)) = fun h => decide (h < height) := by
    funext h
    rw [Bool.eq_iff_iff]
    simp
  unfold deleteSnapshotsAtOrAbove
  rw [Prog.bind_eq, Prog.run_bind_of_ok (Tree.run_keys merkleSnapshots _ s), removeSnapshots_run]
  show (Except.ok (), s.setSnapshots (s.db.trees.merkleSnapshots.removeAll
    (s.db.trees.merkleSnapshots.filter fun h => decide (height ≤ h)).keys)) = _
  rw [OrderedMap.removeAll_keys_filter, hkeep]

/-- At the last height there is nothing to delete. -/
theorem deleteSnapshotsAbove_run (height : ℕ) (s : Cache)
    (hmax : height = u32Max → ∀ k, (s.db.trees.merkleSnapshots.get k).isSome → k ≤ height) :
    (deleteSnapshotsAbove height).run s =
      (.ok (), s.setSnapshots (s.db.trees.merkleSnapshots.filter fun h => decide (h ≤ height))) := by
  unfold deleteSnapshotsAbove
  by_cases h : height = u32Max
  · rw [if_pos h]
    have hall : (s.db.trees.merkleSnapshots.filter fun h => decide (h ≤ height)) =
        s.db.trees.merkleSnapshots := by
      apply OrderedMap.get_ext
      intro k
      rw [OrderedMap.get_filter]
      by_cases hk : k ≤ height
      · simp [hk]
      · cases hg : s.db.trees.merkleSnapshots.get k with
        | none => simp
        | some v => exact absurd (hmax h k (by simp [hg])) hk
    rw [hall]
    rfl
  · rw [if_neg h, deleteSnapshotsAtOrAbove_run]
    congr 3
    funext k
    rw [decide_eq_decide]
    omega

/-- `clear_merkle_snapshots` leaves no snapshot. -/
theorem clearMerkleSnapshots_run (s : Cache) :
    clearMerkleSnapshots.run s = (.ok (), s.setSnapshots .empty) := by
  unfold clearMerkleSnapshots
  rw [Prog.bind_eq, Prog.run_bind_of_ok (Tree.run_keys merkleSnapshots _ s), removeSnapshots_run]
  show (Except.ok (), s.setSnapshots (s.db.trees.merkleSnapshots.removeAll
    (s.db.trees.merkleSnapshots.filter fun _ => true).keys)) = _
  rw [OrderedMap.removeAll_keys_filter]
  congr 2
  apply OrderedMap.get_ext
  intro k
  simp

/-- The snapshots without the previous tip row, unless that one is kept for its height. -/
def dropPrevious (prev : Option ℕ) (keep : ℕ) (m : OrderedMap ℕ (Stored MerkleTree)) :
    OrderedMap ℕ (Stored MerkleTree) :=
  match prev with
  | none => m
  | some prev => if prev ≠ keep ∧ prev % merkleSnapshotInterval ≠ 0 then m.remove prev else m

/-- `drop_previous` removes the previous tip's snapshot unless it is kept or on the grid. -/
theorem get_dropPrevious (prev : Option ℕ) (keep : ℕ) (m : OrderedMap ℕ (Stored MerkleTree))
    (k : ℕ) : (dropPrevious prev keep m).get k =
      if prev = some k ∧ k ≠ keep ∧ k % merkleSnapshotInterval ≠ 0 then none else m.get k := by
  cases prev with
  | none => simp [dropPrevious]
  | some p =>
    by_cases hp : p ≠ keep ∧ p % merkleSnapshotInterval ≠ 0
    · by_cases hk : k = p
      · subst hk
        simp [dropPrevious, hp]
      · simp [dropPrevious, hp, hk, Ne.symm hk]
    · have hno : ¬ (some p = some k ∧ k ≠ keep ∧ k % merkleSnapshotInterval ≠ 0) := by
        rintro ⟨hpk, h⟩
        cases hpk
        exact hp h
      rw [if_neg hno]
      simp only [dropPrevious, if_neg hp]

/-- `store_tip_tree` writes the snapshot, the tip tree and its height, and drops the previous one.
-/
theorem storeTipTree_run (prev : Option ℕ) (height : ℕ) (tree : MerkleTree) (s : Cache) :
    (storeTipTree prev height tree).run s =
      (.ok (), s.setTrees ⟨dropPrevious prev height
        (s.db.trees.merkleSnapshots.insert height (.value tree)), some (.value tree),
        some (.value height)⟩) := by
  cases prev with
  | none => simp [storeTipTree, recordTreeSnapshot, dropNonIntervalSnapshotsExcept, Prog.run_bind,
      dropPrevious, metaTipMerkleTree, metaTipMerkleHeight, merkleSnapshots, Cache.setTrees]
  | some p =>
    by_cases hp : p ≠ height ∧ p % merkleSnapshotInterval ≠ 0
    · simp [storeTipTree, recordTreeSnapshot, dropNonIntervalSnapshotsExcept, Prog.run_bind, hp,
        dropPrevious, metaTipMerkleTree, metaTipMerkleHeight, merkleSnapshots, Cache.setTrees]
    · simp only [storeTipTree, recordTreeSnapshot, dropNonIntervalSnapshotsExcept, Prog.run_bind,
        dropPrevious, if_neg hp, Prog.bind_eq, Cell.run_insert, or_true, if_true, Tree.run_insert,
        Prog.pure_eq, Prog.run_ret]
      rfl

/-! ## The rebuild -/

/-- The coin rows of the heights from `p` to `tip`. -/
def coinRowsFrom (m : OrderedMap ℕ (List Bytes32)) (p tip : ℕ) : List (ℕ × List Bytes32) :=
  (m.filter fun k => decide (p ≤ k ∧ k ≤ tip)).rows

/-- Above the tip there is no coin row. -/
theorem coinRowsFrom_eq_nil (m : OrderedMap ℕ (List Bytes32)) {p tip : ℕ} (h : tip < p) :
    coinRowsFrom m p tip = [] := by
  unfold coinRowsFrom OrderedMap.filter
  apply List.filter_eq_nil_iff.mpr
  intro r _
  simp only [decide_eq_true_eq]
  omega

/-- The coins of the rows from `p` to `b`, read off the assignment they realise. -/
theorem coinRowsFrom_flatMap {m : OrderedMap ℕ (List Bytes32)} {c : ℕ → List Bytes32} {p b : ℕ}
    (hc : ∀ k, p ≤ k → k ≤ b → (m.get k).getD [] = c k) :
    (coinRowsFrom m p b).flatMap Prod.snd = (List.range' p (b + 1 - p)).flatMap c := by
  unfold coinRowsFrom
  rw [OrderedMap.rows_flatMap_eq_range' _ (fun _ v => v) p (b + 1 - p)]
  · apply List.flatMap_congr
    intro k hk
    have hk' := List.mem_range'_1.mp hk
    have hkb : p ≤ k ∧ k ≤ b := by omega
    rw [OrderedMap.get_filter, if_pos (by simpa using hkb), ← hc k hkb.1 hkb.2]
    cases m.get k <;> rfl
  · intro k hk
    rw [OrderedMap.get_filter] at hk
    by_cases h : p ≤ k ∧ k ≤ b
    · omega
    · simp [h] at hk

/-- Cutting the coin rows of a range leaves those of the smaller range. -/
theorem filter_coinRowsFrom (m : OrderedMap ℕ (List Bytes32)) {p tip p' tip' : ℕ} (P : ℕ → Prop)
    [DecidablePred P] (h : ∀ k, P k ∧ p ≤ k ∧ k ≤ tip ↔ p' ≤ k ∧ k ≤ tip') :
    ((coinRowsFrom m p tip).filter fun r => decide (P r.1)) = coinRowsFrom m p' tip' := by
  unfold coinRowsFrom OrderedMap.filter
  rw [List.filter_filter]
  apply List.filter_congr
  intro r _
  rw [← Bool.decide_and, decide_eq_decide]
  exact h r.1

/-- One round of the inner loop, on rows that realise an assignment: the tree below `p`
becomes the tree up to the boundary. -/
theorem replayUpTo_coinRowsFrom {m : OrderedMap ℕ (List Bytes32)} {c : ℕ → List Bytes32}
    {p b tip : ℕ} (hc : ∀ k ≤ tip, (m.get k).getD [] = c k) (hcan : ∀ k ≤ tip, Canonical (c k))
    (hpb : p ≤ b + 1) (hb : b ≤ tip) :
    replayUpTo b (coinRowsFrom m p tip) (tipTreeOf (coinsBelow c p)) =
      .ok (coinRowsFrom m (b + 1) tip, treeTo c b) := by
  have hlow : ((coinRowsFrom m p tip).filter fun r => decide (r.1 ≤ b)) = coinRowsFrom m p b := by
    apply filter_coinRowsFrom m (· ≤ b)
    omega
  have hhigh : ((coinRowsFrom m p tip).filter fun r => decide (b < r.1)) =
      coinRowsFrom m (b + 1) tip := by
    apply filter_coinRowsFrom m (b < ·)
    omega
  have hcoins : (coinRowsFrom m p b).flatMap Prod.snd = (List.range' p (b + 1 - p)).flatMap c :=
    coinRowsFrom_flatMap fun k _ hk => hc k (by omega)
  have hcanb : Canonical ((List.range' p (b + 1 - p)).flatMap c) := by
    intro coin hcoin
    obtain ⟨k, hk, hmem⟩ := List.mem_flatMap.mp hcoin
    have := List.mem_range'_1.mp hk
    exact hcan k (by omega) coin hmem
  have hsorted : (coinRowsFrom m p tip).Pairwise fun x y => x.1 < y.1 := OrderedMap.sorted _
  rw [replayUpTo_eq b _ _ hsorted, hlow, hhigh, hcoins, appendCoins_tipTreeOf _ hcanb,
    coinsBelow_append_range', show p + (b + 1 - p) = b + 1 by omega]
  rfl

/-- The next boundary is higher, at most the tip, and skips no interval height. -/
theorem nextBoundary_spec {b tip : ℕ} (hb : b < tip) (htip : tip ≤ u32Max) :
    b < nextBoundary b tip ∧ nextBoundary b tip ≤ tip ∧
      ∀ k, b < k → k < nextBoundary b tip → k % merkleSnapshotInterval ≠ 0 := by
  simp only [nextBoundary, saturatingAdd, merkleSnapshotInterval, u32Max] at *
  by_cases hrem : b % 1024 = 0
  · simp only [hrem, if_true]
    split_ifs <;> exact ⟨by omega, by omega, fun k hk hkn => by omega⟩
  · simp only [hrem, if_false]
    split_ifs <;> exact ⟨by omega, by omega, fun k hk hkn => by omega⟩

/-- One round of the boundary loop: the snapshot of an interval height, then the next rounds. -/
theorem rebuildLoop_round {m : OrderedMap ℕ (List Bytes32)} {c : ℕ → List Bytes32} {p b tip : ℕ}
    (hc : ∀ k ≤ tip, (m.get k).getD [] = c k) (hcan : ∀ k ≤ tip, Canonical (c k))
    (hpb : p ≤ b + 1) (hb : b ≤ tip) (fuel : ℕ) :
    rebuildLoop tip (fuel + 1) b false (coinRowsFrom m p tip) (tipTreeOf (coinsBelow c p)) =
      (if b % merkleSnapshotInterval = 0 then merkleSnapshots.insert b (.value (treeTo c b))
        else Prog.ret ()).bind fun _ =>
      if b ≥ tip then Prog.ret (coinRowsFrom m (b + 1) tip, treeTo c b)
      else rebuildLoop tip fuel (nextBoundary b tip) false (coinRowsFrom m (b + 1) tip)
        (treeTo c b) := by
  rw [rebuildLoop]
  simp only [Bool.false_eq_true, if_false, replayUpTo_coinRowsFrom hc hcan hpb hb, liftExcept,
    Prog.bind_eq, Prog.bind]
  by_cases hi : b % merkleSnapshotInterval = 0
  · simp only [hi, if_true]
    rfl
  · simp only [hi, if_false]
    rfl

/-- The boundary loop writes a right snapshot at every interval height from the boundary
up to the tip and ends with the tree of the tip. -/
theorem rebuildLoop_run {m : OrderedMap ℕ (List Bytes32)} {c : ℕ → List Bytes32} {tip : ℕ}
    (hc : ∀ k ≤ tip, (m.get k).getD [] = c k) (hcan : ∀ k ≤ tip, Canonical (c k))
    (htip : tip ≤ u32Max) (fuel b p : ℕ) (s : Cache) (hfuel : tip < b + fuel) (hb : b ≤ tip)
    (hpb : p ≤ b + 1) :
    ∃ snaps, (rebuildLoop tip fuel b false (coinRowsFrom m p tip)
        (tipTreeOf (coinsBelow c p))).run s = (.ok ([], treeTo c tip), s.setSnapshots snaps) ∧
      ∀ k, snaps.get k = if b ≤ k ∧ k ≤ tip ∧ k % merkleSnapshotInterval = 0 then
        some (.value (treeTo c k)) else s.db.trees.merkleSnapshots.get k := by
  induction fuel generalizing b p s with
  | zero => omega
  | succ fuel ih =>
    -- the snapshots after this round
    set snaps₁ := if b % merkleSnapshotInterval = 0 then
      s.db.trees.merkleSnapshots.insert b (.value (treeTo c b)) else s.db.trees.merkleSnapshots
      with hsnaps₁
    have hget₁ : ∀ k, snaps₁.get k = if k = b ∧ b % merkleSnapshotInterval = 0 then
        some (.value (treeTo c b)) else s.db.trees.merkleSnapshots.get k := by
      intro k
      rw [hsnaps₁]
      by_cases hi : b % merkleSnapshotInterval = 0 <;> by_cases hk : k = b <;> simp [hi, hk]
    have hround : (rebuildLoop tip (fuel + 1) b false (coinRowsFrom m p tip)
        (tipTreeOf (coinsBelow c p))).run s =
        (if b ≥ tip then pure (coinRowsFrom m (b + 1) tip, treeTo c b)
         else rebuildLoop tip fuel (nextBoundary b tip) false (coinRowsFrom m (b + 1) tip)
          (treeTo c b)).run (s.setSnapshots snaps₁) := by
      rw [rebuildLoop_round hc hcan hpb hb]
      refine Prog.run_bind_of_ok (a := ()) ?_ _
      rw [hsnaps₁]
      split_ifs <;> rfl
    rw [hround]
    by_cases hbt : b ≥ tip
    · have heq : b = tip := by omega
      subst heq
      rw [if_pos hbt, coinRowsFrom_eq_nil m (Nat.lt_succ_self b)]
      refine ⟨snaps₁, rfl, fun k => ?_⟩
      rw [hget₁]
      by_cases hk : k = b
      · subst hk
        simp
      · have hno : ¬ (b ≤ k ∧ k ≤ b ∧ k % merkleSnapshotInterval = 0) := by omega
        simp [hk, hno]
    · obtain ⟨hlt, hle, hskip⟩ := nextBoundary_spec (not_le.mp hbt) htip
      obtain ⟨snaps, hrun, hget⟩ := ih (nextBoundary b tip) (b + 1) (s.setSnapshots snaps₁)
        (by omega) hle (by omega)
      rw [if_neg hbt]
      refine ⟨snaps, hrun, fun k => ?_⟩
      rw [hget, setSnapshots_merkleSnapshots, hget₁]
      by_cases hk : k = b
      · subst hk
        have hno : ¬ (nextBoundary k tip ≤ k ∧ k ≤ tip ∧ k % merkleSnapshotInterval = 0) := by
          omega
        rw [if_neg hno]
        simp only [true_and, le_refl, hb]
      · simp only [hk, false_and, if_false]
        congr 1
        apply propext
        constructor
        · rintro ⟨h1, h2, h3⟩
          exact ⟨by omega, h2, h3⟩
        · rintro ⟨h1, h2, h3⟩
          refine ⟨?_, h2, h3⟩
          by_contra hlt'
          exact hskip k (by omega) (by omega) h3

/-- The coins of a row. -/
def rowCoins : Stored (List Bytes32) → List Bytes32
  | .value cs => cs
  | .raw _ => []

/-- The coin rows, decoded. -/
def coinMap (db : Db) : OrderedMap ℕ (List Bytes32) := db.blocks.coins.map rowCoins

/-- The coin rows up to `tip` realise the assignment `c`: a height without coins may
have no row. -/
def CoinRows (db : Db) (c : ℕ → List Bytes32) (tip : ℕ) : Prop :=
  ∀ k ≤ tip, db.blocks.coins.get k = none ∧ c k = [] ∨
    db.blocks.coins.get k = some (.value (c k))

/-- Rows that give the coins up to a height give them up to a lower one. -/
theorem CoinRows.mono {db : Db} {c : ℕ → List Bytes32} {tip tip' : ℕ} (h : CoinRows db c tip)
    (hle : tip' ≤ tip) : CoinRows db c tip' := fun k hk => h k (hk.trans hle)

/-- The coin row of a height, or no coins. -/
theorem CoinRows.coinMap_get {db : Db} {c : ℕ → List Bytes32} {tip : ℕ} (h : CoinRows db c tip) :
    ∀ k ≤ tip, ((coinMap db).get k).getD [] = c k := by
  intro k hk
  rcases h k hk with ⟨hnone, hc⟩ | hsome
  · simp [coinMap, hnone, hc]
  · simp [coinMap, hsome, rowCoins]

/-- Decoding rows that all hold values. -/
theorem mapM_decodeRow (what : String) (rows : List (ℕ × Stored (List Bytes32)))
    (h : ∀ r ∈ rows, ∃ cs, r.2 = .value cs) :
    (rows.mapM fun r => do
      let cs ← decodeRow what r.2
      (pure (r.1, cs) : Except LightWalletError (ℕ × List Bytes32))) =
      .ok (rows.map fun r => (r.1, rowCoins r.2)) := by
  apply mapM_eq_map
  intro r hr
  obtain ⟨cs, hcs⟩ := h r hr
  rw [hcs]
  rfl

/-- `get_coins_range` reads the rows of the range. -/
theorem getCoinsRange_run {s : Cache} {c : ℕ → List Bytes32} {start last : ℕ}
    (hle : start ≤ last) (hc : CoinRows s.db c last) :
    (getCoinsRange start last).run s = (.ok (coinRowsFrom (coinMap s.db) start last), s) := by
  have hrows : ∀ r ∈ (s.db.blocks.coins.filter fun h => decide (start ≤ h ∧ h ≤ last)).rows,
      ∃ cs, r.2 = .value cs := by
    intro r hr
    obtain ⟨hk, hget⟩ := OrderedMap.mem_rows_filter.mp hr
    rw [decide_eq_true_eq] at hk
    obtain ⟨hnone, -⟩ | hsome := hc r.1 hk.2
    · rw [hnone] at hget
      cases hget
    · rw [hsome] at hget
      exact ⟨_, (Option.some.inj hget).symm⟩
  unfold getCoinsRange
  rw [if_neg (by omega), Prog.bind_eq, Prog.run_bind_of_ok (Tree.run_range coins _ s),
    run_liftExcept]
  show ((s.db.blocks.coins.filter fun h => decide (start ≤ h ∧ h ≤ last)).rows.mapM _, s) = _
  rw [mapM_decodeRow _ _ hrows]
  unfold coinRowsFrom coinMap
  rw [OrderedMap.rows_filter_map]

/-- The snapshots after a rebuild of `tip` from `seed`: the tip row, a row at every
interval height the replay passed, and of the older rows all but a seed off the interval. -/
def RebuiltSnapshots (c : ℕ → List Bytes32) (tip : ℕ) (seed : Option ℕ)
    (old new : OrderedMap ℕ (Stored MerkleTree)) : Prop :=
  ∀ k, new.get k =
    if k = tip then some (.value (treeTo c tip))
    else if seed = some k ∧ k % merkleSnapshotInterval ≠ 0 then none
    else if (∀ s₀ ∈ seed, s₀ < k) ∧ k ≤ tip ∧ k % merkleSnapshotInterval = 0 then
      some (.value (treeTo c k))
    else old.get k

/-- The cache after a rebuild of `tip`. -/
def Cache.rebuilt (s : Cache) (c : ℕ → List Bytes32) (tip : ℕ)
    (snaps : OrderedMap ℕ (Stored MerkleTree)) : Cache :=
  (s.setTrees ⟨snaps, some (.value (treeTo c tip)), some (.value tip)⟩).setLive
    ⟨some tip, treeTo c tip, false⟩

section Rebuild

variable {c : ℕ → List Bytes32} {tip : ℕ} {s : Cache}

/-- A block row that decodes is read. -/
theorem getCompactBlock_run_of_value {h : ℕ} {block : CompactBlock}
    (hrow : s.db.blocks.compactBlocks.get h = some (.value block)) :
    (getCompactBlock h).run s = (.ok (some block), s) := by
  unfold getCompactBlock
  rw [Prog.bind_eq, Prog.run_bind_of_ok (Tree.run_get compactBlocks h s)]
  simp only [compactBlocks, hrow]
  rfl

/-- A height without a row has no block. -/
theorem getCompactBlock_run_of_none {h : ℕ} (hrow : s.db.blocks.compactBlocks.get h = none) :
    (getCompactBlock h).run s = (.ok none, s) := by
  unfold getCompactBlock
  rw [Prog.bind_eq, Prog.run_bind_of_ok (Tree.run_get compactBlocks h s)]
  simp only [compactBlocks, hrow]
  rfl

/-- Without a snapshot there is no seed. -/
theorem seedSnapshot_run_of_none (h : s.db.trees.merkleSnapshots.lastUpTo tip = none) :
    (seedSnapshot tip).run s = (.ok none, s) := by
  unfold seedSnapshot greatestSnapshotAtOrBelow
  simp [Prog.run_bind, merkleSnapshots, h]

/-- The greatest snapshot up to the tip is the seed. -/
theorem seedSnapshot_run_of_some {h₀ : ℕ} {tree : MerkleTree}
    (h : s.db.trees.merkleSnapshots.lastUpTo tip = some (h₀, .value tree)) :
    (seedSnapshot tip).run s = (.ok (some (h₀, tree)), s) := by
  unfold seedSnapshot greatestSnapshotAtOrBelow
  simp [Prog.run_bind, merkleSnapshots, h]

/-- The rebuild from nothing gives the tree of all coins up to the tip. -/
theorem replayFromSeed_none_run (htip : tip ≤ u32Max) (hc : CoinRows s.db c tip)
    (hcan : ∀ k ≤ tip, Canonical (c k)) :
    ∃ snaps, (replayFromSeed tip none emptyTipTree).run s = (.ok (), s.rebuilt c tip snaps) ∧
      RebuiltSnapshots c tip none s.db.trees.merkleSnapshots snaps := by
  obtain ⟨loopSnaps, hrun, hget⟩ := rebuildLoop_run (m := coinMap s.db) hc.coinMap_get hcan htip
    (tip + 1) 0 0 s (by omega) (Nat.zero_le tip) (by omega)
  rw [coinsBelow_zero, tipTreeOf_nil] at hrun
  refine ⟨loopSnaps.insert tip (.value (treeTo c tip)), ?_, fun k => ?_⟩
  · unfold replayFromSeed
    simp only [Prog.bind_eq, Nat.not_lt_zero, gt_iff_lt, if_false, Option.getD_none,
      Option.isSome_none]
    rw [Prog.run_bind_of_ok (getCoinsRange_run (Nat.zero_le tip) hc), Prog.run_bind_of_ok hrun]
    show (Prog.bind (storeTipTree none tip (treeTo c tip)) _).run _ = _
    rw [Prog.run_bind_of_ok (storeTipTree_run _ _ _ _)]
    rfl
  · rw [OrderedMap.get_insert, hget]
    by_cases hk : k = tip
    · simp [hk]
    · simp [hk]

/-- So does the rebuild from a seed that is the tree of its height. -/
theorem replayFromSeed_some_run {seed : ℕ} (hseed : seed < tip) (htip : tip ≤ u32Max)
    (hc : CoinRows s.db c tip) (hcan : ∀ k ≤ tip, Canonical (c k)) :
    ∃ snaps, (replayFromSeed tip (some seed) (treeTo c seed)).run s =
        (.ok (), s.rebuilt c tip snaps) ∧
      RebuiltSnapshots c tip (some seed) s.db.trees.merkleSnapshots snaps := by
  obtain ⟨hlt, hle, hskip⟩ := nextBoundary_spec hseed htip
  obtain ⟨loopSnaps, hrun, hget⟩ := rebuildLoop_run (m := coinMap s.db) hc.coinMap_get hcan htip
    tip (nextBoundary seed tip) (seed + 1) s (by omega) hle (by omega)
  have hfrom : saturatingAdd seed 1 = seed + 1 := by
    unfold saturatingAdd
    omega
  have hloop : (rebuildLoop tip (tip + 1) seed true (coinRowsFrom (coinMap s.db) (seed + 1) tip)
      (treeTo c seed)).run s = (.ok ([], treeTo c tip), s.setSnapshots loopSnaps) := by
    rw [← hrun, rebuildLoop]
    simp only [if_true, Prog.bind_eq, Prog.pure_eq, Prog.bind, if_neg (not_le.mpr hseed), ge_iff_le]
    rfl
  refine ⟨dropPrevious (some seed) tip (loopSnaps.insert tip (.value (treeTo c tip))), ?_,
    fun k => ?_⟩
  · unfold replayFromSeed
    simp only [Prog.bind_eq, hfrom, if_neg (show ¬ seed + 1 > tip by omega), Option.getD_some,
      Option.isSome_some]
    rw [Prog.run_bind_of_ok (getCoinsRange_run hseed hc), Prog.run_bind_of_ok hloop]
    show (Prog.bind (storeTipTree (some seed) tip (treeTo c tip)) _).run _ = _
    rw [Prog.run_bind_of_ok (storeTipTree_run _ _ _ _)]
    rfl
  · rw [get_dropPrevious, OrderedMap.get_insert, hget]
    by_cases hk : k = tip
    · simp [hk]
    · by_cases hks : k = seed
      · subst hks
        by_cases hi : k % merkleSnapshotInterval = 0
        · have hno : ¬ (nextBoundary k tip ≤ k ∧ k ≤ tip) := by omega
          simp [hk, hi, hno]
        · simp [hk, hi]
      · have hiff : (nextBoundary seed tip ≤ k ∧ k ≤ tip ∧ k % merkleSnapshotInterval = 0) ↔
            (seed < k ∧ k ≤ tip ∧ k % merkleSnapshotInterval = 0) := by
          constructor
          · rintro ⟨h1, h2, h3⟩
            exact ⟨by omega, h2, h3⟩
          · rintro ⟨h1, h2, h3⟩
            refine ⟨?_, h2, h3⟩
            by_contra hlt'
            exact hskip k h1 (by omega) h3
        simp [hk, Ne.symm hks, hiff]

/-- The snapshots at or below `tip` are the trees of their heights. -/
def RightSnapshots (m : OrderedMap ℕ (Stored MerkleTree)) (c : ℕ → List Bytes32) (tip : ℕ) :
    Prop := ∀ k ≤ tip, ∀ row, m.get k = some row → row = .value (treeTo c k)

/-- The last snapshot at or below `tip` is the tree of its height. -/
theorem RightSnapshots.lastUpTo {m : OrderedMap ℕ (Stored MerkleTree)} (h : RightSnapshots m c tip)
    {h₀ : ℕ} {row : Stored MerkleTree} (hlast : m.lastUpTo tip = some (h₀, row)) :
    h₀ ≤ tip ∧ row = .value (treeTo c h₀) := by
  obtain ⟨hget, hle, -⟩ := (OrderedMap.lastUpTo_eq_some_iff _ _ _ _).mp hlast
  exact ⟨hle, h h₀ hle row hget⟩

/-- How a rebuild goes on from the snapshot that it starts from. -/
def rebuildFrom (tip : ℕ) : Option (ℕ × MerkleTree) → CacheM Unit
  | some (height, tree) =>
    if height ≥ tip then do
      storeTipTree (some height) tip tree
      Prog.update fun s => { s with tipTree := ⟨some tip, tree, false⟩ }
    else replayFromSeed tip (some height) tree
  | none => replayFromSeed tip none emptyTipTree

/-- The rebuild when there is a block to start from. -/
def rebuildFromSnapshots (tip : ℕ) : CacheM Unit := do
  deleteSnapshotsAbove tip
  rebuildFrom tip (← seedSnapshot tip)

/-- The rebuild when there is none. -/
def clearTipTree : CacheM Unit := do
  metaTipMerkleTree.remove
  metaTipMerkleHeight.remove
  clearMerkleSnapshots
  Prog.update fun s => { s with tipTree := ⟨none, emptyTipTree, false⟩ }

/-- A rebuild at height 0 without a block clears the tree; any other goes on from a snapshot. -/
theorem rebuildTipMerkleTree_eq (tip : ℕ) : rebuildTipMerkleTree tip =
    if tip = 0 then (getCompactBlock 0).bind fun block =>
      if block.isNone then clearTipTree else rebuildFromSnapshots tip
    else rebuildFromSnapshots tip := by
  unfold rebuildTipMerkleTree
  by_cases h0 : tip = 0
  · rw [if_pos h0, if_pos h0]
    exact Prog.bind_assoc _ _ _
  · rw [if_neg h0, if_neg h0]
    rfl

/-- The snapshot a rebuild of `tip` starts from. -/
def seedHeight (m : OrderedMap ℕ (Stored MerkleTree)) (tip : ℕ) : Option ℕ :=
  (m.lastUpTo tip).map Prod.fst

/-- Dropping the snapshots above the tip does not change the seed. -/
theorem seedHeight_filter_le (m : OrderedMap ℕ (Stored MerkleTree)) (tip : ℕ) :
    seedHeight (m.filter fun k => decide (k ≤ tip)) tip = seedHeight m tip := by
  unfold seedHeight
  rw [OrderedMap.lastUpTo_filter_le]

/-- A seed is the height of a snapshot. -/
theorem seedHeight_mem {m : OrderedMap ℕ (Stored MerkleTree)} {tip seed : ℕ}
    (h : seed ∈ seedHeight m tip) : ∃ row, m.get seed = some row := by
  obtain ⟨⟨k, row⟩, hlast, rfl⟩ := Option.map_eq_some_iff.mp h
  exact ⟨row, ((OrderedMap.lastUpTo_eq_some_iff _ _ _ _).mp hlast).1⟩

/-- The rebuild, over right snapshots and coin rows that realise `c`. -/
theorem rebuildTipMerkleTree_run (htip : tip ≤ u32Max)
    (hmax : tip = u32Max → ∀ k, (s.db.trees.merkleSnapshots.get k).isSome → k ≤ tip)
    (hgen : tip = 0 → ∃ block, s.db.blocks.compactBlocks.get 0 = some (.value block))
    (hc : CoinRows s.db c tip) (hcan : ∀ k ≤ tip, Canonical (c k))
    (hsnaps : RightSnapshots s.db.trees.merkleSnapshots c tip) :
    ∃ snaps, (rebuildTipMerkleTree tip).run s = (.ok (), s.rebuilt c tip snaps) ∧
      RebuiltSnapshots c tip (seedHeight s.db.trees.merkleSnapshots tip)
        (s.db.trees.merkleSnapshots.filter fun h => decide (h ≤ tip)) snaps := by
  set kept := s.db.trees.merkleSnapshots.filter fun h => decide (h ≤ tip) with hkept
  have hlast : kept.lastUpTo tip = s.db.trees.merkleSnapshots.lastUpTo tip :=
    OrderedMap.lastUpTo_filter_le _ _
  have hstart : (rebuildTipMerkleTree tip).run s =
      ((seedSnapshot tip).bind (rebuildFrom tip)).run (s.setSnapshots kept) := by
    have hdel := deleteSnapshotsAbove_run tip s hmax
    rw [rebuildTipMerkleTree_eq]
    by_cases h0 : tip = 0
    · obtain ⟨block, hblock⟩ := hgen h0
      rw [if_pos h0, Prog.run_bind_of_ok (getCompactBlock_run_of_value hblock)]
      exact Prog.run_bind_of_ok hdel _
    · rw [if_neg h0]
      exact Prog.run_bind_of_ok hdel _
  rw [hstart]
  unfold seedHeight
  rw [← hlast]
  cases hl : kept.lastUpTo tip with
  | none =>
    rw [Prog.run_bind_of_ok (seedSnapshot_run_of_none (s := s.setSnapshots kept) hl)]
    exact replayFromSeed_none_run (s := s.setSnapshots kept) htip hc hcan
  | some r =>
    obtain ⟨h₀, row⟩ := r
    obtain ⟨hle, rfl⟩ := hsnaps.lastUpTo (hlast ▸ hl)
    rw [Prog.run_bind_of_ok (seedSnapshot_run_of_some (s := s.setSnapshots kept) hl)]
    simp only [rebuildFrom]
    by_cases hh : h₀ ≥ tip
    · have heq : h₀ = tip := by omega
      subst heq
      rw [if_pos hh, Prog.bind_eq, Prog.run_bind_of_ok (storeTipTree_run _ _ _ _)]
      refine ⟨_, rfl, fun k => ?_⟩
      rw [get_dropPrevious, setSnapshots_merkleSnapshots, OrderedMap.get_insert]
      by_cases hk : k = h₀
      · simp [hk]
      · have hno : ¬ (h₀ < k ∧ k ≤ h₀ ∧ k % merkleSnapshotInterval = 0) := by omega
        simp [hk, Ne.symm hk, hno]
    · rw [if_neg hh]
      exact replayFromSeed_some_run (s := s.setSnapshots kept) (by omega) htip hc hcan

end Rebuild

/-- A rebuild of height 0 without a genesis block drops the tree. -/
theorem rebuildTipMerkleTree_run_absent {s : Cache}
    (h : s.db.blocks.compactBlocks.get 0 = none) :
    (rebuildTipMerkleTree 0).run s =
      (.ok (), (s.setTrees .empty).setLive ⟨none, emptyTipTree, false⟩) := by
  unfold rebuildTipMerkleTree
  simp only [if_true, Prog.bind_eq]
  rw [Prog.run_bind_of_ok (getCompactBlock_run_of_none h)]
  show (metaTipMerkleTree.remove.bind fun _ => metaTipMerkleHeight.remove.bind fun _ =>
    clearMerkleSnapshots.bind fun _ => Prog.update _).run s = _
  rw [Prog.run_bind_of_ok (Cell.run_remove _ _), Prog.run_bind_of_ok (Cell.run_remove _ _),
    Prog.run_bind_of_ok (clearMerkleSnapshots_run _)]
  rfl

/-- Every snapshot a rebuild leaves is at or below the tip and right for its height. -/
theorem RebuiltSnapshots.right {c : ℕ → List Bytes32} {tip : ℕ} {seed : Option ℕ}
    {old new : OrderedMap ℕ (Stored MerkleTree)} (h : RebuiltSnapshots c tip seed old new)
    (hold : ∀ k row, old.get k = some row → k ≤ tip ∧ row = .value (treeTo c k)) :
    ∀ k row, new.get k = some row → k ≤ tip ∧ row = .value (treeTo c k) := by
  intro k row hrow
  rw [h k] at hrow
  split_ifs at hrow with h1 h2 h3
  · cases hrow
    exact ⟨h1.le, by rw [h1]⟩
  · cases hrow
    exact ⟨h3.2.1, rfl⟩
  · exact hold k row hrow

/-! ## Appending -/

/-- Appending canonical coins extends the tree in memory and writes it out. -/
theorem appendNodes_run (height : ℕ) {cs : List Bytes32} (s : Cache) (hcan : Canonical cs) :
    (appendNodes height cs).run s = (.ok (),
      (s.setTrees ⟨dropPrevious s.tipTree.height height (s.db.trees.merkleSnapshots.insert height
          (.value ((cs.filterMap Base.fromBytes).foldl MerkleTree.append s.tipTree.tree))),
        some (.value ((cs.filterMap Base.fromBytes).foldl MerkleTree.append s.tipTree.tree)),
        some (.value height)⟩).setLive
      ⟨some height, (cs.filterMap Base.fromBytes).foldl MerkleTree.append s.tipTree.tree, false⟩) := by
  set tree := (cs.filterMap Base.fromBytes).foldl MerkleTree.append s.tipTree.tree with htree
  have hstore := storeTipTree_run s.tipTree.height height tree
    (s.setLive { s.tipTree with tree := tree })
  have hattempt := Prog.run_attempt (storeTipTree s.tipTree.height height tree)
    (s.setLive { s.tipTree with tree := tree })
  rw [hstore] at hattempt
  unfold appendNodes
  rw [mapM_coinToMerkleNode hcan]
  simp only [liftExcept, Prog.bind_eq, Prog.bind]
  rw [Prog.run_bind_of_ok (Prog.run_get _ _), Prog.run_bind_of_ok (Prog.run_update _ _)]
  refine (Prog.run_bind_of_ok hattempt _).trans ?_
  rfl

/-- Whether an append to `live` at `height` rebuilds the tree first. -/
def LiveTipTree.needsRebuild (live : LiveTipTree) (height : ℕ) : Bool :=
  live.loadFailed || match live.height with
    | some prev => decide (height ≠ saturatingAdd prev 1)
    | none => false

/-- `append_coins_to_tip_tree` rebuilds first where the live tree is not the one below. -/
theorem appendCoinsToTipTree_run (height : ℕ) (cs : List Bytes32) (s : Cache) :
    (appendCoinsToTipTree height cs).run s =
      (if s.tipTree.needsRebuild height then
        if height = 0 then rebuildTipMerkleTree 0
        else (rebuildTipMerkleTree (height - 1)).bind fun _ => appendNodes height cs
      else appendNodes height cs).run s := by
  unfold appendCoinsToTipTree LiveTipTree.needsRebuild
  rw [Prog.bind_eq, Prog.run_bind_of_ok (Prog.run_get _ _)]
  rfl

end LightWalletd
