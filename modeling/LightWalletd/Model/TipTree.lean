import LightWalletd.Model.Store

/-!
# The Money tree

The tip tree exists three times: in memory, under two keys of the metadata tree,
and as the newest row of the snapshot tree, which also keeps one row for every
`merkleSnapshotInterval` heights. Appending a block extends the tree in memory and
writes it out; every other change rebuilds the tree from the nearest snapshot and
the coin rows above it.
-/

set_option autoImplicit false

namespace LightWalletd

open Stateful

/-- SOURCE: cache.rs:103 -/
def merkleSnapshotInterval : ℕ := 1024

/-- SOURCE: cache.rs:1049-1060 -/
def emptyTipTree : MerkleTree := MerkleTree.new.append Base.zero

/-- SOURCE: cache.rs:1062-1068 -/
def coinToMerkleNode (coin : Bytes32) : Except LightWalletError Base :=
  match Base.fromBytes coin with
  | some node => .ok node
  | none => .error (.serializationError "coin bytes are not a canonical pallas::Base")

/-- The value of a row, or the error of a row that does not decode. -/
def decodeRow {α : Type} (what : String) : Stored α → Except LightWalletError α
  | .value a => .ok a
  | .raw _ => .error (.serializationError what)

/-- SOURCE: cache.rs:840-853 -/
def getCompactBlock (height : ℕ) : CacheM (Option CompactBlock) := do
  match ← compactBlocks.get height with
  | some row => do
    let block ← liftExcept (decodeRow "Failed to deserialize compact block" row)
    pure (some block)
  | none => pure none

/-- SOURCE: cache.rs:921-946 -/
def getCoinsRange (start last : ℕ) : CacheM (List (ℕ × List Bytes32)) := do
  if start > last then Prog.fail (.invalidBlockRange start last)
  else do
    let rows ← coins.range fun h => decide (start ≤ h ∧ h ≤ last)
    liftExcept (rows.mapM fun r => do
      let cs ← decodeRow "Failed to deserialize coins" r.2
      pure (r.1, cs))

/-- The height and the tree of the tip keys; a height of another length is no height.
SOURCE: cache.rs:1035-1047 -/
def getTipTreeState : CacheM (Option (ℕ × Stored MerkleTree)) := do
  match ← metaTipMerkleHeight.get with
  | none => pure none
  | some (.raw _) => pure none
  | some (.value height) => do
    match ← metaTipMerkleTree.get with
    | none => pure none
    | some treeData => pure (some (height, treeData))

/-- SOURCE: cache.rs:1143-1149 -/
def dropNonIntervalSnapshotsExcept (prev : Option ℕ) (keep : ℕ) : CacheM Unit := do
  match prev with
  | none => pure ()
  | some prev =>
    if prev ≠ keep ∧ prev % merkleSnapshotInterval ≠ 0 then do
      let _ ← merkleSnapshots.remove prev
    else pure ()

/-- SOURCE: cache.rs:1121-1136 -/
def recordTreeSnapshot (prevHeight : Option ℕ) (height : ℕ) (treeData : MerkleTree)
    (isTip : Bool) : CacheM Unit := do
  if height % merkleSnapshotInterval = 0 ∨ isTip then
    merkleSnapshots.insert height (.value treeData)
  else pure ()
  if isTip then dropNonIntervalSnapshotsExcept prevHeight height
  else pure ()

/-- SOURCE: cache.rs:1101-1115 -/
def storeTipTree (prevHeight : Option ℕ) (height : ℕ) (tree : MerkleTree) : CacheM Unit := do
  metaTipMerkleTree.insert (.value tree)
  metaTipMerkleHeight.insert (.value height)
  recordTreeSnapshot prevHeight height tree true

/-- Remove the snapshots of the given heights one by one. -/
def removeSnapshots (heights : List ℕ) : CacheM Unit :=
  Prog.forEach (fun h => do let _ ← merkleSnapshots.remove h) heights

/-- SOURCE: cache.rs:1158-1168 -/
def deleteSnapshotsAtOrAbove (height : ℕ) : CacheM Unit := do
  let heights ← merkleSnapshots.keys fun h => decide (height ≤ h)
  removeSnapshots heights

/-- SOURCE: cache.rs:1151-1156 -/
def deleteSnapshotsAbove (height : ℕ) : CacheM Unit :=
  if height = u32Max then pure () else deleteSnapshotsAtOrAbove (height + 1)

/-- SOURCE: cache.rs:1170-1180 -/
def clearMerkleSnapshots : CacheM Unit := do
  let heights ← merkleSnapshots.keys fun _ => true
  removeSnapshots heights

/-- SOURCE: cache.rs:1182-1192 -/
def indexExistingTipSnapshot : CacheM Unit := do
  match ← getTipTreeState with
  | none => pure ()
  | some (height, data) => do
    match ← merkleSnapshots.get height with
    | none => merkleSnapshots.insert height data
    | some _ => pure ()

/-- SOURCE: cache.rs:1194-1200 -/
def merkleSnapshot (height : ℕ) : CacheM (Option (Stored MerkleTree)) :=
  merkleSnapshots.get height

/-- SOURCE: cache.rs:1202-1216 -/
def greatestSnapshotAtOrBelow (height : ℕ) : CacheM (Option (ℕ × Stored MerkleTree)) :=
  merkleSnapshots.lastUpTo height

/-- SOURCE: cache.rs:1218-1221 -/
def latestSnapshot : CacheM (Option (ℕ × Stored MerkleTree)) := greatestSnapshotAtOrBelow u32Max

/-- Append coins in order; the first one that is no field element is an error. -/
def appendCoins (coins : List Bytes32) (tree : MerkleTree) : Except LightWalletError MerkleTree :=
  coins.foldlM (fun tree coin => do
    let node ← coinToMerkleNode coin
    pure (tree.append node)) tree

/-- The inner loop of the rebuild: append the coin rows at or below `boundary` and
return the rows left.
SOURCE: cache.rs:1342-1347 -/
def replayUpTo (boundary : ℕ) : List (ℕ × List Bytes32) → MerkleTree →
    Except LightWalletError (List (ℕ × List Bytes32) × MerkleTree)
  | [], tree => .ok ([], tree)
  | (h, cs) :: rest, tree =>
    if h ≤ boundary then do
      let tree ← appendCoins cs tree
      replayUpTo boundary rest tree
    else .ok ((h, cs) :: rest, tree)

/-- The boundary after `boundary`, at most `tipHeight`.
SOURCE: cache.rs:1357-1363 -/
def nextBoundary (boundary tipHeight : ℕ) : ℕ :=
  let rem := boundary % merkleSnapshotInterval
  let next :=
    if rem = 0 then saturatingAdd boundary merkleSnapshotInterval
    else saturatingAdd boundary (merkleSnapshotInterval - rem)
  if next > tipHeight then tipHeight else next

/-- The boundary loop of the rebuild. A round below the tip moves the boundary up,
so `tipHeight + 1` rounds are enough.
SOURCE: cache.rs:1338-1364 -/
def rebuildLoop (tipHeight : ℕ) : ℕ → ℕ → Bool → List (ℕ × List Bytes32) → MerkleTree →
    CacheM (List (ℕ × List Bytes32) × MerkleTree)
  | 0, _, _, ranges, tree => pure (ranges, tree)
  | fuel + 1, boundary, skippedSeed, ranges, tree => do
    let (ranges, tree) ←
      if skippedSeed then pure (ranges, tree)
      else do
        let (ranges, tree) ← liftExcept (replayUpTo boundary ranges tree)
        if boundary % merkleSnapshotInterval = 0 then
          merkleSnapshots.insert boundary (.value tree)
        else pure ()
        pure (ranges, tree)
    if boundary ≥ tipHeight then pure (ranges, tree)
    else rebuildLoop tipHeight fuel (nextBoundary boundary tipHeight) false ranges tree

/-- The nearest snapshot to start a rebuild from, when there is one that decodes.
SOURCE: cache.rs:1302-1315 -/
def seedSnapshot (tipHeight : ℕ) : CacheM (Option (ℕ × MerkleTree)) := do
  match ← greatestSnapshotAtOrBelow tipHeight with
  | some (height, .value tree) => pure (some (height, tree))
  | some (_, .raw _) => pure none
  | none => pure none

/-- The rebuild from a seed below the tip, or from the sentinel.
SOURCE: cache.rs:1324-1378 -/
def replayFromSeed (tipHeight : ℕ) (seedHeight : Option ℕ) (tree : MerkleTree) :
    CacheM Unit := do
  let coinFrom := match seedHeight with
    | some height => saturatingAdd height 1
    | none => 0
  let ranges ←
    if coinFrom > tipHeight then pure []
    else getCoinsRange coinFrom tipHeight
  let (ranges, tree) ←
    rebuildLoop tipHeight (tipHeight + 1) (seedHeight.getD 0) seedHeight.isSome ranges tree
  let tree ← liftExcept (appendCoins (ranges.flatMap Prod.snd) tree)
  storeTipTree seedHeight tipHeight tree
  Prog.update fun s => { s with tipTree := ⟨some tipHeight, tree, false⟩ }

/-- SOURCE: cache.rs:1288-1379 -/
def rebuildTipMerkleTree (tipHeight : ℕ) : CacheM Unit := do
  let noGenesis ←
    if tipHeight = 0 then do
      let block ← getCompactBlock 0
      pure block.isNone
    else pure false
  if noGenesis then do
    metaTipMerkleTree.remove
    metaTipMerkleHeight.remove
    clearMerkleSnapshots
    Prog.update fun s => { s with tipTree := ⟨none, emptyTipTree, false⟩ }
  else do
    deleteSnapshotsAbove tipHeight
    match ← seedSnapshot tipHeight with
    | some (height, tree) =>
      if height ≥ tipHeight then do
        storeTipTree (some height) tipHeight tree
        Prog.update fun s => { s with tipTree := ⟨some tipHeight, tree, false⟩ }
      else replayFromSeed tipHeight (some height) tree
    | none => replayFromSeed tipHeight none emptyTipTree

/-- The tree in memory after a failed write: what is on disk, or a tree that has to
be rebuilt.
SOURCE: cache.rs:1274-1286 -/
def reloadLiveTipLocked : CacheM Unit := do
  match ← getTipTreeState.attempt with
  | .ok (some (height, .value tree)) =>
    Prog.update fun s => { s with tipTree := ⟨some height, tree, false⟩ }
  | _ => Prog.update fun s => { s with tipTree := ⟨none, emptyTipTree, true⟩ }

/-- Append the nodes of one block to the tree in memory and write it out.
SOURCE: cache.rs:1254-1271 -/
def appendNodes (height : ℕ) (coins : List Bytes32) : CacheM Unit := do
  let nodes ← liftExcept (coins.mapM coinToMerkleNode)
  let live ← Prog.get Cache.tipTree
  let tree := nodes.foldl MerkleTree.append live.tree
  Prog.update fun s => { s with tipTree.tree := tree }
  match ← (storeTipTree live.height height tree).attempt with
  | .error e => do
    reloadLiveTipLocked
    Prog.fail e
  | .ok () => Prog.update fun s => { s with tipTree := ⟨some height, tree, false⟩ }

/-- SOURCE: cache.rs:1236-1272 -/
def appendCoinsToTipTree (height : ℕ) (coins : List Bytes32) : CacheM Unit := do
  let live ← Prog.get Cache.tipTree
  let needsRebuild := live.loadFailed || match live.height with
    | some prev => decide (height ≠ saturatingAdd prev 1)
    | none => false
  if needsRebuild then
    if height = 0 then rebuildTipMerkleTree 0
    else do
      rebuildTipMerkleTree (height - 1)
      appendNodes height coins
  else appendNodes height coins

/-- Copy the tip keys into memory. Missing keys keep the tree of a fresh cache.
SOURCE: cache.rs:1074-1099 -/
def loadLiveTipFromDisk : CacheM Unit := do
  match ← getTipTreeState with
  | none => pure ()
  | some (height, .value tree) =>
    Prog.update fun s => { s with tipTree := ⟨some height, tree, false⟩ }
  | some (_, .raw _) => Prog.update fun s => { s with tipTree := ⟨none, emptyTipTree, true⟩ }

end LightWalletd
