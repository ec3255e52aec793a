import LightWalletd.Model.ClueHints
import LightWalletd.Model.TipTree

/-!
# The cache

Opening a cache, inserting a block, rewinding and pruning, with the lookups the
poller and the server use. Functions that read the clock take it as `now`.
-/

set_option autoImplicit false

namespace LightWalletd

open Stateful

/-- SOURCE: cache.rs:73 -/
def cacheFormatVersion : ℕ := 2

/-! ## Lookups -/

/-- A height or hash of the wrong length in a metadata key. -/
def decodeMeta {α : Type} (what : String) : Stored α → Except LightWalletError α
  | .value a => .ok a
  | .raw _ => .error (.cacheError what)

/-- Two separate reads: the height, then the hash.
SOURCE: cache.rs:948-971 -/
def getTip : CacheM (Option (ℕ × Bytes32)) := do
  match ← metaTipHeight.get with
  | none => pure none
  | some row => do
    let height ← liftExcept (decodeMeta "Invalid tip height bytes" row)
    match ← metaTipHash.get with
    | none => pure none
    | some row => do
      let hash ← liftExcept (decodeMeta "Invalid tip hash bytes" row)
      pure (some (height, hash))

/-- SOURCE: cache.rs:880-892 -/
def getBlockHash (height : ℕ) : CacheM (Option Bytes32) := do
  match ← blockHashes.get height with
  | some row => do
    let hash ← liftExcept (decodeMeta "Invalid hash length" row)
    pure (some hash)
  | none => pure none

/-! ## Inserting -/

/-- The rows of a block.
SOURCE: cache.rs:359-406 -/
def storeBlockRows (block : CompactBlock) : CacheM Unit := do
  compactBlocks.insert block.height (.value block)
  blockHashes.insert block.height (.value block.hash)
  hashToHeight.insert block.hash (.value block.height)
  if block.allNullifiers.isEmpty then pure ()
  else nullifiers.insert block.height (.value block.allNullifiers)
  if block.allCoins.isEmpty then pure ()
  else coins.insert block.height (.value block.allCoins)

/-- A block below the tip: the tip stays, the snapshots it invalidates go and the
tree is rebuilt.
SOURCE: cache.rs:408-422 -/
def backfillBlock (block : CompactBlock) (tipHeight : ℕ) : CacheM Unit := do
  deleteSnapshotsAtOrAbove block.height
  rebuildTipMerkleTree tipHeight

/-- SOURCE: cache.rs:424-429 -/
def advanceTip (block : CompactBlock) : CacheM Unit := do
  metaTipHeight.insert (.value block.height)
  metaTipHash.insert (.value block.hash)
  appendCoinsToTipTree block.height block.allCoins

/-- What follows once the clue hints are merged.
SOURCE: cache.rs:357-441 -/
def insertMergedBlock (block : CompactBlock) : CacheM Unit := do
  storeBlockRows block
  match ← getTip with
  | some (tipHeight, _) =>
    if block.height < tipHeight then backfillBlock block tipHeight
    else advanceTip block
  | none => advanceTip block

/-- SOURCE: cache.rs:353-441 -/
def insertCompactBlock (now : ℕ) (block : CompactBlock) : CacheM Unit := do
  let block ← applyOmrClueHints now block
  insertMergedBlock block

/-! ## Rewinding and pruning -/

/-- Delete the rows of one height; the reverse index loses the hash that the height had.
SOURCE: cache.rs:998-1009, cache.rs:1482-1491 -/
def deleteBlockRows (height : ℕ) : CacheM Unit := do
  let _ ← compactBlocks.remove height
  match ← blockHashes.remove height with
  | some (.value hash) => do let _ ← hashToHeight.remove hash
  | _ => pure ()
  let _ ← nullifiers.remove height
  let _ ← coins.remove height

/-- SOURCE: cache.rs:1011-1018 -/
def rewindTip (height : ℕ) : CacheM Unit := do
  match ← getCompactBlock height with
  | some block => do
    metaTipHeight.insert (.value height)
    metaTipHash.insert (.value block.hash)
  | none =>
    if height = 0 then do
      metaTipHeight.remove
      metaTipHash.remove
    else pure ()

/-- The first deleted height is `height + 1` in `u32`, which wraps.
SOURCE: cache.rs:977-1033 -/
def rewindToHeight (height : ℕ) : CacheM Unit := do
  let deleteFrom := wrappingAdd height 1
  let toDelete ← compactBlocks.keys fun h => decide (deleteFrom ≤ h)
  Prog.forEach deleteBlockRows toDelete
  rewindTip height
  deleteSnapshotsAbove height
  rebuildTipMerkleTree height

/-- SOURCE: cache.rs:1454-1495 -/
def pruneBelowHeight (minHeight : ℕ) : CacheM Unit := do
  if minHeight = 0 then pure ()
  else do
    let toDelete ← compactBlocks.keys fun h => decide (h ≤ minHeight - 1)
    Prog.forEach deleteBlockRows toDelete

/-- SOURCE: cache.rs:1497-1519 -/
def pruneWithRetention (retentionWindow : ℕ) : CacheM ℕ := do
  match ← getTip with
  | none => pure 0
  | some (tipHeight, _) =>
    if tipHeight ≤ retentionWindow then pure 0
    else do
      let minHeight := tipHeight - retentionWindow
      pruneBelowHeight minHeight
      pure minHeight

/-! ## Opening -/

/-- Move a 32-byte value to its new name unless that name already holds one.
SOURCE: cache.rs:212-224, cache.rs:228-240 -/
def moveKey (old new : Cell Bytes) : CacheM Unit := do
  let missing := match ← new.get with
    | some bytes => decide (bytes.length ≠ 32)
    | none => true
  if missing then do
    match ← old.get with
    | some value => if value.length = 32 then new.insert value else pure ()
    | none => pure ()
  else pure ()

/-- SOURCE: cache.rs:199-256 -/
def retireObsoleteNames : CacheM Unit := do
  moveKey metaOldAttestV2 metaAttest
  metaOldAttestV1.remove
  metaOldAttestV2.remove
  moveKey metaOldPepper metaClueDirPepper
  metaOldPepper.remove
  metaClueDirPepperAnchor.remove
  metaOldPepperAnchor.remove
  match ← oldClueTree.get with
  | some old => do
    Prog.forEach (fun row => do
      match ← omrCluePubkeys.get row.1 with
      | none => omrCluePubkeys.insert row.1 row.2
      | some _ => pure ()) old.rows
    oldClueTree.remove
  | none => pure ()
  match ← oldClueTreeV1.get with
  | some _ => oldClueTreeV1.remove
  | none => pure ()

/-- The tree in memory is left without the sentinel leaf.
SOURCE: cache.rs:264-289 -/
def clearDerivedBlockCache : CacheM Unit := do
  compactBlocks.clear
  blockHashes.clear
  hashToHeight.clear
  nullifiers.clear
  coins.clear
  merkleSnapshots.clear
  metaTipHeight.clear
  metaTipHash.clear
  metaTipMerkleTree.clear
  metaTipMerkleHeight.clear
  Prog.update fun s => { s with tipTree := ⟨none, MerkleTree.new, false⟩ }

/-- SOURCE: cache.rs:291-317 -/
def ensureCacheFormat : CacheM Unit := do
  match ← metaCacheFormat.get with
  | none => metaCacheFormat.insert (.value cacheFormatVersion)
  | some row =>
    let found := match row with
      | .value version => version
      | .raw _ => 0
    if found ≠ cacheFormatVersion then do
      clearDerivedBlockCache
      metaCacheFormat.insert (.value cacheFormatVersion)
    else pure ()

/-- SOURCE: cache.rs:319-341 -/
def verifyTipReadable : CacheM Unit := do
  match ← getTip with
  | none => pure ()
  | some (height, _) => do
    match ← (getCompactBlock height).attempt with
    | .ok _ => pure ()
    | .error e => Prog.fail e

/-- SOURCE: cache.rs:179-196 -/
def openSteps (now : ℕ) : CacheM Unit := do
  retireObsoleteNames
  ensureCacheFormat
  verifyTipReadable
  indexExistingTipSnapshot
  loadLiveTipFromDisk
  let _ ← (pruneExpiredOmrClueHints now).attempt

/-- The cache as `Cache::new` first builds it over the trees on disk. -/
def Cache.unopened (db : Db) : Cache := ⟨db, ⟨none, emptyTipTree, false⟩, 0⟩

/-- `Cache::new` on the database left on disk.
SOURCE: cache.rs:145-197 -/
def Cache.new (now : ℕ) (db : Db) : Except LightWalletError Cache :=
  match (openSteps now).run (Cache.unopened db) with
  | (.ok (), s) => .ok s
  | (.error e, _) => .error e

end LightWalletd
