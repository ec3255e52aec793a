import LightWalletd.Computation.Interleaving
import LightWalletd.Model.Cache

/-!
# The tree requests

The two requests that hand out a Money tree. They only read, and other requests and the
poller may write between any two of their reads. A reply carries the bytes of a tree as
they are stored; how a tree is serialized and the hash function are the parameters `Wire`.
-/

set_option autoImplicit false

namespace LightWalletd

open Stateful

/-! ## Status -/

/-- The status codes that the handlers use. -/
inductive Code
  | invalidArgument
  | deadlineExceeded
  | failedPrecondition
  | notFound
  | internal
  | resourceExhausted
  | unavailable
  deriving DecidableEq

/-- A status: its code and its message. -/
structure Status where
  code : Code
  message : String
  deriving DecidableEq

/-- SOURCE: server.rs:316-319 -/
def cacheStatus (_ : LightWalletError) : Status := ⟨.internal, "cache error"⟩

/-- SOURCE: server.rs:67-75 -/
def snapshotMissStatus (height tip : ℕ) (lower : Option ℕ) : Status :=
  let detail := match lower with
    | some snap => "greatest snapshot <= " ++ toString height ++ " is " ++ toString snap
    | none => "no snapshot at or below " ++ toString height
  ⟨.failedPrecondition, "GetTreeState height " ++ toString height ++
    " is not a retained snapshot (tip " ++ toString tip ++ "); " ++ detail⟩

/-! ## Replies -/

/-- `darkfi_serial::serialize` on trees, and `blake3::hash`. -/
structure Wire where
  serialize : MerkleTree → Bytes
  blake3 : Bytes → Bytes32

/-- The bytes of a tree row. -/
def Wire.treeBytes (w : Wire) : Stored MerkleTree → Bytes
  | .value tree => w.serialize tree
  | .raw bytes => bytes

/-- The reply to a request for a tree state. -/
structure Proto.TreeState where
  height : ℕ
  treeData : Bytes
  blockHash : Bytes
  stateRoot : Bytes
  isCheckpoint : Bool
  deriving DecidableEq

/-- One message of a streamed snapshot. -/
structure Proto.CheckpointSnapshot where
  height : ℕ
  blockHash : Bytes
  stateRoot : Bytes
  treeData : Bytes
  nullifierIndex : Bytes
  scanCursor : ℕ
  snapshotHash : Bytes
  deriving DecidableEq

/-- A request handler: reads of the cache, with a status as error. -/
abbrev Handler := Prog Status Cache

/-- No hash, and no bytes, when the hash cannot be read.
SOURCE: server.rs:45-52 -/
def blockHashVec (height : ℕ) : Handler Bytes := do
  match ← (getBlockHash height).attempt.mapError cacheStatus with
  | .ok (some hash) => pure hash.1
  | _ => pure []

/-- SOURCE: server.rs:56-65 -/
def persistedTreeState (w : Wire) (height : ℕ) (treeData blockHash : Bytes) :
    Proto.TreeState where
  height := height
  treeData := treeData
  blockHash := blockHash
  stateRoot := (w.blake3 treeData).1
  isCheckpoint := true

/-- SOURCE: server.rs:78-84 -/
def snapshotIntegrityHash (w : Wire) (height : ℕ) (treeData nullifierIndex : Bytes) : Bytes32 :=
  w.blake3 (leBytes 4 height ++ treeData ++ nullifierIndex)

/-! ## Handlers -/

/-- SOURCE: server.rs:2117-2179 -/
def getTreeState (w : Wire) (height : ℕ) : Handler Proto.TreeState := do
  let cachedTip ← getTip.mapError cacheStatus
  let tip := (cachedTip.map Prod.fst).getD 0
  if height = tip then
    match ← getTipTreeState.mapError cacheStatus with
    | some (treeHeight, treeData) =>
      if treeHeight = tip then do
        let blockHash ← blockHashVec treeHeight
        pure (persistedTreeState w treeHeight (w.treeBytes treeData) blockHash)
      else Prog.fail ⟨.failedPrecondition, "Tip Merkle tree height " ++ toString treeHeight ++
        " does not match tip " ++ toString tip ++ "; resync required"⟩
    | none =>
      if tip = 0 then
        pure {
          height := 0
          treeData := w.serialize MerkleTree.new
          blockHash := []
          stateRoot := (w.blake3 (w.serialize MerkleTree.new)).1
          isCheckpoint := false }
      else Prog.fail ⟨.notFound,
        "Tip Merkle tree not available yet; wait for chain poller to index blocks"⟩
  else
    match ← (merkleSnapshot height).mapError cacheStatus with
    | some treeData => do
      let blockHash ← blockHashVec height
      pure (persistedTreeState w height (w.treeBytes treeData) blockHash)
    | none => do
      let lower ← (greatestSnapshotAtOrBelow height).mapError cacheStatus
      Prog.fail (snapshotMissStatus height tip (lower.map Prod.fst))

/-- SOURCE: server.rs:2217 -/
def chunkSize : ℕ := 1024 * 1024

/-- The `tree_data` of each message of the stream; an empty tree is one empty message.
SOURCE: server.rs:2218-2232 -/
def treeChunks (treeData : Bytes) : List Bytes :=
  let totalChunks := if treeData.isEmpty then 1
    else (treeData.length + chunkSize - 1) / chunkSize
  (List.range totalChunks).map fun i =>
    if treeData.isEmpty then []
    else
      let start := i * chunkSize
      let last := min (start + chunkSize) treeData.length
      (treeData.drop start).take (last - start)

/-- The messages of the stream, to a client that reads all of them. `allowed` is the verdict
of the rate limiter.
SOURCE: server.rs:2186-2249 -/
def getCheckpointSnapshot (w : Wire) (allowed : Bool) (preferred : ℕ) :
    Handler (List Proto.CheckpointSnapshot) := do
  if !allowed then Prog.fail ⟨.resourceExhausted, "RPC rate limit exceeded; retry later"⟩
  else do
    let found ←
      if preferred = 0 then latestSnapshot.mapError cacheStatus
      else (greatestSnapshotAtOrBelow preferred).mapError cacheStatus
    match found with
    | none => Prog.fail ⟨.notFound, "no checkpoint snapshot at or below the requested height"⟩
    | some (treeHeight, row) => do
      let treeData := w.treeBytes row
      let blockHash ← blockHashVec treeHeight
      pure ((treeChunks treeData).map fun chunk => {
        height := treeHeight
        blockHash := blockHash
        stateRoot := (w.blake3 treeData).1
        treeData := chunk
        nullifierIndex := []
        scanCursor := treeHeight
        snapshotHash := (snapshotIntegrityHash w treeHeight treeData []).1 })

end LightWalletd
