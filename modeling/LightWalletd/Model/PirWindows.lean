import LightWalletd.Model.Digest

/-!
# Retrieval windows

The payloads of a retrieval window are its blocks on the wire, without their clues, one for each
height. They are kept in memory until the hash of the last block changes, as the notes of a
digest window are, so that the limbs of a window are not built again for every request.
-/

set_option autoImplicit false

namespace LightWalletd

open Stateful

/-! ## Blocks on the wire -/

/-- An output on the wire. -/
structure Proto.CompactOutput where
  coin : Bytes
  encryptedNote : Bytes
  valueCommit : Bytes
  tokenCommit : Bytes
  omrClue : Bytes
  omrMetadataEnc : Bytes
  funcCode : ℕ
  deriving DecidableEq

/-- A transaction on the wire. -/
structure Proto.CompactTx where
  txHash : Bytes
  outputs : List Proto.CompactOutput
  nullifiers : List Bytes
  fee : ℕ
  deriving DecidableEq

/-- A block on the wire. -/
structure Proto.CompactBlock where
  height : ℕ
  hash : Bytes
  prevHash : Bytes
  timestamp : ℕ
  txs : List Proto.CompactTx
  deriving DecidableEq

/-- SOURCE: compact_block.rs:153-187 -/
def CompactBlock.toProto (block : CompactBlock) : Proto.CompactBlock where
  height := block.height
  hash := block.hash.1
  prevHash := block.prevHash.1
  timestamp := block.timestamp
  txs := block.txs.map fun tx => {
    txHash := tx.txHash.1
    outputs := tx.outputs.map fun o => {
      coin := o.coin.1
      encryptedNote := o.encryptedNote
      valueCommit := o.valueCommit
      tokenCommit := o.tokenCommit.1
      omrClue := o.omrClue
      omrMetadataEnc := o.omrMetadataEnc
      funcCode := o.funcCode.toNat }
    nullifiers := tx.nullifiers.map Subtype.val
    fee := tx.fee }

/-- How `prost` writes a block: `Message::encode_to_vec`. -/
abbrev EncodeToVec := Proto.CompactBlock → Bytes

/-- SOURCE: server.rs:747-763 -/
def encodeCompactBlockForPir (encodeToVec : EncodeToVec) (block : CompactBlock) : Bytes :=
  let protoBlock := block.toProto
  encodeToVec { protoBlock with
    txs := protoBlock.txs.map fun tx => { tx with
      outputs := tx.outputs.map fun output => { output with omrClue := [] } } }

/-! ## Payloads -/

/-- SOURCE: cache.rs:856-878 -/
def getCompactBlocksRange (start last : ℕ) : CacheM (List CompactBlock) := do
  if start > last then Prog.fail (.invalidBlockRange start last)
  else do
    let rows ← compactBlocks.range fun h => decide (start ≤ h ∧ h ≤ last)
    liftExcept (rows.mapM fun r => decodeRow "Failed to deserialize compact block" r.2)

/-- SOURCE: server.rs:126 -/
def maxPirWindowEncodedBytes : ℕ := 64 * 1024 * 1024

/-- SOURCE: server.rs:765-789 -/
def loadPirWindowPayloads (encodeToVec : EncodeToVec) (start last : ℕ) : Handler (List Bytes) := do
  let blocks ← (getCompactBlocksRange start last).mapError cacheStatus
  let byHeight : OrderedMap ℕ Bytes := blocks.foldl
    (fun m block => m.insert block.height (encodeCompactBlockForPir encodeToVec block)) .empty
  let payloads := (List.range' start (last - start + 1)).map fun h => (byHeight.get h).getD []
  let encodedTotal := (payloads.map List.length).sum
  if maxPirWindowEncodedBytes < encodedTotal then
    Prog.fail ⟨.resourceExhausted, "PIR window encoded size " ++ toString encodedTotal ++
      " exceeds " ++ toString maxPirWindowEncodedBytes⟩
  else pure payloads

/-! ## Windows -/

/-- SOURCE: server.rs:699 -/
def pirWindowCap : ℕ := 4

/-- The windows whose payloads are kept. -/
abbrev PirWindows := WindowCache (List Bytes)

/-- SOURCE: server.rs:734-745 -/
def pirWindowEndHash (last : ℕ) : Handler Bytes32 := do
  match ← (getBlockHash last).attempt.mapError cacheStatus with
  | .ok (some hash) => pure hash
  | _ =>
    match ← getTip.attempt.mapError cacheStatus with
    | .ok (some (tipHeight, tipHash)) =>
      if tipHeight = last then pure tipHash else pure (Bytes32.fill 0)
    | _ => pure (Bytes32.fill 0)

/-- What `fetch_pir_batch` answers from, in the worker that computes.
SOURCE: server.rs:2635-2655 -/
def pirWindowPayloads (encodeToVec : EncodeToVec) (windows : PirWindows) (start last : ℕ) :
    Handler (List Bytes × PirWindows) := do
  let endHash ← pirWindowEndHash last
  match windows.get start last endHash with
  | some payloads => pure (payloads, windows)
  | none => do
    let built ← loadPirWindowPayloads encodeToVec start last
    if endHash ≠ Bytes32.fill 0 then
      pure (built, windows.insert pirWindowCap start last endHash built)
    else pure (built, windows)

/-- The window of a request is checked, then its payloads are found.
SOURCE: server.rs:2584, server.rs:2616-2626, server.rs:2635-2655 -/
def fetchPirPayloads (encodeToVec : EncodeToVec) (windows : PirWindows) (start last : ℕ) :
    Handler (List Bytes × PirWindows) := do
  let _ ← liftStatus (rejectOversizedWindow start last)
  match ← getTip.mapError cacheStatus with
  | none => Prog.fail ⟨.unavailable, "No blocks cached yet"⟩
  | some (tip, _) =>
    if tip < last then
      Prog.fail ⟨.invalidArgument, "PIR window end " ++ toString last ++ " is above tip " ++
        toString tip⟩
    else pirWindowPayloads encodeToVec windows start last

end LightWalletd
