import LightWalletd.Model.Store

/-!
# Clue hints

Pending clues and recipient metadata wait under their transaction hash until the
block with that transaction is indexed. Clue rows are a list of `(index, clue)`
behind a four-byte tag; they expire, but merging does not consume them. A metadata
row is one `(index, bytes)` pair and is consumed by the merge.
-/

set_option autoImplicit false

namespace LightWalletd

open Stateful

/-- SOURCE: cache.rs:77 -/
def omrClueHintTtlSecs : ℕ := 86400

/-- SOURCE: cache.rs:79 -/
def omrClueHintSweepSecs : ℕ := 60

/-- `MCL1`. SOURCE: cache.rs:1551 -/
def omrClueListMagic : Bytes := [77, 67, 76, 49]

/-- An index field: the largest `u32` stands for no index. -/
def decodeIndex (idx : ℕ) : Option ℕ := if idx = u32Max then none else some idx

/-- SOURCE: cache.rs:1553-1565 -/
def encodeOmrClueHints (clues : List (Option ℕ × Bytes)) : Bytes :=
  omrClueListMagic ++ clues.flatMap fun (idx, clue) =>
    let len := if clue.length ≤ u32Max then clue.length else u32Max
    leBytes 4 (idx.getD u32Max) ++ leBytes 4 len ++ clue.take len

/-- The loop of `decodeOmrClueHints`; a round consumes at least eight bytes.
SOURCE: cache.rs:1571-1584 -/
def decodeOmrClueList : ℕ → Bytes → List (Option ℕ × Bytes)
  | 0, _ => []
  | fuel + 1, rest =>
    if rest.length < 8 then []
    else
      let idx := leValue (rest.take 4)
      let len := leValue ((rest.drop 4).take 4)
      if rest.length < 8 + len then []
      else (decodeIndex idx, (rest.drop 8).take len) :: decodeOmrClueList fuel (rest.drop (8 + len))

/-- SOURCE: cache.rs:1567-1585 -/
def decodeOmrClueHints (stored : Bytes) : List (Option ℕ × Bytes) :=
  if omrClueListMagic.isPrefixOf stored then decodeOmrClueList stored.length (stored.drop 4)
  else []

/-- SOURCE: cache.rs:1587-1598 -/
def parseStoredOmrClueHint (stored : Bytes) : Option ℕ × Bytes :=
  if stored.length < 4 then (none, [])
  else (decodeIndex (leValue (stored.take 4)), stored.drop 4)

/-- SOURCE: cache.rs:1535-1543 -/
def omrHintMetaExpired (value : Bytes) (now : ℕ) : Bool :=
  if value.length < 8 then true
  else decide (omrClueHintTtlSecs < now - leValue (value.take 8))

/-- Drop the rows of one transaction hash.
SOURCE: cache.rs:553-557 -/
def removeOmrClueHint (txHash : Bytes32) : CacheM Unit := do
  let _ ← omrClueHints.remove txHash
  let _ ← omrClueHintMeta.remove txHash

/-- SOURCE: cache.rs:747-760 -/
def sweepExpiredOmrClueHintsAt (now : ℕ) : CacheM Unit := do
  let rows ← omrClueHintMeta.range fun _ => true
  let expired := (rows.filter fun r => omrHintMetaExpired r.2 now).map Prod.fst
  Prog.forEach removeOmrClueHint expired

/-- The scan runs at most once per minute; `now` is the clock.
SOURCE: cache.rs:718-745 -/
def pruneExpiredOmrClueHints (now : ℕ) : CacheM Unit := do
  let prev ← Prog.get Cache.omrHintSweepUnix
  if prev ≠ 0 ∧ now - prev < omrClueHintSweepSecs then pure ()
  else do
    Prog.update fun s => { s with omrHintSweepUnix := now }
    match ← (sweepExpiredOmrClueHintsAt now).attempt with
    | .ok () => pure ()
    | .error e => do
      Prog.update fun s => { s with omrHintSweepUnix := prev }
      Prog.fail e

/-- SOURCE: cache.rs:762-773 -/
def dropOmrClueHintIfExpired (now : ℕ) (txHash : Bytes32) : CacheM Bool := do
  match ← omrClueHintMeta.get txHash with
  | none => pure false
  | some value =>
    if omrHintMetaExpired value now then do
      removeOmrClueHint txHash
      pure true
    else pure false

/-- Fill the clue of output `i` when it is empty. -/
def fillClueAt (i : ℕ) (clue : Bytes) (outputs : List CompactOutput) : List CompactOutput :=
  outputs.modify i fun o => if o.omrClue.isEmpty then { o with omrClue := clue } else o

/-- One round of the clue merge.
SOURCE: cache.rs:798-810 -/
def mergeClue (outputs : List CompactOutput) : Option ℕ × Bytes → List CompactOutput
  | (outputIndex, clue) =>
    if clue.isEmpty || outputs.any fun o => o.omrClue == clue then outputs
    else match outputIndex with
      | some idx => fillClueAt idx clue outputs
      | none => fillClueAt (outputs.findIdx fun o => o.omrClue.isEmpty) clue outputs

/-- Fill the metadata of output `i` when it is empty. -/
def fillMetadataAt (i : ℕ) (enc : Bytes) (outputs : List CompactOutput) : List CompactOutput :=
  outputs.modify i fun o =>
    if o.omrMetadataEnc.isEmpty then { o with omrMetadataEnc := enc } else o

/-- SOURCE: cache.rs:816-834 -/
def mergeMetadata (outputs : List CompactOutput) (stored : Bytes) : List CompactOutput :=
  match parseStoredOmrClueHint stored with
  | (outputIndex, enc) =>
    if enc.isEmpty then outputs
    else match outputIndex with
      | some idx => fillMetadataAt idx enc outputs
      | none => fillMetadataAt (outputs.findIdx fun o => o.omrMetadataEnc.isEmpty) enc outputs

/-- The clue half of the merge for one transaction.
SOURCE: cache.rs:787-814 -/
def mergeTxClues (now : ℕ) (tx : CompactTx) : CacheM CompactTx := do
  if ← dropOmrClueHintIfExpired now tx.txHash then pure tx
  else match ← omrClueHints.get tx.txHash with
    | none => pure tx
    | some stored =>
      let clues := decodeOmrClueHints stored
      if clues.all fun c => c.2.isEmpty then do
        removeOmrClueHint tx.txHash
        pure tx
      else pure { tx with outputs := clues.foldl mergeClue tx.outputs }

/-- The metadata half of the merge for one transaction.
SOURCE: cache.rs:816-836 -/
def mergeTxMetadata (tx : CompactTx) : CacheM CompactTx := do
  match ← omrMetadataEnc.get tx.txHash with
  | none => pure tx
  | some stored => do
    let _ ← omrMetadataEnc.remove tx.txHash
    pure { tx with outputs := mergeMetadata tx.outputs stored }

/-- Merge what is pending into the outputs of a block.
SOURCE: cache.rs:775-839 -/
def applyOmrClueHints (now : ℕ) (block : CompactBlock) : CacheM CompactBlock := do
  let txs ← Prog.mapEach (fun tx => do
    let tx ← mergeTxClues now tx
    mergeTxMetadata tx) block.txs
  pure { block with txs := txs }

/-! ## Registering -/

/-- SOURCE: cache.rs:81 -/
def maxOmrMetadataEncBytes : ℕ := 4096

/-- The clues of a row, none when there is no row.
SOURCE: cache.rs:460-463 -/
def storedClues : Option Bytes → List (Option ℕ × Bytes)
  | some bytes => decodeOmrClueHints bytes
  | none => []

/-- Store a clue for a pending transaction; the first clue of an index stays.
SOURCE: cache.rs:443-485 -/
def storeOmrClueHint (now : ℕ) (txHash : Bytes32) (clue : Bytes) (outputIndex : Option ℕ) :
    CacheM Unit := do
  if clue.isEmpty then pure ()
  else do
    pruneExpiredOmrClueHints now
    let _ ← dropOmrClueHintIfExpired now txHash
    let clues := storedClues (← omrClueHints.get txHash)
    if clues.any fun c => c.1 == outputIndex then pure ()
    else do
      omrClueHints.insert txHash (encodeOmrClueHints (clues ++ [(outputIndex, clue)]))
      omrClueHintMeta.insert txHash (leBytes 8 now)

/-- SOURCE: cache.rs:487-520 -/
def storeOmrMetadataEnc (txHash : Bytes32) (metadataEnc : Bytes) (outputIndex : Option ℕ) :
    CacheM Unit := do
  if metadataEnc.isEmpty then pure ()
  else if maxOmrMetadataEncBytes < metadataEnc.length then
    Prog.fail (.cacheError ("omr_metadata_enc too large: " ++ toString metadataEnc.length ++
      " bytes (max " ++ toString maxOmrMetadataEncBytes ++ ")"))
  else omrMetadataEnc.insert txHash (leBytes 4 (outputIndex.getD u32Max) ++ metadataEnc)

/-- SOURCE: cache.rs:522-525 -/
def hasOmrMetadataEnc (txHash : Bytes32) : CacheM Bool := do
  let row ← omrMetadataEnc.get txHash
  pure row.isSome

/-- SOURCE: cache.rs:538-550 -/
def omrClueIndexTaken (now : ℕ) (txHash : Bytes32) (outputIndex : ℕ) : CacheM Bool := do
  pruneExpiredOmrClueHints now
  if ← dropOmrClueHintIfExpired now txHash then pure false
  else match ← omrClueHints.get txHash with
    | none => pure false
    | some bytes => pure ((decodeOmrClueHints bytes).any fun c => c.1 == some outputIndex)

end LightWalletd
