import LightWalletd.Model.PaddedRange
import LightWalletd.Model.PirWindows

/-!
# Range streams

The requests that stream what is in the blocks of a range: the blocks, their coins, nullifiers,
outputs or DAO calls. A stream reads one block at a time, so that the poller may write between any
two of its reads, and it ends where the next block does not follow the last one. All streams share
their loop; they differ in the messages they make of a block.
-/

set_option autoImplicit false

namespace LightWalletd

open Stateful

/-! ## Continuity -/

/-- A status of these requests: `aborted`, which no other request ends with, or another one. -/
inductive RangeStatus
  | aborted (message : String)
  | other (status : Status)
  deriving DecidableEq

/-- SOURCE: continuity.rs:22-25 -/
def discontinuityStatus : RangeStatus := .aborted "chain discontinuity"

/-- SOURCE: continuity.rs:27-34 -/
def checkSuccessor (prev next : CompactBlock) : Except RangeStatus Unit :=
  if next.height ≠ saturatingAdd prev.height 1 ∨ next.prevHash ≠ prev.hash then
    .error discontinuityStatus
  else .ok ()

/-- SOURCE: continuity.rs:36-43 -/
def checkAdjacentPair (left right : CompactBlock) : Except RangeStatus Unit :=
  if right.height = saturatingAdd left.height 1 then checkSuccessor left right else .ok ()

/-! ## Ranges -/

/-- SOURCE: server.rs:1191-1199 -/
def checkRpcRateLimit (allowed : Bool) : Except Status Unit :=
  if allowed then .ok () else .error ⟨.resourceExhausted, "RPC rate limit exceeded; retry later"⟩

/-- SOURCE: server.rs:168-185 -/
def resolveBlockRange (start last : ℕ) : Handler (ℕ × ℕ) := do
  match ← getTip.mapError cacheStatus with
  | none => Prog.fail ⟨.unavailable, "No blocks cached yet"⟩
  | some (tip, _) => do
    let last := if last = 0 then tip else min last tip
    if last < start then Prog.fail ⟨.invalidArgument, "block range start exceeds tip"⟩
    else do
      let _ ← liftStatus (rejectOversizedWindow start last)
      pure (start, last)

/-- An overflow would be a panic; no range of `u32` heights reaches one.
SOURCE: server.rs:303-314 -/
def requirePaddedBlockRange (start last : ℕ) : Handler (ℕ × ℕ) := do
  match ← getTip.mapError cacheStatus with
  | none => Prog.fail ⟨.unavailable, "No blocks cached yet"⟩
  | some (tip, _) =>
    match paddedRangeRejection start last tip maxBlocksPerRequest with
    | some none => pure (start, last)
    | some (some reason) => Prog.fail ⟨.invalidArgument, reason⟩
    | none => Prog.fail ⟨.internal, "overflow"⟩

/-! ## Streams -/

/-- How a stream ends: it is through, it fails with a last status, or the client left or did not
take a message in time. -/
inductive StreamEnd
  | finished
  | failed (status : RangeStatus)
  | abandoned
  deriving DecidableEq

/-- What a client receives. -/
structure Streamed (T : Type) where
  messages : List T
  ending : StreamEnd
  deriving DecidableEq

section Stream

-- `takes n`: the client takes message number `n` in time
variable {T : Type} (takes : ℕ → Bool)

/-- Send messages behind those that were sent, up to the first that is not taken.
SOURCE: server.rs:325-335 -/
def sendStream (sent : List T) : List T → List T × Bool
  | [] => (sent, true)
  | message :: messages =>
    if takes sent.length then sendStream (sent ++ [message]) messages else (sent, false)

/-- End a stream with a status, if the client still takes it. -/
def endStream (sent : List T) (status : RangeStatus) : Streamed T :=
  ⟨sent, if takes sent.length then .failed status else .abandoned⟩

/-- Whether a block continues the stream. SOURCE: server.rs:366-374 -/
def continuesStream (start : ℕ) (prev : Option CompactBlock) (block : CompactBlock) :
    Except RangeStatus Unit :=
  match prev with
  | some p => checkSuccessor p block
  | none => if block.height ≠ start then .error discontinuityStatus else .ok ()

/-- The rounds of a stream from the given heights on; `messages` are those of a block.
SOURCE: server.rs:348-380, server.rs:393-438, server.rs:452-519, server.rs:531-570 -/
def streamBlocks (messages : CompactBlock → List T) (start : ℕ) :
    List ℕ → Option CompactBlock → List T → Handler (Streamed T)
  | [], _, sent => pure ⟨sent, .finished⟩
  | height :: heights, prev, sent => do
    match ← (getCompactBlock height).attempt.mapError cacheStatus with
    | .error e => pure (endStream takes sent (.other (cacheStatus e)))
    | .ok none => pure (endStream takes sent discontinuityStatus)
    | .ok (some block) =>
      match continuesStream start prev block with
      | .error status => pure (endStream takes sent status)
      | .ok () =>
        match sendStream takes sent (messages block) with
        | (sent, true) => streamBlocks messages start heights (some block) sent
        | (sent, false) => pure ⟨sent, .abandoned⟩

/-- The stream over `start..=last`. -/
def streamRange (messages : CompactBlock → List T) (start last : ℕ) : Handler (Streamed T) :=
  streamBlocks takes messages start (List.range' start (last + 1 - start)) none []

end Stream

/-! ## Messages -/

/-- One output with what a wallet needs to spend it. -/
structure Proto.CompactOutputBody where
  height : ℕ
  hash : Bytes
  prevHash : Bytes
  coin : Bytes
  encryptedNote : Bytes
  omrClue : Bytes
  omrMetadataEnc : Bytes
  txHash : Bytes
  funcCode : ℕ
  deriving DecidableEq

/-- One call of a DAO. -/
structure Proto.CompactDaoCall where
  height : ℕ
  txHash : Bytes
  kind : ℕ
  bulla : Bytes
  payload : Bytes
  deriving DecidableEq

/-- The coins of a block. -/
structure Proto.NoteCommitmentUpdate where
  height : ℕ
  coins : List Bytes
  deriving DecidableEq

/-- The nullifiers of a block. -/
structure Proto.NullifierUpdate where
  height : ℕ
  nullifiers : List Bytes
  deriving DecidableEq

namespace CompactBlock

/-- SOURCE: server.rs:419-430, server.rs:483-493 -/
def outputBody (block : CompactBlock) (tx : CompactTx) (output : CompactOutput) :
    Proto.CompactOutputBody where
  height := block.height
  hash := block.hash.1
  prevHash := block.prevHash.1
  coin := output.coin.1
  encryptedNote := output.encryptedNote
  omrClue := output.omrClue
  omrMetadataEnc := output.omrMetadataEnc
  txHash := tx.txHash.1
  funcCode := output.funcCode.toNat

/-- SOURCE: server.rs:417-434 -/
def outputBodies (block : CompactBlock) : List Proto.CompactOutputBody :=
  block.txs.flatMap fun tx => tx.outputs.map (block.outputBody tx)

/-- An event without a coin. SOURCE: server.rs:503-513 -/
def eventBody (block : CompactBlock) (event : CompactFuncEvent) : Proto.CompactOutputBody where
  height := block.height
  hash := block.hash.1
  prevHash := block.prevHash.1
  coin := List.replicate 32 0
  encryptedNote := []
  omrClue := []
  omrMetadataEnc := []
  txHash := event.txHash.1
  funcCode := event.funcCode.toNat

/-- The outputs of a function code, and then its events.
SOURCE: server.rs:477-517 -/
def outputsByFunc (funcCode : ℕ) (block : CompactBlock) : List Proto.CompactOutputBody :=
  (block.txs.flatMap fun tx =>
    (tx.outputs.filter fun o => o.funcCode.toNat = funcCode).map (block.outputBody tx)) ++
    (block.funcEvents.filter fun event => event.funcCode.toNat = funcCode).map block.eventBody

/-- SOURCE: server.rs:554-567 -/
def daoCallMessages (block : CompactBlock) : List Proto.CompactDaoCall :=
  block.daoCalls.map fun call =>
    ⟨block.height, call.txHash.1, call.kind, call.bulla, call.payload⟩

/-- SOURCE: server.rs:2078-2085 -/
def noteCommitmentUpdate (block : CompactBlock) : Proto.NoteCommitmentUpdate :=
  ⟨block.height, block.txs.flatMap fun tx => tx.outputs.map fun o => o.coin.1⟩

/-- SOURCE: server.rs:2106-2113 -/
def nullifierUpdate (block : CompactBlock) : Proto.NullifierUpdate :=
  ⟨block.height, block.txs.flatMap fun tx => tx.nullifiers.map Subtype.val⟩

end CompactBlock

/-! ## Handlers -/

section Handlers

variable (takes : ℕ → Bool) (allowed : Bool)

/-- A stream over a padded range. -/
def streamPadded {T : Type} (messages : CompactBlock → List T) (start last : ℕ) :
    Handler (Streamed T) := do
  liftStatus (checkRpcRateLimit allowed)
  let (start, last) ← requirePaddedBlockRange start last
  streamRange takes messages start last

/-- SOURCE: server.rs:1573-1586 -/
def getCompactOutputBodies (start last : ℕ) : Handler (Streamed Proto.CompactOutputBody) :=
  streamPadded takes allowed CompactBlock.outputBodies start last

/-- SOURCE: server.rs:1592-1606 -/
def getCompactOutputsByFunc (start last funcCode : ℕ) :
    Handler (Streamed Proto.CompactOutputBody) :=
  streamPadded takes allowed (CompactBlock.outputsByFunc funcCode) start last

/-- SOURCE: server.rs:1612-1625 -/
def getCompactDaoCalls (start last : ℕ) : Handler (Streamed Proto.CompactDaoCall) :=
  streamPadded takes allowed CompactBlock.daoCallMessages start last

/-- SOURCE: server.rs:2065-2087 -/
def getNoteCommitments (start last : ℕ) : Handler (Streamed Proto.NoteCommitmentUpdate) :=
  streamPadded takes allowed (fun block => [block.noteCommitmentUpdate]) start last

/-- SOURCE: server.rs:2093-2115 -/
def getNullifiers (start last : ℕ) : Handler (Streamed Proto.NullifierUpdate) :=
  streamPadded takes allowed (fun block => [block.nullifierUpdate]) start last

/-- SOURCE: server.rs:1628-1642 -/
def getBlockRange (start last : ℕ) : Handler (Streamed Proto.CompactBlock) := do
  liftStatus (checkRpcRateLimit allowed)
  let (start, last) ← resolveBlockRange start last
  streamRange takes (fun block => [block.toProto]) start last

/-- SOURCE: server.rs:1652-1658, server.rs:1693-1699 -/
def blockOrNotFound (height : ℕ) : Handler CompactBlock := do
  match ← (getCompactBlock height).mapError cacheStatus with
  | some block => pure block
  | none => Prog.fail ⟨.notFound, "Block not found at height " ++ toString height⟩

/-- SOURCE: server.rs:1645-1659 -/
def getBlock (height : ℕ) : Handler Proto.CompactBlock := do
  liftStatus (checkRpcRateLimit allowed)
  let block ← blockOrNotFound height
  pure block.toProto

/-- SOURCE: server.rs:91-92 -/
def maxSparseHeights : ℕ := 512

/-- The heights of a request, sorted and once each. SOURCE: server.rs:1687-1688 -/
def distinctHeights (heights : List ℕ) : List ℕ :=
  (heights.insertionSort (· ≤ ·)).destutter (· ≠ ·)

/-- `windows(2)`. SOURCE: server.rs:1704-1706 -/
def checkAdjacentPairs : List CompactBlock → Except RangeStatus Unit
  | left :: right :: blocks => do
    checkAdjacentPair left right
    checkAdjacentPairs (right :: blocks)
  | _ => .ok ()

/-- The blocks of a request, all of them before the first is sent.
SOURCE: server.rs:1673-1702 -/
def readSparseBlocks (heights : List ℕ) : Handler (List CompactBlock) := do
  liftStatus (checkRpcRateLimit allowed)
  if heights.isEmpty then
    Prog.fail ⟨.invalidArgument, "HeightList.heights must not be empty"⟩
  else if maxSparseHeights < heights.length then
    Prog.fail ⟨.invalidArgument, "Too many heights: " ++ toString heights.length ++
      " requested, max is " ++ toString maxSparseHeights⟩
  else Prog.mapEach blockOrNotFound (distinctHeights heights)

/-- SOURCE: server.rs:1662-1723 -/
def getCompactBlocksAtHeights (heights : List ℕ) :
    Prog RangeStatus Cache (Streamed Proto.CompactBlock) := do
  let blocks ← (readSparseBlocks allowed heights).mapError RangeStatus.other
  match checkAdjacentPairs blocks with
  | .error status => Prog.fail status
  | .ok () =>
    let (messages, sentAll) := sendStream takes [] (blocks.map CompactBlock.toProto)
    pure ⟨messages, if sentAll then .finished else .abandoned⟩

end Handlers

end LightWalletd
