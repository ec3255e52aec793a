import LightWalletd.Model.ClueHints
import LightWalletd.Model.TreeHandlers
import LightWalletd.Model.Unifomr

/-!
# Submitting a transaction

`SendTransaction` with the clues that come with it. The clues are stored before the broadcast
when the transaction hash is known, and dropped again when the broadcast fails. How darkfid
answers, and how a transaction is deserialized and hashed, are arguments.
-/

set_option autoImplicit false

namespace LightWalletd

open Stateful

/-! ## The envelope -/

/-- `O2`. SOURCE: omr_envelope.rs:5 -/
def omrEnvelopeTag : Bytes := [79, 50]

/-- SOURCE: omr_envelope.rs:6 -/
def maxOmrMemoBytes : ℕ := 4096

/-- SOURCE: omr_envelope.rs:7 -/
def maxFheClueBytes : ℕ := 65536

/-- SOURCE: omr_envelope.rs:9-13 -/
structure OmrEnvelope where
  omrMemo : Bytes
  fheClue : Bytes
  rawTx : Bytes
  deriving DecidableEq

/-- SOURCE: omr_envelope.rs:15-51 -/
def parseEnvelope (data : Bytes) : Option OmrEnvelope :=
  if data.length < 5 then none
  else if !omrEnvelopeTag.isPrefixOf data then none
  else
    let memoLen := leValue ((data.drop 2).take 2)
    let memoEnd := 4 + memoLen
    if maxOmrMemoBytes < memoLen then none
    else if data.length < memoEnd + 4 then none
    else
      let clueLen := leValue ((data.drop memoEnd).take 4)
      let clueStart := memoEnd + 4
      let clueEnd := clueStart + clueLen
      if maxFheClueBytes < clueLen then none
      else if data.length < clueEnd then none
      else some ⟨(data.drop 4).take memoLen, (data.drop clueStart).take clueLen, data.drop clueEnd⟩

/-! ## The request -/

/-- A clue for a further output. -/
structure Proto.ExtraOmrClue where
  omrClue : Bytes
  outputIndex : ℕ

/-- A transaction with what is sent along with it. -/
structure Proto.RawTransaction where
  data : Bytes
  omrClue : Bytes
  omrMetadataEnc : Bytes
  omrClueOutputIndex : ℕ
  extraOmrClues : List Proto.ExtraOmrClue

/-- The reply to a transaction. -/
structure Proto.SendResponse where
  txHash : Bytes
  error : String
  clueAccepted : Bool
  deriving DecidableEq

/-- How the broadcast ends: with the hash in darkfid's answer, when that is hexadecimal, with
an error, or not within ten seconds. -/
inductive Broadcast
  | accepted (txHash : Option Bytes)
  | failed
  | timedOut
  deriving DecidableEq

/-- What the handler is given: the configured size limit, the hash of a transaction that can
be deserialized, and `blake3::hash`. -/
structure SendEnv where
  maxTxBytes : ℕ
  txHashOf : Bytes → Option Bytes32
  blake3 : Bytes → Bytes32

/-- Whether a clue passes validation. SOURCE: server.rs:1331-1341 -/
def SendEnv.validClue (env : SendEnv) (clue : Bytes) : Bool :=
  (validateUnifomrClue env.blake3 clue).isOk

/-! ## The handler -/

/-- Whether this call stored the clue.
SOURCE: server.rs:1300-1328 -/
def storeSendClueHint (now : ℕ) (hash : Bytes32) (clue : Bytes) (outputIndex : ℕ) :
    CacheM Bool := do
  match ← (omrClueIndexTaken now hash outputIndex).attempt with
  | .ok true => pure false
  | _ =>
    match ← (storeOmrClueHint now hash clue (some outputIndex)).attempt with
    | .ok () => pure true
    | .error _ => pure false

/-- SOURCE: server.rs:1928-1945, server.rs:1983-1996 -/
def storeExtraClues (env : SendEnv) (now : ℕ) (hash : Bytes32)
    (extras : List Proto.ExtraOmrClue) : CacheM Unit :=
  Prog.forEach (fun extra => do
    if extra.omrClue.isEmpty || !env.validClue extra.omrClue then pure ()
    else do
      let _ ← storeSendClueHint now hash extra.omrClue extra.outputIndex) extras

/-- The transaction and the clue of a request, out of its envelope if it has one.
SOURCE: server.rs:1877-1898 -/
def unwrapRequest (env : SendEnv) (req : Proto.RawTransaction) : Except Status (Bytes × Bytes) :=
  let unwrapped : Except Status (Bytes × Bytes) :=
    if omrEnvelopeTag.isPrefixOf req.data then
      match parseEnvelope req.data with
      | none => .error ⟨.invalidArgument, "malformed OMR envelope on SendTransaction"⟩
      | some envelope =>
        .ok (envelope.rawTx,
          if req.omrClue.isEmpty && !envelope.fheClue.isEmpty then envelope.fheClue
          else req.omrClue)
    else .ok (req.data, req.omrClue)
  match unwrapped with
  | .error e => .error e
  | .ok (txData, omrClue) =>
    if env.maxTxBytes < txData.length then
      .error ⟨.invalidArgument, "transaction size " ++ toString txData.length ++
        " exceeds limit " ++ toString env.maxTxBytes⟩
    else .ok (txData, omrClue)

/-- What is stored before the broadcast: whether the main clue was, and the clue that is left
for later. An invalid clue is dropped, and the extra clues wait with it.
SOURCE: server.rs:1905-1946 -/
def storeCluesBefore (env : SendEnv) (now : ℕ) (req : Proto.RawTransaction)
    (hash : Option Bytes32) (omrClue : Bytes) : CacheM (Bool × Bytes) := do
  if omrClue.isEmpty || !env.validClue omrClue then pure (false, [])
  else match hash with
    | none => pure (false, omrClue)
    | some hash => do
      let clueAccepted ← storeSendClueHint now hash omrClue req.omrClueOutputIndex
      storeExtraClues env now hash req.extraOmrClues
      pure (clueAccepted, [])

/-- SOURCE: server.rs:2000-2026 -/
def storeSentMetadata (hash : Bytes32) (req : Proto.RawTransaction) : CacheM Unit := do
  if req.omrMetadataEnc.isEmpty || decide (maxOmrMetadataEncBytes < req.omrMetadataEnc.length)
  then pure ()
  else
    match ← (hasOmrMetadataEnc hash).attempt with
    | .ok true => pure ()
    | _ => do
      let _ ← (storeOmrMetadataEnc hash req.omrMetadataEnc (some req.omrClueOutputIndex)).attempt

/-- What is stored after the broadcast succeeded, and whether a main clue was.
SOURCE: server.rs:1954-2026 -/
def storeCluesAfter (env : SendEnv) (now : ℕ) (req : Proto.RawTransaction) (hash : Option Bytes32)
    (clueAccepted : Bool) (omrClue : Bytes) : CacheM Bool := do
  match hash with
  | none => pure clueAccepted
  | some hash => do
    let clueAccepted ←
      if omrClue.isEmpty then pure clueAccepted
      else storeSendClueHint now hash omrClue req.omrClueOutputIndex
    storeExtraClues env now hash req.extraOmrClues
    storeSentMetadata hash req
    pure clueAccepted

/-- The hash of 32 bytes in darkfid's answer. -/
def answeredHash (bytes : Bytes) : Option Bytes32 :=
  if h : bytes.length = 32 then some ⟨bytes, h⟩ else none

/-- The transaction that darkfid accepted, if its hash is known here or from the answer: its sender
is remembered. SOURCE: server.rs:1953-1971 -/
def acceptedTx (env : SendEnv) (broadcast : Broadcast) (req : Proto.RawTransaction) :
    Option Bytes32 :=
  match unwrapRequest env req, broadcast with
  | .ok (txData, _), .accepted answer =>
    (env.txHashOf txData).or (answeredHash (answer.getD []))
  | _, _ => none

/-- The handler behind the rate limiter, as far as the cache goes; `now` and `later` are the clock
before and after the broadcast. `SendServer.sendTransaction` adds the table of senders.
SOURCE: server.rs:1870-2059 -/
def sendTransaction (env : SendEnv) (broadcast : Broadcast) (now later : ℕ)
    (req : Proto.RawTransaction) : Handler Proto.SendResponse := do
  match unwrapRequest env req with
  | .error status => .fail status
  | .ok (txData, omrClue) => do
    let txHashForClue := env.txHashOf txData
    let (clueAccepted, omrClue) ←
      (storeCluesBefore env now req txHashForClue omrClue).mapError cacheStatus
    match broadcast with
    | .accepted answer => do
      let txHashBytes := answer.getD []
      let hash := txHashForClue.or (answeredHash txHashBytes)
      let clueAccepted ←
        (storeCluesAfter env later req hash clueAccepted omrClue).mapError cacheStatus
      pure ⟨txHashBytes, "", clueAccepted⟩
    | .failed => do
      match clueAccepted, txHashForClue with
      | true, some hash => do
        let _ ← (removeOmrClueHint hash).attempt.mapError cacheStatus
      | _, _ => pure ()
      pure ⟨[], "Transaction broadcast failed", false⟩
    | .timedOut => .fail ⟨.deadlineExceeded, "Transaction broadcast timeout after 10s"⟩

end LightWalletd
