import LightWalletd.Model.DigestRequests
import LightWalletd.Model.Pir
import LightWalletd.Model.PirWindows

/-!
# Retrieval requests

A wallet fetches the rows of a window limb by limb, with a request for each. The server finds the
payloads of the window, among those that it keeps or in the cache, and multiplies one of their
columns. The build is the one with `fhe-omr`. The verdict of the rate limiter and the outcome of the
wait for a worker are arguments.
-/

set_option autoImplicit false

namespace LightWalletd

open Stateful

/-- SOURCE: server.rs:123 -/
def maxPirQueryCtBytes : ℕ := 4 * 1024 * 1024

/-- SOURCE: lightwallet.proto:490-501 -/
structure Proto.BatchPirRequest where
  queryCiphertexts : List Bytes
  startHeight : ℕ
  endHeight : ℕ
  limbIndex : ℕ

/-- SOURCE: server.rs:1169-1177 -/
def checkPirRateLimit (allowed : Bool) : Except Status Unit :=
  if allowed then .ok ()
  else .error ⟨.resourceExhausted, "PIR rate limit exceeded; retry later"⟩

/-- What a request finds: the guards, the verdict of the limiter and the wait for a worker. -/
structure PirCall (Ip : Type) where
  gauges : Gauges Ip
  peer : Ip
  allowed : Bool
  permit : PermitWait

/-- The checks on the request alone, with the number of rows of its window.
SOURCE: server.rs:2581-2617 -/
def checkPirRequest (req : Proto.BatchPirRequest) : Except Status ℕ :=
  if req.queryCiphertexts.isEmpty then .error ⟨.invalidArgument, "query_ciphertexts required"⟩
  else do
    let window ← rejectOversizedWindow req.startHeight req.endHeight
    let numStripes := sealpirStripeCount window packingDegree
    if maxPirStripes < numStripes then
      .error ⟨.invalidArgument, "PIR window " ++ toString window ++ " needs " ++
        toString numStripes ++ " SealPIR stripes (max " ++ toString maxPirStripes ++ ")"⟩
    else if req.queryCiphertexts.length ≠ numStripes then
      .error ⟨.invalidArgument, "SealPIR expects " ++ toString numStripes ++
        " query ciphertext(s) for window " ++ toString window ++ ", got " ++
        toString req.queryCiphertexts.length⟩
    else if req.queryCiphertexts.any fun ct => decide (maxPirQueryCtBytes < ct.length) then
      .error ⟨.invalidArgument, "PIR query ciphertext exceeds " ++ toString maxPirQueryCtBytes ++
        " bytes"⟩
    else if maxPirLimbs ≤ req.limbIndex then
      .error ⟨.invalidArgument, "limb_index " ++ toString req.limbIndex ++ " >= max " ++
        toString maxPirLimbs⟩
    else .ok window

variable {Ip : Type} [DecidableEq Ip]

/-- The responses, or the error of the evaluation, which leaves the window kept.
SOURCE: server.rs:2561-2669 -/
def fetchPirBatch (S : BfvScheme) (encodeToVec : EncodeToVec) (call : PirCall Ip)
    (req : Proto.BatchPirRequest) (windows : PirWindows) :
    Handler (Except Status (List Bytes) × PirWindows) := do
  let _ ← liftStatus (checkPirRateLimit call.allowed)
  let _ ← liftStatus (beginPir call.gauges call.peer)
  let window ← liftStatus (checkPirRequest req)
  match ← getTip.mapError cacheStatus with
  | none => Prog.fail ⟨.unavailable, "No blocks cached yet"⟩
  | some (tip, _) =>
    if tip < req.endHeight then
      Prog.fail ⟨.invalidArgument, "PIR window end " ++ toString req.endHeight ++
        " is above tip " ++ toString tip⟩
    else do
      let _ ← liftStatus (acquireFhePermit call.permit)
      let (payloads, windows) ←
        pirWindowPayloads encodeToVec windows req.startHeight req.endHeight
      let db := limbColumn payloads req.limbIndex
      pure (match evaluateSealpirStripes S req.queryCiphertexts db window with
        | .error e => .error ⟨.invalidArgument, "PIR evaluation error: " ++ e⟩
        | .ok responses => .ok responses, windows)

/-- A wallet fetches a column from a server: `fetchColumn` with the request between its two halves.
SOURCE: pir_server.rs:529-538, server.rs:2561-2669 -/
def BatchPirClient.fetchLimb {S : BfvScheme} (client : BatchPirClient S)
    (encodeToVec : EncodeToVec) (call : PirCall Ip) (draws : ℕ → S.Random) (start last : ℕ)
    (indices : List ℕ) (limbIndex : ℕ) (windows : PirWindows) (s : Cache) :
    Except String (List ℕ) × PirWindows :=
  let windowSize := last - start + 1
  match client.generateSealpirQueries draws indices windowSize with
  | .error e => (.error e, windows)
  | .ok queries =>
    match ((fetchPirBatch S encodeToVec call ⟨queries, start, last, limbIndex⟩ windows).run s).1 with
    | .error status => (.error status.message, windows)
    | .ok (.error status, windows) => (.error status.message, windows)
    | .ok (.ok responses, windows) => (client.decryptSealpirStripes responses windowSize, windows)

end LightWalletd
