import LightWalletd.Model.Detection
import LightWalletd.Model.DetectionPool
import LightWalletd.Model.KeyUpload

/-!
# The digest requests

A digest is evaluated for the keys of an upload, or for keys that were registered before and are
named by their handle. Both ways end in the same evaluation. The build is the one with `fhe-omr`.
The verdicts of the rate limiters, the readings of the clocks, the random handles and the outcome of
the wait for a worker are arguments.
-/

set_option autoImplicit false

namespace LightWalletd

open Stateful

/-! ## Replies -/

/-- SOURCE: unifomr.rs:1097-1103 -/
def packSlotHeights (slotHeights : List ℕ) : Bytes := slotHeights.flatMap (leBytes 4)

/-- SOURCE: unifomr.rs:1106-1117 -/
def unpackSlotHeights (bytes : Bytes) : Except String (List ℕ) :=
  if bytes.length % 4 ≠ 0 then
    .error ("slot_heights length " ++ toString bytes.length ++ " not a multiple of 4")
  else .ok ((chunksOf 4 bytes).map leValue)

/-- SOURCE: lightwallet.proto:400-417 -/
structure Proto.OmrDigestResponse where
  encryptedDigest : Bytes
  complete : Bool
  slotHeights : Bytes
  deriving DecidableEq

/-- SOURCE: omr_traits.rs:23-35 -/
def OmrError.text : OmrError → String
  | .deserializationError msg => "Deserialization failed: " ++ msg
  | .evaluationError msg => "FHE Evaluation failed: " ++ msg
  | .invalidParameter msg => "Invalid parameter: " ++ msg
  | .unknown msg => "Unknown error: " ++ msg

/-! ## The evaluation -/

/-- What the server is built and configured with. -/
structure OmrEnv where
  scheme : BfvScheme
  blake3 : Bytes → Bytes32
  networkByte : UInt8
  caps : ResourceCaps

/-- The digest of one key, or the digests of several behind their lengths. That each takes a least
time is left out.
SOURCE: server.rs:1404-1418, unifomr.rs:1013-1026 -/
def encodeKeys (S : BfvScheme) (detector : UnifOmrDetector) (keys : List Bytes)
    (messages : List RlweCiphertext) : Except OmrError Bytes :=
  match keys with
  | [key] => detector.encodeMessages S key messages
  | keys => do
    let digests ← keys.mapM fun key => detector.encodeMessages S key messages
    pure (digests.flatMap frame)

/-- How the wait for a worker ends. -/
inductive PermitWait
  | granted
  | closed
  | timedOut

/-- SOURCE: server.rs:1250-1262 -/
def acquireFhePermit : PermitWait → Except Status Unit
  | .granted => .ok ()
  | .closed => .error ⟨.unavailable, "FHE workers unavailable"⟩
  | .timedOut => .error ⟨.unavailable, "timed out waiting for an FHE worker"⟩

/-- The windows that are kept stay also when a key is refused.
SOURCE: server.rs:1380-1430 -/
def evaluateDetectionKeys (env : OmrEnv) (keys : List Bytes) (start last : ℕ) (s : Cache)
    (windows : ClueWindows) : Except Status Proto.OmrDigestResponse × ClueWindows :=
  match ((digestSlots env.blake3 windows start last).run s).1 with
  | .error e => (.error e, windows)
  | .ok (slots, windows) =>
    match encodeKeys env.scheme ⟨env.networkByte⟩ keys slots.messages with
    | .error e => (.error ⟨.invalidArgument, "UnifOMR detection error: " ++ e.text⟩, windows)
    | .ok digest => (.ok ⟨digest, slots.complete, packSlotHeights slots.slotHeights⟩, windows)

/-! ## Uploads -/

/-- A detection key upload as it reaches the server: its guards, the verdict of the limiter, when it
starts, and what the stream brings. -/
structure UploadCall (Ip : Type) where
  gauges : Gauges Ip
  peer : Ip
  allowed : Bool
  started : ℕ
  arrivals : List (Upload.Arrival (Except Status Upload.DetectionKeyChunk))
  closed : Upload.Arrival Unit

variable {Ip : Type} [DecidableEq Ip]

/-- The upload, with or without a check of its window. -/
def UploadCall.read (call : UploadCall Ip) (caps : ResourceCaps) (enforceRange : Bool) :
    Except Status (Upload.DetectionKeyUpload caps) :=
  (Upload.readDetectionKeyUpload caps call.gauges call.peer enforceRange call.allowed call.started
    call.arrivals call.closed).map Prod.fst

/-- SOURCE: server.rs:2415-2440 -/
def getUnifOmrDigest (env : OmrEnv) (call : UploadCall Ip) (permit : PermitWait) (s : Cache)
    (windows : ClueWindows) : Except Status Proto.OmrDigestResponse × ClueWindows :=
  match call.read env.caps true with
  | .error e => (.error e, windows)
  | .ok upload =>
    match acquireFhePermit permit with
    | .error e => (.error e, windows)
    | .ok () =>
      evaluateDetectionKeys env upload.keys upload.startHeight upload.endHeight s windows

/-! ## Registered keys -/

/-- SOURCE: lightwallet.proto:386-391 -/
structure Proto.DetectionKeyHandle where
  handle : Bytes
  expiresUnix : ℕ

/-- SOURCE: lightwallet.proto:393-398 -/
structure Proto.PoolDigestRequest where
  handle : Bytes
  startHeight : ℕ
  endHeight : ℕ

/-- SOURCE: detection_pool.rs:27-31 -/
def detectionKeyTtlSecs : ℕ := 86400

/-- SOURCE: detection_pool.rs:184-187 -/
def expiryFrom (nowUnix : ℕ) : ℕ := saturatingAdd64 nowUnix detectionKeyTtlSecs

/-- Every key is read for its network; the sum of their lengths.
SOURCE: server.rs:2467-2480 -/
def checkDetectionKeys (S : BfvScheme) (networkByte : UInt8) (keys : List Bytes) :
    Except String ℕ :=
  keys.foldlM (fun byteLength key => do
    let (net, _) ← parseDetectionKey (S := S) key
    if net ≠ networkByte then .error "detection key network does not match this server"
    else pure (byteLength + key.length)) 0

/-- SOURCE: server.rs:2496-2503 -/
def PoolReject.status : PoolReject → Status
  | .full => ⟨.resourceExhausted, "detection key pool is full"⟩
  | .tooLarge => ⟨.invalidArgument, "detection key exceeds the size cap"⟩
  | .empty => ⟨.invalidArgument, "empty detection key"⟩

/-- SOURCE: server.rs:2442-2508 -/
def registerDetectionKey (env : OmrEnv) (call : UploadCall Ip) (permit : PermitWait)
    (now instant : ℕ) (draws : ℕ → Bytes32) (pool : DetectionKeyPool) :
    Except Status Proto.DetectionKeyHandle × DetectionKeyPool :=
  match call.read env.caps false with
  | .error e => (.error e, pool)
  | .ok upload =>
    match acquireFhePermit permit with
    | .error e => (.error e, pool)
    | .ok () =>
      match checkDetectionKeys env.scheme env.networkByte upload.keys with
      | .error e => (.error ⟨.invalidArgument, "detection key: " ++ e⟩, pool)
      | .ok byteLength =>
        let pooled := ⟨upload.keys, env.networkByte, expiryFrom now, byteLength⟩
        let (result, pool) := pool.insert pooled env.caps.maxDetectionKeyBytes now instant draws
        (match result with
          | .error reject => .error reject.status
          | .ok handle => .ok ⟨handle.1, expiryFrom now⟩, pool)

/-- SOURCE: server.rs:1157-1165 -/
def checkOmrRateLimit (allowed : Bool) : Except Status Unit :=
  if allowed then .ok ()
  else .error ⟨.resourceExhausted, "OMR digest rate limit exceeded; retry later"⟩

/-- What the clocks read for a lookup in the pool. -/
structure PoolClock where
  nowUnix : ℕ
  instant : ℕ
  sweepInstant : ℕ

/-- The limiter is asked for one credit, and again for those of further keys.
SOURCE: server.rs:2510-2559 -/
def getUnifOmrDigestFromPool (env : OmrEnv) (req : Proto.PoolDigestRequest)
    (allowed allowedExtra : Bool) (clock : PoolClock) (permit : PermitWait) (s : Cache)
    (windows : ClueWindows) (pool : DetectionKeyPool) :
    Except Status Proto.OmrDigestResponse × ClueWindows × DetectionKeyPool :=
  if h : req.handle.length = 32 then
    match checkOmrRateLimit allowed with
    | .error e => (.error e, windows, pool)
    | .ok () =>
      let (pooled, pool) :=
        pool.lookup ⟨req.handle, h⟩ clock.nowUnix clock.instant clock.sweepInstant
      match pooled with
      | none => (.error ⟨.notFound, "detection key handle not found or expired"⟩, windows, pool)
      | some pooled =>
        if pooled.networkByte ≠ env.networkByte then
          (.error ⟨.invalidArgument, "detection key network does not match this server"⟩,
            windows, pool)
        else match if 0 < pooled.keys.length - 1 then checkOmrRateLimit allowedExtra else .ok () with
          | .error e => (.error e, windows, pool)
          | .ok () =>
            match acquireFhePermit permit with
            | .error e => (.error e, windows, pool)
            | .ok () =>
              let (reply, windows) :=
                evaluateDetectionKeys env pooled.keys req.startHeight req.endHeight s windows
              (reply, windows, pool)
  else (.error ⟨.invalidArgument, "detection key handle must be 32 bytes"⟩, windows, pool)

/-! ## Runs -/

/-- A request for the pool, with what it reads from outside it. -/
inductive PoolRequest (Ip : Type)
  | register (call : UploadCall Ip) (permit : PermitWait) (now instant : ℕ) (draws : ℕ → Bytes32)
  | digest (req : Proto.PoolDigestRequest) (allowed allowedExtra : Bool) (clock : PoolClock)
      (permit : PermitWait) (s : Cache) (windows : ClueWindows)

/-- The pool after a request. -/
def PoolRequest.serve (env : OmrEnv) (pool : DetectionKeyPool) :
    PoolRequest Ip → DetectionKeyPool
  | .register call permit now instant draws =>
    (registerDetectionKey env call permit now instant draws pool).2
  | .digest req allowed allowedExtra clock permit s windows =>
    (getUnifOmrDigestFromPool env req allowed allowedExtra clock permit s windows pool).2.2

/-- The pool after some requests. -/
def servePool (env : OmrEnv) (pool : DetectionKeyPool) (requests : List (PoolRequest Ip)) :
    DetectionKeyPool :=
  requests.foldl (PoolRequest.serve env) pool

end LightWalletd
