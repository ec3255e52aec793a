import LightWalletd.Computation.Pieces
import LightWalletd.Model.ResourceCaps

/-!
# Detection key uploads

An upload is a stream of chunks: a header in the first one, and the bytes of the keys cut
anywhere. `Model.ResourceCaps` counts the bytes of an upload; here they are kept. What the clock
reads is an argument, in nanoseconds, and so is the verdict of the rate limiter.
-/

set_option autoImplicit false

namespace LightWalletd

/-- `usize::saturating_mul`. -/
def saturatingMul64 (a b : ℕ) : ℕ := min (a * b) u64Max

namespace Upload

/-- SOURCE: lightwallet.proto:428-442 -/
structure DetectionKeyChunk where
  startHeight : ℕ
  endHeight : ℕ
  numKeys : ℕ
  data : Bytes
  keyDone : Bool

/-- The locals of an upload behind its header.
SOURCE: server.rs:1441-1447 -/
structure KeyUpload (caps : ResourceCaps) where
  startHeight : ℕ
  endHeight : ℕ
  numKeys : ℕ
  keys : List Bytes
  currentKey : Bytes
  reservation : UploadReservation caps
  fits : (keys.map List.length).sum + currentKey.length ≤ caps.maxDetectionKeysTotalBytes

/-- SOURCE: server.rs:1556-1562 -/
structure DetectionKeyUpload (caps : ResourceCaps) where
  startHeight : ℕ
  endHeight : ℕ
  keys : List Bytes
  reservation : UploadReservation caps

/-! ## Time -/

/-- SOURCE: server.rs:99-102 -/
def detectionKeyChunkIdleTimeout : ℕ := 60 * 1000000000

/-- SOURCE: server.rs:103-105 -/
def uploadDeadline : ℕ := 120 * 1000000000

/-- What the loop finds when it waits: the clock, how long the stream takes, and what it brings. -/
structure Arrival (Item : Type) where
  now : ℕ
  delay : ℕ
  item : Item

/-- SOURCE: server.rs:1451-1467 -/
def Arrival.await {Item : Type} (a : Arrival Item) (deadline : ℕ) : Except Status Item :=
  let remaining := deadline - a.now
  if remaining = 0 then
    .error ⟨.deadlineExceeded, "UnifOMR detection-key upload exceeded 120s"⟩
  else
    let wait := min detectionKeyChunkIdleTimeout remaining
    if a.delay ≤ wait then .ok a.item
    else if wait < detectionKeyChunkIdleTimeout then
      .error ⟨.deadlineExceeded, "UnifOMR detection-key upload exceeded 120s"⟩
    else .error ⟨.deadlineExceeded, "UnifOMR detection-key upload stalled"⟩

/-! ## Chunks -/

variable {Ip : Type} [DecidableEq Ip]

/-- No keys fit. -/
theorem noKeys_fit (caps : ResourceCaps) :
    (([] : List Bytes).map List.length).sum + ([] : Bytes).length ≤
      caps.maxDetectionKeysTotalBytes := Nat.zero_le _

/-- The first chunk.
SOURCE: server.rs:1471-1489 -/
def readHeader (caps : ResourceCaps) (g : Gauges Ip) (peer : Ip) (enforceRange allowed : Bool)
    (chunk : DetectionKeyChunk) : Except Status (KeyUpload caps × Gauges Ip) :=
  if chunk.numKeys = 0 then .error ⟨.invalidArgument, "num_keys must be > 0"⟩
  else if 16 < chunk.numKeys then
    .error ⟨.invalidArgument, "Too many UnifOMR detection_keys (max 16)"⟩
  else match if enforceRange then rejectOversizedWindow chunk.startHeight chunk.endHeight
    else .ok 0 with
  | .error e => .error e
  | .ok _ =>
    if !allowed then .error ⟨.resourceExhausted, "OMR digest rate limit exceeded; retry later"⟩
    else match reserveUpload caps g peer chunk.numKeys with
      | .error e => .error e
      | .ok (reservation, g) => .ok (⟨chunk.startHeight, chunk.endHeight, chunk.numKeys, [], [],
        reservation, noKeys_fit caps⟩, g)

/-- The data of a chunk.
SOURCE: server.rs:1492-1515 -/
def KeyUpload.readChunk {caps : ResourceCaps} (u : KeyUpload caps) (chunk : DetectionKeyChunk) :
    Except Status (KeyUpload caps) :=
  let currentKey := u.currentKey ++ chunk.data
  if caps.maxDetectionKeyBytes < currentKey.length then
    .error ⟨.invalidArgument, "UnifOMR detection key[" ++ toString u.keys.length ++
      "] too large: " ++ toString currentKey.length ++ " bytes"⟩
  else
    let keys := if chunk.keyDone then u.keys ++ [currentKey] else u.keys
    let currentKey := if chunk.keyDone then [] else currentKey
    let totalKeyBytes := (keys.map List.length).sum + currentKey.length
    if h : caps.maxDetectionKeysTotalBytes < totalKeyBytes then
      .error ⟨.invalidArgument, "UnifOMR detection_keys total size too large: " ++
        toString totalKeyBytes ++ " bytes (max " ++ toString caps.maxDetectionKeysTotalBytes ++ ")"⟩
    else .ok { u with keys := keys, currentKey := currentKey, fits := not_lt.mp h }

/-- The checks behind the last chunk.
SOURCE: server.rs:1521-1552 -/
def KeyUpload.finish {caps : ResourceCaps} (u : KeyUpload caps) :
    Except Status (DetectionKeyUpload caps) :=
  if u.currentKey ≠ [] then
    .error ⟨.invalidArgument, "Stream ended before key_done = true for the last key"⟩
  else if u.keys.length ≠ u.numKeys then
    .error ⟨.invalidArgument, "Expected " ++ toString u.numKeys ++ " keys, but received " ++
      toString u.keys.length⟩
  else if u.keys.any List.isEmpty then
    .error ⟨.invalidArgument, "empty detection key not allowed"⟩
  else
    let uploaded := ⟨u.startHeight, u.endHeight, u.keys, u.reservation⟩
    match (u.keys.map List.length).max? with
    | some maxLen =>
      if caps.maxDetectionKeysTotalBytes < saturatingMul64 u.keys.length maxLen then
        .error ⟨.invalidArgument, "UnifOMR detection_keys count×size exceeds total size budget"⟩
      else .ok uploaded
    | none => .ok uploaded

/-! ## The stream -/

/-- What a round begins with: its chunk, and the upload that the first chunk starts, with the gauges
after its header.
SOURCE: server.rs:1451-1490 -/
def receive (caps : ResourceCaps) (g : Gauges Ip) (peer : Ip) (enforceRange allowed : Bool)
    (deadline : ℕ) (upload : Option (KeyUpload caps × Gauges Ip))
    (arrival : Arrival (Except Status DetectionKeyChunk)) :
    Except Status ((KeyUpload caps × Gauges Ip) × DetectionKeyChunk) := do
  let chunk ← arrival.await deadline
  let chunk ← chunk
  let upload ← match upload with
    | some upload => .ok upload
    | none => readHeader caps g peer enforceRange allowed chunk
  return (upload, chunk)

/-- A round of the loop.
SOURCE: server.rs:1450-1516 -/
def readArrival (caps : ResourceCaps) (g : Gauges Ip) (peer : Ip) (enforceRange allowed : Bool)
    (deadline : ℕ) (upload : Option (KeyUpload caps × Gauges Ip))
    (arrival : Arrival (Except Status DetectionKeyChunk)) :
    Except Status (Option (KeyUpload caps × Gauges Ip)) := do
  let ((u, g), chunk) ← receive caps g peer enforceRange allowed deadline upload arrival
  let u ← u.readChunk chunk
  return some (u, g)

/-- What the stream brings until the deadline, and then its end.
SOURCE: server.rs:1450-1553 -/
def readStream (caps : ResourceCaps) (g : Gauges Ip) (peer : Ip) (enforceRange allowed : Bool)
    (deadline : ℕ) (arrivals : List (Arrival (Except Status DetectionKeyChunk)))
    (closed : Arrival Unit) : Except Status (DetectionKeyUpload caps × Gauges Ip) := do
  let upload ← arrivals.foldlM (readArrival caps g peer enforceRange allowed deadline) none
  closed.await deadline
  match upload with
  | none => .error ⟨.invalidArgument, "Empty stream"⟩
  | some (u, g) =>
    let uploaded ← u.finish
    return (uploaded, g)

/-- The gauges of an upload that fails are those before it.
SOURCE: server.rs:1433-1448 -/
def readDetectionKeyUpload (caps : ResourceCaps) (g : Gauges Ip) (peer : Ip)
    (enforceRange allowed : Bool) (started : ℕ)
    (arrivals : List (Arrival (Except Status DetectionKeyChunk))) (closed : Arrival Unit) :
    Except Status (DetectionKeyUpload caps × Gauges Ip) :=
  readStream caps g peer enforceRange allowed (started + uploadDeadline) arrivals closed

/-! ## Points of the loop -/

/-- What an upload has of its keys. -/
def KeyUpload.assembly {caps : ResourceCaps} (u : KeyUpload caps) : Pieces.Assembly UInt8 :=
  ⟨u.keys, u.currentKey⟩

/-- What is buffered in a round: as it begins, with the data of its chunk, and with the key that
the chunk ends, unless that is too long.
SOURCE: server.rs:1492-1504 -/
def KeyUpload.points {caps : ResourceCaps} (u : KeyUpload caps) (chunk : DetectionKeyChunk) :
    List (Pieces.Assembly UInt8) :=
  let currentKey := u.currentKey ++ chunk.data
  [⟨u.keys, u.currentKey⟩, ⟨u.keys, currentKey⟩] ++
    if caps.maxDetectionKeyBytes < currentKey.length then []
    else if chunk.keyDone then [⟨u.keys ++ [currentKey], []⟩] else []

/-- The rounds of the loop, up to the one that fails: each upload with the chunk it handles. -/
def rounds (caps : ResourceCaps) (g : Gauges Ip) (peer : Ip) (enforceRange allowed : Bool)
    (deadline : ℕ) : Option (KeyUpload caps × Gauges Ip) →
      List (Arrival (Except Status DetectionKeyChunk)) → List (KeyUpload caps × DetectionKeyChunk)
  | _, [] => []
  | upload, arrival :: arrivals =>
    match receive caps g peer enforceRange allowed deadline upload arrival with
    | .error _ => []
    | .ok ((u, g'), chunk) => (u, chunk) :: match u.readChunk chunk with
      | .error _ => []
      | .ok v => rounds caps g peer enforceRange allowed deadline (some (v, g')) arrivals

end Upload

end LightWalletd
