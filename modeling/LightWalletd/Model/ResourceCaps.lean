import Mathlib.Logic.Function.Basic
import LightWalletd.Model.Digest

/-!
# Resource caps

A request holds guards as locals of its handler: a PIR slot of its address, or an upload slot
and upload bytes. Its computation runs on a worker thread and holds a worker permit, and the
uploaded keys of a digest. A handler that is dropped gives its guards back; a computation that
has started runs to its end. Keys count by their length.
-/

set_option autoImplicit false

namespace LightWalletd

/-! ## Caps -/

/-- SOURCE: server.rs:113-115 -/
def maxPirInflightPerIp : ℕ := 1

/-- SOURCE: server.rs:97-98 -/
def defaultFhePermits : ℕ := 2

/-- What an operator configures. The keys of one upload may be as long as one key.
SOURCE: server.rs:967-969, server.rs:983-985 -/
structure ResourceCaps where
  maxDetectionKeyBytes : ℕ
  maxDetectionKeysTotalBytes : ℕ
  uploadBudget : ℕ
  maxUploadsPerIp : ℕ
  total_le : maxDetectionKeysTotalBytes ≤ maxDetectionKeyBytes

/-- SOURCE: server.rs:815-817 -/
def uploadBudgetPermits (mib : ℕ) : ℕ := max (min (mib * (1024 * 1024)) u64Max) 1

/-- SOURCE: server.rs:1078-1092 -/
def applyResourceCaps (maxDetectionKeyBytes uploadBudgetMib maxUploadsPerIp : ℕ) :
    ResourceCaps where
  maxDetectionKeyBytes := max maxDetectionKeyBytes 1
  maxDetectionKeysTotalBytes := max maxDetectionKeyBytes 1
  uploadBudget := uploadBudgetPermits uploadBudgetMib
  maxUploadsPerIp := max maxUploadsPerIp 1
  total_le := le_rfl

/-! ## Guards -/

/-- Slots in use by address; an address without an entry uses none. -/
abbrev Slots (Ip : Type) := Ip → ℕ

/-- What the guards are taken from.
SOURCE: server.rs:965, server.rs:981-988 -/
structure Gauges (Ip : Type) where
  pirInflight : Slots Ip
  uploadSlots : Slots Ip
  uploadBytes : ℕ
  fhePermits : ℕ

/-- The guard of the bytes and the slot of an upload; the bytes cover every key it may bring.
SOURCE: server.rs:809-813 -/
structure UploadReservation (caps : ResourceCaps) where
  bytes : ℕ
  covers : caps.maxDetectionKeysTotalBytes ≤ bytes

variable {Ip : Type} [DecidableEq Ip]

/-- SOURCE: server.rs:1201-1219 -/
def trySlot (slots : Slots Ip) (peer : Ip) (cap : ℕ) : Except Status (Slots Ip) :=
  if cap ≤ slots peer then
    .error ⟨.resourceExhausted, "too many concurrent requests from this address"⟩
  else .ok (Function.update slots peer (slots peer + 1))

/-- SOURCE: server.rs:825-837 -/
def dropSlot (slots : Slots Ip) (peer : Ip) : Slots Ip :=
  Function.update slots peer (slots peer - 1)

/-- SOURCE: server.rs:1264-1271 -/
def beginPir (g : Gauges Ip) (peer : Ip) : Except Status (Gauges Ip) :=
  match trySlot g.pirInflight peer maxPirInflightPerIp with
  | .error _ => .error
    ⟨.resourceExhausted, "too many in-flight FetchPirBatch requests from this address"⟩
  | .ok slots => .ok { g with pirInflight := slots }

/-- A declared size that is not zero is at least the total cap. -/
theorem ResourceCaps.total_le_declared (caps : ResourceCaps) {numKeys : ℕ}
    (h : numKeys * caps.maxDetectionKeyBytes ≠ 0) :
    caps.maxDetectionKeysTotalBytes ≤ numKeys * caps.maxDetectionKeyBytes := by
  have hkeys : 0 < numKeys := Nat.pos_of_ne_zero fun hzero => h (by rw [hzero, Nat.zero_mul])
  exact caps.total_le.trans (Nat.le_mul_of_pos_left _ hkeys)

/-- A product that saturates is past every `u32`.
SOURCE: server.rs:1221-1246 -/
def reserveUpload (caps : ResourceCaps) (g : Gauges Ip) (peer : Ip) (numKeys : ℕ) :
    Except Status (UploadReservation caps × Gauges Ip) :=
  if u32Max < numKeys * caps.maxDetectionKeyBytes then
    .error ⟨.resourceExhausted, "detection-key upload exceeds the byte budget"⟩
  else if h : numKeys * caps.maxDetectionKeyBytes = 0 then
    .error ⟨.resourceExhausted, "detection-key upload exceeds the byte budget"⟩
  else match trySlot g.uploadSlots peer caps.maxUploadsPerIp with
    | .error _ => .error ⟨.resourceExhausted,
      "too many concurrent detection-key uploads from this address"⟩
    | .ok slots =>
      if g.uploadBytes < numKeys * caps.maxDetectionKeyBytes then
        .error ⟨.resourceExhausted, "detection-key upload byte budget exhausted"⟩
      else .ok (⟨numKeys * caps.maxDetectionKeyBytes, caps.total_le_declared h⟩,
        { g with
          uploadSlots := slots
          uploadBytes := g.uploadBytes - numKeys * caps.maxDetectionKeyBytes })

/-! ## Uploads -/

/-- One message of an upload, its data by the length. -/
structure Proto.DetectionKeyChunk where
  startHeight : ℕ
  endHeight : ℕ
  numKeys : ℕ
  dataLen : ℕ
  keyDone : Bool

/-- The locals of an upload behind its header: the keys that are done, the one that is not, and
the reservation.
SOURCE: server.rs:1441-1447 -/
structure KeyUpload (caps : ResourceCaps) where
  numKeys : ℕ
  keys : List ℕ
  currentKey : ℕ
  reservation : UploadReservation caps
  fits : keys.sum + currentKey ≤ caps.maxDetectionKeysTotalBytes

/-- The keys of an upload that is through. The window goes on to the evaluation.
SOURCE: server.rs:1556-1562 -/
structure DetectionKeyUpload (caps : ResourceCaps) where
  keys : List ℕ
  reservation : UploadReservation caps
  fits : keys.sum ≤ caps.maxDetectionKeysTotalBytes

/-- The first chunk; `allowed` is the verdict of the rate limiter.
SOURCE: server.rs:1469-1489 -/
def readHeader (caps : ResourceCaps) (g : Gauges Ip) (peer : Ip) (chunk : Proto.DetectionKeyChunk)
    (allowed : Bool) : Except Status (KeyUpload caps × Gauges Ip) :=
  if chunk.numKeys = 0 then .error ⟨.invalidArgument, "num_keys must be > 0"⟩
  else if 16 < chunk.numKeys then
    .error ⟨.invalidArgument, "Too many UnifOMR detection_keys (max 16)"⟩
  else match rejectOversizedWindow chunk.startHeight chunk.endHeight with
    | .error e => .error e
    | .ok _ =>
      if !allowed then .error ⟨.resourceExhausted, "OMR digest rate limit exceeded; retry later"⟩
      else match reserveUpload caps g peer chunk.numKeys with
        | .error e => .error e
        | .ok (reservation, g) => .ok (⟨chunk.numKeys, [], 0, reservation, Nat.zero_le _⟩, g)

/-- The data of a chunk.
SOURCE: server.rs:1492-1515 -/
def KeyUpload.readChunk {caps : ResourceCaps} (u : KeyUpload caps)
    (chunk : Proto.DetectionKeyChunk) : Except Status (KeyUpload caps) :=
  let currentKey := u.currentKey + chunk.dataLen
  if caps.maxDetectionKeyBytes < currentKey then
    .error ⟨.invalidArgument, "UnifOMR detection key[" ++ toString u.keys.length ++
      "] too large: " ++ toString currentKey ++ " bytes"⟩
  else
    let keys := if chunk.keyDone then u.keys ++ [currentKey] else u.keys
    let currentKey := if chunk.keyDone then 0 else currentKey
    if h : caps.maxDetectionKeysTotalBytes < keys.sum + currentKey then
      .error ⟨.invalidArgument, "UnifOMR detection_keys total size too large: " ++
        toString (keys.sum + currentKey) ++ " bytes (max " ++
        toString caps.maxDetectionKeysTotalBytes ++ ")"⟩
    else .ok { u with keys := keys, currentKey := currentKey, fits := not_lt.mp h }

/-- The checks behind the last chunk.
SOURCE: server.rs:1521-1552 -/
def KeyUpload.finish {caps : ResourceCaps} (u : KeyUpload caps) :
    Except Status (DetectionKeyUpload caps) :=
  if u.currentKey ≠ 0 then
    .error ⟨.invalidArgument, "Stream ended before key_done = true for the last key"⟩
  else if u.keys.length ≠ u.numKeys then
    .error ⟨.invalidArgument, "Expected " ++ toString u.numKeys ++ " keys, but received " ++
      toString u.keys.length⟩
  else if u.keys.any fun k => k = 0 then
    .error ⟨.invalidArgument, "empty detection key not allowed"⟩
  else if caps.maxDetectionKeysTotalBytes < u.keys.length * u.keys.foldl max 0 then
    .error ⟨.invalidArgument, "UnifOMR detection_keys count×size exceeds total size budget"⟩
  else .ok ⟨u.keys, u.reservation, (Nat.le_add_right _ _).trans u.fits⟩

/-! ## Requests -/

/-- A computation on a worker thread, with what was moved into it. -/
inductive Work
  | pir
  | digest (keys : List ℕ)

/-- Where a request is. A digest waits for its header, for chunks or for a worker permit; a
request runs while its handler waits for its computation, and is ready when that has ended. A
computation is detached when its handler was dropped before. -/
inductive RequestState (caps : ResourceCaps)
  | opened
  | uploading (u : KeyUpload caps)
  | digestWaiting (u : DetectionKeyUpload caps)
  | digestRunning (u : DetectionKeyUpload caps)
  | digestReady (reservation : UploadReservation caps)
  | pirWaiting
  | pirRunning
  | pirReady
  | detached (work : Work)
  | gone

/-- A request and where it is from. -/
structure Request (caps : ResourceCaps) (Ip : Type) where
  peer : Ip
  state : RequestState caps

/-- Dropping the two fields of a reservation. -/
def Gauges.dropReservation {caps : ResourceCaps} (g : Gauges Ip) (peer : Ip)
    (reservation : UploadReservation caps) : Gauges Ip :=
  { g with
    uploadSlots := dropSlot g.uploadSlots peer
    uploadBytes := g.uploadBytes + reservation.bytes }

/-- What the locals of a handler give back when it is dropped.
SOURCE: server.rs:2428-2437, server.rs:2586-2587 -/
def Gauges.release {caps : ResourceCaps} (g : Gauges Ip) (peer : Ip) :
    RequestState caps → Gauges Ip
  | .uploading u => g.dropReservation peer u.reservation
  | .digestWaiting u => g.dropReservation peer u.reservation
  | .digestRunning u => g.dropReservation peer u.reservation
  | .digestReady reservation => g.dropReservation peer reservation
  | .pirWaiting | .pirRunning | .pirReady => { g with pirInflight := dropSlot g.pirInflight peer }
  | .opened | .detached _ | .gone => g

/-- What is left when the handler is dropped: its computation, while that runs. -/
def RequestState.dropped {caps : ResourceCaps} : RequestState caps → RequestState caps
  | .digestRunning u => .detached (.digest u.keys)
  | .pirRunning => .detached .pir
  | .detached work => .detached work
  | _ => .gone

/-! ## Steps -/

/-- The gauges and all requests so far. -/
structure ServerLoad (caps : ResourceCaps) (Ip : Type) where
  gauges : Gauges Ip
  requests : List (Request caps Ip)

namespace ServerLoad

variable {caps : ResourceCaps}

/-- Request `i` goes on to `state`. -/
def move (s : ServerLoad caps Ip) (i : ℕ) (gauges : Gauges Ip) (peer : Ip)
    (state : RequestState caps) : ServerLoad caps Ip :=
  ⟨gauges, s.requests.set i ⟨peer, state⟩⟩

/-- The handler of request `i`, which is in `state`, returns or is dropped. -/
def dropHandler (s : ServerLoad caps Ip) (i : ℕ) (peer : Ip) (state : RequestState caps) :
    ServerLoad caps Ip :=
  s.move i (s.gauges.release peer state) peer state.dropped

/-- A chunk of upload `i`. -/
def readChunk (s : ServerLoad caps Ip) (i : ℕ) (peer : Ip) (u : KeyUpload caps)
    (chunk : Proto.DetectionKeyChunk) : ServerLoad caps Ip :=
  match u.readChunk chunk with
  | .error _ => s.dropHandler i peer (.uploading u)
  | .ok u => s.move i s.gauges peer (.uploading u)

end ServerLoad

/-- What happens next. A request for PIR is `valid` when it passes the checks behind its slot; a
digest is `prepared` when its reads of the cache succeed; `cancel` is the client's, or a timeout
of a handler. -/
inductive LoadEvent (Ip : Type)
  | fetchPirBatch (peer : Ip) (valid : Bool)
  | getUnifOmrDigest (peer : Ip)
  | chunk (i : ℕ) (chunk : Proto.DetectionKeyChunk) (allowed : Bool)
  | endOfStream (i : ℕ)
  | permit (i : ℕ) (prepared : Bool)
  | finish (i : ℕ)
  | complete (i : ℕ)
  | cancel (i : ℕ)

/-- One step, if it is possible.
SOURCE: server.rs:1380-1430, server.rs:1434-1553, server.rs:2412-2440, server.rs:2574-2664 -/
def ServerLoad.step {caps : ResourceCaps} (s : ServerLoad caps Ip) :
    LoadEvent Ip → Option (ServerLoad caps Ip)
  | .fetchPirBatch peer valid =>
    match beginPir s.gauges peer with
    | .error _ => some s
    | .ok g =>
      if valid then some ⟨g, s.requests ++ [⟨peer, .pirWaiting⟩]⟩
      else some ⟨{ g with pirInflight := dropSlot g.pirInflight peer }, s.requests⟩
  | .getUnifOmrDigest peer => some ⟨s.gauges, s.requests ++ [⟨peer, .opened⟩]⟩
  | .chunk i chunk allowed =>
    match s.requests[i]? with
    | some ⟨peer, .opened⟩ =>
      match readHeader caps s.gauges peer chunk allowed with
      | .error _ => some (s.dropHandler i peer .opened)
      | .ok (u, g) => some ((s.move i g peer (.uploading u)).readChunk i peer u chunk)
    | some ⟨peer, .uploading u⟩ => some (s.readChunk i peer u chunk)
    | _ => none
  | .endOfStream i =>
    match s.requests[i]? with
    | some ⟨peer, .opened⟩ => some (s.dropHandler i peer .opened)
    | some ⟨peer, .uploading u⟩ =>
      match u.finish with
      | .error _ => some (s.dropHandler i peer (.uploading u))
      | .ok u => some (s.move i s.gauges peer (.digestWaiting u))
    | _ => none
  | .permit i prepared =>
    if s.gauges.fhePermits = 0 then none
    else match s.requests[i]? with
      | some ⟨peer, .pirWaiting⟩ =>
        some (s.move i { s.gauges with fhePermits := s.gauges.fhePermits - 1 } peer .pirRunning)
      | some ⟨peer, .digestWaiting u⟩ =>
        if prepared then
          some (s.move i { s.gauges with fhePermits := s.gauges.fhePermits - 1 } peer
            (.digestRunning u))
        else some (s.dropHandler i peer (.digestWaiting u))
      | _ => none
  | .finish i =>
    match s.requests[i]? with
    | some ⟨peer, .pirRunning⟩ =>
      some (s.move i { s.gauges with fhePermits := s.gauges.fhePermits + 1 } peer .pirReady)
    | some ⟨peer, .digestRunning u⟩ =>
      some (s.move i { s.gauges with fhePermits := s.gauges.fhePermits + 1 } peer
        (.digestReady u.reservation))
    | some ⟨peer, .detached _⟩ =>
      some (s.move i { s.gauges with fhePermits := s.gauges.fhePermits + 1 } peer .gone)
    | _ => none
  | .complete i =>
    match s.requests[i]? with
    | some ⟨peer, .pirReady⟩ => some (s.dropHandler i peer .pirReady)
    | some ⟨peer, .digestReady reservation⟩ =>
      some (s.dropHandler i peer (.digestReady reservation))
    | _ => none
  | .cancel i => s.requests[i]?.map fun r => s.dropHandler i r.peer r.state

/-- A server before its first request. -/
def ServerLoad.start (caps : ResourceCaps) (Ip : Type) : ServerLoad caps Ip where
  gauges := ⟨fun _ => 0, fun _ => 0, caps.uploadBudget, defaultFhePermits⟩
  requests := []

end LightWalletd
