import LightWalletd.Computation.Reservations
import LightWalletd.Model.ResourceCaps

/-!
# Caps beside cancelled requests

The gauges count what the handlers hold. A computation whose handler was dropped is not counted
any more, while its worker permit and its keys last. The caps hold as long as no request is
admitted against the room that such a computation still takes.
-/

set_option autoImplicit false

namespace LightWalletd

open Reservations

attribute [simp] RequestState.dropped

variable {caps : ResourceCaps} {Ip : Type} [DecidableEq Ip]

/-! ## What requests hold and use -/

/-- The bytes that the reservation of a handler holds. -/
@[simp] def RequestState.heldBytes : RequestState caps → ℕ
  | .uploading u => u.reservation.bytes
  | .digestWaiting u => u.reservation.bytes
  | .digestRunning u => u.reservation.bytes
  | .digestReady reservation => reservation.bytes
  | _ => 0

/-- The bytes of detection keys in a handler or its computation. -/
@[simp] def RequestState.keyBytes : RequestState caps → ℕ
  | .uploading u => u.keys.sum + u.currentKey
  | .digestWaiting u => u.keys.sum
  | .digestRunning u => u.keys.sum
  | .detached (.digest keys) => keys.sum
  | _ => 0

/-- The PIR slot of a handler. -/
@[simp] def RequestState.heldPir : RequestState caps → ℕ
  | .pirWaiting | .pirRunning | .pirReady => 1
  | _ => 0

/-- A PIR computation. -/
@[simp] def RequestState.runsPir : RequestState caps → ℕ
  | .pirRunning => 1
  | .detached .pir => 1
  | _ => 0

/-- The worker permit of a computation. -/
@[simp] def RequestState.permits : RequestState caps → ℕ
  | .pirRunning | .digestRunning _ | .detached _ => 1
  | _ => 0

/-- The bytes a request reserved. -/
def Request.heldBytes (r : Request caps Ip) : ℕ := r.state.heldBytes

/-- The bytes of key parts a request received. -/
def Request.keyBytes (r : Request caps Ip) : ℕ := r.state.keyBytes

/-- The permits a request holds. -/
def Request.permits (r : Request caps Ip) : ℕ := r.state.permits

/-- What a request counts for an address. -/
def Request.by (f : RequestState caps → ℕ) (peer : Ip) (r : Request caps Ip) : ℕ :=
  if r.peer = peer then f r.state else 0

namespace ServerLoad

/-- The PIR computations of an address, each with its worker permit. -/
def pirComputations (s : ServerLoad caps Ip) (peer : Ip) : ℕ :=
  total (Request.by RequestState.runsPir peer) s.requests

/-- The bytes of detection keys in all handlers and computations. -/
def keyBytes (s : ServerLoad caps Ip) : ℕ := total Request.keyBytes s.requests

/-- The computations. -/
def computations (s : ServerLoad caps Ip) : ℕ := total Request.permits s.requests

/-- The PIR computations of an address whose handlers were dropped. -/
def detachedPir (s : ServerLoad caps Ip) (peer : Ip) : ℕ :=
  total (Request.by (fun | .detached .pir => 1 | _ => 0) peer) s.requests

/-- The bytes of detection keys in computations whose handlers were dropped. -/
def detachedBytes (s : ServerLoad caps Ip) : ℕ :=
  total (fun r => match r.state with | .detached (.digest keys) => keys.sum | _ => 0) s.requests

/-- A request that is admitted would be with the computations of dropped handlers counted. -/
def CountsDetached (s : ServerLoad caps Ip) : LoadEvent Ip → Prop
  | .fetchPirBatch peer true => s.gauges.pirInflight peer < maxPirInflightPerIp →
    s.gauges.pirInflight peer + s.detachedPir peer < maxPirInflightPerIp
  | .chunk i chunk allowed => ∀ peer admitted, s.requests[i]? = some ⟨peer, .opened⟩ →
    readHeader caps s.gauges peer chunk allowed = .ok admitted →
      chunk.numKeys * caps.maxDetectionKeyBytes + s.detachedBytes ≤ s.gauges.uploadBytes
  | _ => True

/-- The gauges say what the handlers and computations hold. -/
structure Accounted (s : ServerLoad caps Ip) : Prop where
  pir : ∀ peer, s.gauges.pirInflight peer = total (Request.by RequestState.heldPir peer) s.requests
  bytes : s.gauges.uploadBytes + total Request.heldBytes s.requests = caps.uploadBudget
  permits : s.gauges.fhePermits + s.computations = defaultFhePermits

/-- Reservations and computations together are within the caps. -/
structure Capped (s : ServerLoad caps Ip) : Prop where
  pir : ∀ peer, load (Request.by RequestState.heldPir peer) (Request.by RequestState.runsPir peer)
    s.requests ≤ maxPirInflightPerIp
  bytes : load Request.heldBytes Request.keyBytes s.requests ≤
    caps.uploadBudget

end ServerLoad

/-- What a request gives up, the gauges get back, and what it takes, they lose. -/
structure Balanced (g : Gauges Ip) (peer : Ip) (state : RequestState caps) (g' : Gauges Ip)
    (state' : RequestState caps) : Prop where
  pir : ∀ other, g'.pirInflight other + (if peer = other then state.heldPir else 0) =
    g.pirInflight other + if peer = other then state'.heldPir else 0
  bytes : g'.uploadBytes + state'.heldBytes = g.uploadBytes + state.heldBytes
  permits : g'.fhePermits + state'.permits = g.fhePermits + state.permits

/-- A request neither holds nor uses more than it did. -/
structure RequestState.Lighter (state' state : RequestState caps) : Prop where
  pir : max state'.heldPir state'.runsPir ≤ max state.heldPir state.runsPir
  bytes : max state'.heldBytes state'.keyBytes ≤ max state.heldBytes state.keyBytes

section Moves

variable {s : ServerLoad caps Ip} {i : ℕ} {peer : Ip} {state state' : RequestState caps}
  {g : Gauges Ip}

/-- A balanced move keeps the gauges equal to what the requests hold. -/
theorem ServerLoad.Accounted.move (hs : s.Accounted) (hi : s.requests[i]? = some ⟨peer, state⟩)
    (hg : Balanced s.gauges peer state g state') : (s.move i g peer state').Accounted := by
  refine ⟨fun other => ?_, ?_, ?_⟩
  · have hset := total_set (Request.by RequestState.heldPir other) hi ⟨peer, state'⟩
    have hpir := hs.pir other
    have hbalanced := hg.pir other
    simp only [Request.by] at hset
    show g.pirInflight other = total _ (s.requests.set i _)
    omega
  · have hset := total_set Request.heldBytes hi ⟨peer, state'⟩
    have hbytes := hs.bytes
    have hbalanced := hg.bytes
    show g.uploadBytes + total _ (s.requests.set i _) = _
    dsimp only [Request.heldBytes] at hset
    omega
  · have hset := total_set Request.permits hi ⟨peer, state'⟩
    have hpermits := hs.permits
    have hbalanced := hg.permits
    unfold ServerLoad.computations at hpermits
    show g.fhePermits + total _ (s.requests.set i _) = _
    dsimp only [Request.permits] at hset
    omega

/-- A move to a state that counts no more keeps every request within its caps. -/
theorem ServerLoad.Capped.move (hs : s.Capped) (hi : s.requests[i]? = some ⟨peer, state⟩)
    (hlighter : state'.Lighter state) : (s.move i g peer state').Capped := by
  refine ⟨fun other => (load_set_le hi ?_).trans (hs.pir other),
    (load_set_le hi hlighter.bytes).trans hs.bytes⟩
  unfold Request.by
  split_ifs
  · exact hlighter.pir
  · exact le_rfl

/-- A slot that is in use is free after its guard is dropped. -/
theorem dropSlot_add {slots : Slots Ip} (h : 1 ≤ slots peer) (other : Ip) :
    dropSlot slots peer other + (if peer = other then 1 else 0) = slots other := by
  unfold dropSlot
  by_cases heq : peer = other
  · subst heq
    rw [Function.update_self, if_pos rfl]
    omega
  · rw [Function.update_of_ne (Ne.symm heq), if_neg heq, Nat.add_zero]

/-- A dropped handler gives back what it held. -/
theorem balanced_release (hslot : state.heldPir ≤ s.gauges.pirInflight peer) :
    Balanced s.gauges peer state (s.gauges.release peer state) state.dropped := by
  cases state with
  | opened => exact ⟨fun _ => rfl, rfl, rfl⟩
  | uploading u => exact ⟨fun _ => rfl, rfl, rfl⟩
  | digestWaiting u => exact ⟨fun _ => rfl, rfl, rfl⟩
  | digestRunning u => exact ⟨fun _ => rfl, rfl, rfl⟩
  | digestReady reservation => exact ⟨fun _ => rfl, rfl, rfl⟩
  | pirWaiting => exact ⟨fun other => (dropSlot_add hslot other).trans (by simp), rfl, rfl⟩
  | pirRunning => exact ⟨fun other => (dropSlot_add hslot other).trans (by simp), rfl, rfl⟩
  | pirReady => exact ⟨fun other => (dropSlot_add hslot other).trans (by simp), rfl, rfl⟩
  | detached work => exact ⟨fun _ => rfl, rfl, rfl⟩
  | gone => exact ⟨fun _ => rfl, rfl, rfl⟩

/-- What is left of a dropped handler is no more than it was. -/
theorem lighter_dropped (state : RequestState caps) : state.dropped.Lighter state := by
  cases state with
  | detached work => exact ⟨le_rfl, le_rfl⟩
  | _ => exact ⟨by simp, by simp⟩

/-- Dropping a handler gives back what it held. -/
theorem ServerLoad.Accounted.dropHandler (hs : s.Accounted)
    (hi : s.requests[i]? = some ⟨peer, state⟩) : (s.dropHandler i peer state).Accounted := by
  have hslot : state.heldPir ≤ s.gauges.pirInflight peer := by
    have hle := le_total (Request.by RequestState.heldPir peer) hi
    rw [← hs.pir peer] at hle
    simpa [Request.by] using hle
  exact hs.move hi (balanced_release hslot)

/-- And leaves every other request within its caps. -/
theorem ServerLoad.Capped.dropHandler (hs : s.Capped)
    (hi : s.requests[i]? = some ⟨peer, state⟩) : (s.dropHandler i peer state).Capped :=
  hs.move hi (lighter_dropped state)

/-- A new request. -/
theorem ServerLoad.Accounted.concat (hs : s.Accounted)
    (hg : Balanced s.gauges peer .gone g state') :
    ServerLoad.Accounted ⟨g, s.requests ++ [⟨peer, state'⟩]⟩ := by
  refine ⟨fun other => ?_, ?_, ?_⟩
  · have hpir := hs.pir other
    have hbalanced := hg.pir other
    rw [total_concat]
    simp only [Request.by, RequestState.heldPir, ite_self, Nat.add_zero] at hbalanced ⊢
    rw [hbalanced, hpir]
  · have hbytes := hs.bytes
    have hbalanced : g.uploadBytes + state'.heldBytes = s.gauges.uploadBytes + 0 := hg.bytes
    show g.uploadBytes + total _ (s.requests ++ [⟨peer, state'⟩]) = _
    rw [total_concat]
    dsimp only [Request.heldBytes]
    omega
  · have hpermits := hs.permits
    have hbalanced : g.fhePermits + state'.permits = s.gauges.fhePermits + 0 := hg.permits
    unfold ServerLoad.computations at hpermits
    show g.fhePermits + total _ (s.requests ++ [⟨peer, state'⟩]) = _
    rw [total_concat]
    dsimp only [Request.permits]
    omega

end Moves

/-! ## Admissions -/

section Admissions

variable {s : ServerLoad caps Ip} {i : ℕ} {peer : Ip}

/-- A slot is taken only below the cap, and is one more. -/
theorem trySlot_ok {slots slots' : Slots Ip} {cap : ℕ} (h : trySlot slots peer cap = .ok slots') :
    slots peer < cap ∧ slots' = Function.update slots peer (slots peer + 1) := by
  unfold trySlot at h
  split_ifs at h with hfull
  cases h
  exact ⟨not_le.mp hfull, rfl⟩

/-- A PIR request begins only below the cap of its peer. -/
theorem beginPir_ok {g g' : Gauges Ip} (h : beginPir g peer = .ok g') :
    g.pirInflight peer < maxPirInflightPerIp ∧
      g' = { g with
        pirInflight := Function.update g.pirInflight peer (g.pirInflight peer + 1) } := by
  unfold beginPir at h
  cases hslot : trySlot g.pirInflight peer maxPirInflightPerIp with
  | error e =>
    rw [hslot] at h
    cases h
  | ok slots =>
    obtain ⟨hfree, rfl⟩ := trySlot_ok hslot
    rw [hslot] at h
    cases h
    exact ⟨hfree, rfl⟩

/-- A slot that is taken and dropped again leaves no trace. -/
theorem dropSlot_update (slots : Slots Ip) (peer : Ip) :
    dropSlot (Function.update slots peer (slots peer + 1)) peer = slots := by
  unfold dropSlot
  rw [Function.update_self, Function.update_idem, Nat.add_sub_cancel, Function.update_eq_self]

/-- A header that is accepted takes the declared bytes. -/
structure Reserves (caps : ResourceCaps) (g : Gauges Ip) (numKeys : ℕ) (u : KeyUpload caps)
    (g' : Gauges Ip) : Prop where
  room : numKeys * caps.maxDetectionKeyBytes ≤ g.uploadBytes
  bytes : u.reservation.bytes = numKeys * caps.maxDetectionKeyBytes
  uploadBytes : g'.uploadBytes = g.uploadBytes - numKeys * caps.maxDetectionKeyBytes
  pirInflight : g'.pirInflight = g.pirInflight
  fhePermits : g'.fhePermits = g.fhePermits

/-- The first message reserves what the caps allow. -/
theorem readHeader_ok {g g' : Gauges Ip} {chunk : Proto.DetectionKeyChunk} {allowed : Bool}
    {u : KeyUpload caps} (h : readHeader caps g peer chunk allowed = .ok (u, g')) :
    Reserves caps g chunk.numKeys u g' := by
  have hreserve : ∃ reservation, reserveUpload caps g peer chunk.numKeys = .ok (reservation, g') ∧
      u.reservation = reservation := by
    unfold readHeader at h
    by_cases hnone : chunk.numKeys = 0
    · rw [if_pos hnone] at h
      cases h
    by_cases hmany : 16 < chunk.numKeys
    · rw [if_neg hnone, if_pos hmany] at h
      cases h
    rw [if_neg hnone, if_neg hmany] at h
    cases hwindow : rejectOversizedWindow chunk.startHeight chunk.endHeight with
    | error e =>
      rw [hwindow] at h
      cases h
    | ok span =>
      rw [hwindow] at h
      cases allowed with
      | false => cases h
      | true =>
        cases hreserve : reserveUpload caps g peer chunk.numKeys with
        | error e =>
          rw [hreserve] at h
          cases h
        | ok r =>
          obtain ⟨reservation, g₁⟩ := r
          rw [hreserve] at h
          cases h
          exact ⟨reservation, rfl, rfl⟩
  obtain ⟨reservation, hreserve, rfl⟩ := hreserve
  unfold reserveUpload at hreserve
  cases hslot : trySlot g.uploadSlots peer caps.maxUploadsPerIp with
  | error e =>
    simp only [hslot] at hreserve
    split_ifs at hreserve
  | ok slots =>
    simp only [hslot] at hreserve
    split_ifs at hreserve with hbig hzero hroom
    obtain ⟨hreservation, rfl⟩ := Prod.mk.inj (Except.ok.inj hreserve)
    exact ⟨not_lt.mp hroom, by rw [← hreservation], rfl, rfl, rfl⟩

/-- A chunk that is accepted leaves the reservation. -/
theorem readChunk_ok {u u' : KeyUpload caps} {chunk : Proto.DetectionKeyChunk}
    (h : u.readChunk chunk = .ok u') : u'.reservation = u.reservation := by
  unfold KeyUpload.readChunk at h
  dsimp only at h
  split_ifs at h <;> cases h <;> rfl

/-- The end of an upload keeps its reservation and its keys. -/
theorem finish_ok {u : KeyUpload caps} {d : DetectionKeyUpload caps} (h : u.finish = .ok d) :
    d.reservation = u.reservation ∧ d.keys = u.keys := by
  unfold KeyUpload.finish at h
  split_ifs at h
  cases h
  exact ⟨rfl, rfl⟩

/-- What is used without a reservation is in computations of dropped handlers. -/
theorem ServerLoad.stray_pir (s : ServerLoad caps Ip) (peer : Ip) :
    stray (Request.by RequestState.heldPir peer) (Request.by RequestState.runsPir peer) s.requests =
      s.detachedPir peer := by
  unfold stray ServerLoad.detachedPir
  congr 1
  funext r
  unfold Request.by
  split_ifs
  · obtain ⟨_, state⟩ := r
    cases state with
    | detached work => cases work <;> rfl
    | _ => rfl
  · rfl

omit [DecidableEq Ip] in
/-- The bytes of computations without a handler are the detached ones. -/
theorem ServerLoad.stray_bytes (s : ServerLoad caps Ip) :
    stray Request.heldBytes Request.keyBytes s.requests = s.detachedBytes := by
  unfold stray ServerLoad.detachedBytes
  congr 1
  funext r
  obtain ⟨_, state⟩ := r
  cases state with
  | uploading u => exact Nat.sub_eq_zero_of_le (u.fits.trans u.reservation.covers)
  | digestWaiting u => exact Nat.sub_eq_zero_of_le (u.fits.trans u.reservation.covers)
  | digestRunning u => exact Nat.sub_eq_zero_of_le (u.fits.trans u.reservation.covers)
  | digestReady reservation => exact Nat.zero_sub _
  | detached work => cases work <;> rfl
  | _ => rfl

end Admissions

/-! ## Steps -/

/-- The gauges stay right, and nothing is admitted. -/
structure ServerLoad.Keeps (s s' : ServerLoad caps Ip) : Prop where
  accounted : s.Accounted → s'.Accounted
  capped : s.Capped → s'.Capped

section Steps

variable {s s' : ServerLoad caps Ip} {i : ℕ} {peer : Ip} {state state' : RequestState caps}
  {g : Gauges Ip} {e : LoadEvent Ip}

/-- A balanced move to a state that counts no more keeps both invariants. -/
theorem ServerLoad.keeps_move (hi : s.requests[i]? = some ⟨peer, state⟩)
    (hg : Balanced s.gauges peer state g state') (hlighter : state'.Lighter state) :
    s.Keeps (s.move i g peer state') :=
  ⟨fun hs => hs.move hi hg, fun hs => hs.move hi hlighter⟩

/-- Dropping a handler keeps both invariants. -/
theorem ServerLoad.keeps_dropHandler (hi : s.requests[i]? = some ⟨peer, state⟩) :
    s.Keeps (s.dropHandler i peer state) :=
  ⟨fun hs => hs.dropHandler hi, fun hs => hs.dropHandler hi⟩

/-- A chunk of an upload. -/
theorem ServerLoad.keeps_readChunk {u : KeyUpload caps}
    (hi : s.requests[i]? = some ⟨peer, .uploading u⟩) (chunk : Proto.DetectionKeyChunk) :
    s.Keeps (s.readChunk i peer u chunk) := by
  unfold ServerLoad.readChunk
  cases hread : u.readChunk chunk with
  | error e => exact ServerLoad.keeps_dropHandler hi
  | ok u' =>
    have hsame := readChunk_ok hread
    have hfits : u'.keys.sum + u'.currentKey ≤ u.reservation.bytes :=
      u'.fits.trans u.reservation.covers
    refine ServerLoad.keeps_move hi ⟨fun _ => rfl, ?_, rfl⟩ ⟨le_rfl, ?_⟩
    · simp only [RequestState.heldBytes, hsame]
    · simp only [RequestState.heldBytes, RequestState.keyBytes, hsame]
      exact max_le (le_max_left _ _) (hfits.trans (le_max_left _ _))

/-- The stream ends behind the last chunk. -/
theorem ServerLoad.keeps_finish {u : KeyUpload caps} {d : DetectionKeyUpload caps}
    (hi : s.requests[i]? = some ⟨peer, .uploading u⟩) (h : u.finish = .ok d) :
    s.Keeps (s.move i s.gauges peer (.digestWaiting d)) := by
  obtain ⟨hreservation, hkeys⟩ := finish_ok h
  refine ServerLoad.keeps_move hi ⟨fun _ => rfl, ?_, rfl⟩ ⟨le_rfl, ?_⟩
  · simp only [RequestState.heldBytes, hreservation]
  · simp only [RequestState.heldBytes, RequestState.keyBytes, hreservation, hkeys]
    exact max_le_max_left _ (Nat.le_add_right _ _)

/-- A worker permit. -/
theorem ServerLoad.keeps_permit (hi : s.requests[i]? = some ⟨peer, state⟩)
    (hfree : s.gauges.fhePermits ≠ 0) (hpermits : state'.permits = state.permits + 1)
    (hpir : state'.heldPir = state.heldPir) (hbytes : state'.heldBytes = state.heldBytes)
    (hlighter : state'.Lighter state) :
    s.Keeps
      (s.move i { s.gauges with fhePermits := s.gauges.fhePermits - 1 } peer state') := by
  refine ServerLoad.keeps_move hi ⟨fun other => ?_, ?_, ?_⟩ hlighter
  · rw [hpir]
  · rw [hbytes]
  · show s.gauges.fhePermits - 1 + _ = _
    omega

/-- A computation ends. -/
theorem ServerLoad.keeps_ended (hi : s.requests[i]? = some ⟨peer, state⟩)
    (hpermits : state'.permits + 1 = state.permits)
    (hpir : state'.heldPir = state.heldPir) (hbytes : state'.heldBytes = state.heldBytes)
    (hlighter : state'.Lighter state) :
    s.Keeps
      (s.move i { s.gauges with fhePermits := s.gauges.fhePermits + 1 } peer state') := by
  refine ServerLoad.keeps_move hi ⟨fun other => ?_, ?_, ?_⟩ hlighter
  · rw [hpir]
  · rw [hbytes]
  · show s.gauges.fhePermits + 1 + _ = _
    omega

/-- A request that is opened holds nothing. -/
theorem ServerLoad.keeps_opened (s : ServerLoad caps Ip) (peer : Ip) :
    s.Keeps ⟨s.gauges, s.requests ++ [⟨peer, .opened⟩]⟩ := by
  refine ⟨fun hs => hs.concat ⟨fun _ => rfl, rfl, rfl⟩, fun hs => ⟨fun other => ?_, ?_⟩⟩
  · rw [load_concat]
    simpa [Request.by] using hs.pir other
  · rw [load_concat]
    simpa [Request.heldBytes, Request.keyBytes] using hs.bytes

/-- A request for PIR that is admitted waits for a worker. -/
def ServerLoad.admitPir (s : ServerLoad caps Ip) (peer : Ip) : ServerLoad caps Ip where
  gauges := { s.gauges with
    pirInflight := Function.update s.gauges.pirInflight peer (s.gauges.pirInflight peer + 1) }
  requests := s.requests ++ [⟨peer, .pirWaiting⟩]

/-- A PIR request that begins is counted. -/
theorem ServerLoad.Accounted.admitPir (hs : s.Accounted) (peer : Ip) :
    (s.admitPir peer).Accounted := by
  refine hs.concat ⟨fun other => ?_, rfl, rfl⟩
  by_cases heq : peer = other
  · subst heq
    simp
  · simp [Function.update_of_ne (Ne.symm heq), heq]

/-- The slot of an address is free, also with the computations of its dropped handlers. -/
theorem ServerLoad.Capped.admitPir (hs : s.Capped) (hacc : s.Accounted)
    (hroom : s.gauges.pirInflight peer + s.detachedPir peer < maxPirInflightPerIp) :
    (s.admitPir peer).Capped := by
  refine ⟨fun other => ?_, ?_⟩
  · show load _ _ (s.requests ++ _) ≤ _
    rw [load_concat]
    by_cases heq : peer = other
    · subst heq
      rw [load_eq, s.stray_pir, ← hacc.pir]
      simpa [Request.by] using Nat.succ_le_of_lt hroom
    · simpa [Request.by, heq] using hs.pir other
  · show load _ _ (s.requests ++ _) ≤ _
    rw [load_concat]
    simpa [Request.heldBytes, Request.keyBytes] using hs.bytes

/-- An upload takes what its header declares. -/
theorem ServerLoad.Accounted.admitUpload {numKeys : ℕ} {u : KeyUpload caps} (hs : s.Accounted)
    (hi : s.requests[i]? = some ⟨peer, .opened⟩) (hg : Reserves caps s.gauges numKeys u g) :
    (s.move i g peer (.uploading u)).Accounted := by
  have hroom := hg.room
  have hbytes := hg.bytes
  have huploadBytes := hg.uploadBytes
  refine hs.move hi ⟨fun other => ?_, ?_, ?_⟩
  · rw [hg.pirInflight]
    rfl
  · simp only [RequestState.heldBytes]
    omega
  · rw [hg.fhePermits]
    rfl

/-- There is room for an upload, also beside the keys in computations of dropped handlers. -/
theorem ServerLoad.Capped.admitUpload {numKeys : ℕ} {u : KeyUpload caps} (hs : s.Capped)
    (hacc : s.Accounted) (hi : s.requests[i]? = some ⟨peer, .opened⟩)
    (hg : Reserves caps s.gauges numKeys u g)
    (hroom : numKeys * caps.maxDetectionKeyBytes + s.detachedBytes ≤ s.gauges.uploadBytes) :
    (s.move i g peer (.uploading u)).Capped := by
  refine ⟨fun other => ?_, ?_⟩
  · refine (load_set_le hi ?_).trans (hs.pir other)
    unfold Request.by
    split_ifs <;> exact le_rfl
  · have hload : load Request.heldBytes Request.keyBytes (s.requests.set i ⟨peer, .uploading u⟩) ≤
        load Request.heldBytes Request.keyBytes s.requests + u.reservation.bytes :=
      load_set_reserve hi (u.fits.trans u.reservation.covers)
    have hsplit := load_eq Request.heldBytes Request.keyBytes s.requests
    rw [s.stray_bytes] at hsplit
    have hbudget := hacc.bytes
    have hbytes := hg.bytes
    show load _ _ (s.requests.set i _) ≤ _
    omega

omit [DecidableEq Ip] in
/-- The request that moved is in its new state. -/
theorem ServerLoad.getElem?_move (hi : s.requests[i]? = some ⟨peer, state⟩) :
    (s.move i g peer state').requests[i]? = some ⟨peer, state'⟩ :=
  List.getElem?_set_self (List.getElem?_eq_some_iff.mp hi).1

/-- The request that an event is about, but a new one. -/
def LoadEvent.request? : LoadEvent Ip → Option ℕ
  | .fetchPirBatch _ _ | .getUnifOmrDigest _ => none
  | .chunk i _ _ | .endOfStream i | .permit i _ | .finish i | .complete i | .cancel i => some i

/-- An event of a request finds the request. -/
theorem ServerLoad.exists_request (he : e.request? = some i) (h : s.step e = some s') :
    ∃ peer state, s.requests[i]? = some ⟨peer, state⟩ := by
  cases hi : s.requests[i]? with
  | some r => exact ⟨r.peer, r.state, rfl⟩
  | none =>
    cases e with
    | fetchPirBatch peer valid => cases he
    | getUnifOmrDigest peer => cases he
    | _ =>
      cases he
      simp [ServerLoad.step, hi] at h

/-- An address asks for PIR. -/
theorem ServerLoad.step_fetchPirBatch {valid : Bool}
    (h : s.step (.fetchPirBatch peer valid) = some s') :
    s.Keeps s' ∨ valid = true ∧ s.gauges.pirInflight peer < maxPirInflightPerIp ∧
      s' = s.admitPir peer := by
  simp only [ServerLoad.step] at h
  cases hbegin : beginPir s.gauges peer with
  | error e =>
    rw [hbegin] at h
    cases h
    exact .inl ⟨id, id⟩
  | ok g =>
    obtain ⟨hfree, rfl⟩ := beginPir_ok hbegin
    rw [hbegin] at h
    cases valid with
    | true =>
      cases h
      exact .inr ⟨rfl, hfree, rfl⟩
    | false =>
      simp only [dropSlot_update] at h
      cases h
      exact .inl ⟨id, id⟩

/-- A chunk that is a header may be accepted. -/
theorem ServerLoad.step_chunk {chunk : Proto.DetectionKeyChunk} {allowed : Bool}
    (h : s.step (.chunk i chunk allowed) = some s') :
    s.Keeps s' ∨ ∃ peer u g, s.requests[i]? = some ⟨peer, .opened⟩ ∧
      readHeader caps s.gauges peer chunk allowed = .ok (u, g) ∧
        s' = (s.move i g peer (.uploading u)).readChunk i peer u chunk := by
  obtain ⟨peer, state, hi⟩ := ServerLoad.exists_request rfl h
  simp only [ServerLoad.step, hi] at h
  cases state with
  | opened =>
    cases hread : readHeader caps s.gauges peer chunk allowed with
    | error e =>
      simp only [hread] at h
      cases h
      exact .inl (ServerLoad.keeps_dropHandler hi)
    | ok r =>
      obtain ⟨u, g⟩ := r
      simp only [hread] at h
      cases h
      exact .inr ⟨peer, u, g, hi, hread, rfl⟩
  | uploading u =>
    cases h
    exact .inl (ServerLoad.keeps_readChunk hi chunk)
  | _ => cases h

/-- The end of a stream keeps both invariants. -/
theorem ServerLoad.step_endOfStream (h : s.step (.endOfStream i) = some s') : s.Keeps s' := by
  obtain ⟨peer, state, hi⟩ := ServerLoad.exists_request rfl h
  simp only [ServerLoad.step, hi] at h
  cases state with
  | opened =>
    cases h
    exact ServerLoad.keeps_dropHandler hi
  | uploading u =>
    cases hfinish : u.finish with
    | error e =>
      simp only [hfinish] at h
      cases h
      exact ServerLoad.keeps_dropHandler hi
    | ok d =>
      simp only [hfinish] at h
      cases h
      exact ServerLoad.keeps_finish hi hfinish
  | _ => cases h

/-- Taking the permit keeps both invariants. -/
theorem ServerLoad.step_permit {prepared : Bool} (h : s.step (.permit i prepared) = some s') :
    s.Keeps s' := by
  obtain ⟨peer, state, hi⟩ := ServerLoad.exists_request rfl h
  simp only [ServerLoad.step, hi] at h
  by_cases hnone : s.gauges.fhePermits = 0
  · rw [if_pos hnone] at h
    cases h
  rw [if_neg hnone] at h
  cases state with
  | pirWaiting =>
    cases h
    exact ServerLoad.keeps_permit hi hnone rfl rfl rfl ⟨le_rfl, le_rfl⟩
  | digestWaiting u =>
    cases prepared with
    | true =>
      cases h
      exact ServerLoad.keeps_permit hi hnone rfl rfl rfl ⟨le_rfl, le_rfl⟩
    | false =>
      cases h
      exact ServerLoad.keeps_dropHandler hi
  | _ => cases h

/-- Ending the computation keeps both invariants. -/
theorem ServerLoad.step_finish (h : s.step (.finish i) = some s') : s.Keeps s' := by
  obtain ⟨peer, state, hi⟩ := ServerLoad.exists_request rfl h
  simp only [ServerLoad.step, hi] at h
  cases state with
  | pirRunning =>
    cases h
    exact ServerLoad.keeps_ended hi rfl rfl rfl ⟨le_rfl, le_rfl⟩
  | digestRunning u =>
    cases h
    exact ServerLoad.keeps_ended hi rfl rfl rfl ⟨le_rfl, by simp⟩
  | detached work =>
    cases h
    exact ServerLoad.keeps_ended hi rfl rfl rfl ⟨by simp, by simp⟩
  | _ => cases h

/-- Completing the request keeps both invariants. -/
theorem ServerLoad.step_complete (h : s.step (.complete i) = some s') : s.Keeps s' := by
  obtain ⟨peer, state, hi⟩ := ServerLoad.exists_request rfl h
  simp only [ServerLoad.step, hi] at h
  cases state with
  | pirReady =>
    cases h
    exact ServerLoad.keeps_dropHandler hi
  | digestReady reservation =>
    cases h
    exact ServerLoad.keeps_dropHandler hi
  | _ => cases h

/-- A step admits a request, or keeps what is reserved and used. -/
theorem ServerLoad.step_cases (h : s.step e = some s') :
    s.Keeps s' ∨
    (∃ peer, e = .fetchPirBatch peer true ∧ s.gauges.pirInflight peer < maxPirInflightPerIp ∧
      s' = s.admitPir peer) ∨
    ∃ i chunk allowed peer u g, e = .chunk i chunk allowed ∧
      s.requests[i]? = some ⟨peer, .opened⟩ ∧
      readHeader caps s.gauges peer chunk allowed = .ok (u, g) ∧
        s' = (s.move i g peer (.uploading u)).readChunk i peer u chunk := by
  cases e with
  | fetchPirBatch peer valid =>
    obtain hkeeps | ⟨rfl, hfree, hs'⟩ := ServerLoad.step_fetchPirBatch h
    · exact .inl hkeeps
    · exact .inr (.inl ⟨peer, rfl, hfree, hs'⟩)
  | getUnifOmrDigest peer =>
    cases h
    exact .inl (s.keeps_opened peer)
  | chunk i chunk allowed =>
    obtain hkeeps | ⟨peer, u, g, hi, hread, hs'⟩ := ServerLoad.step_chunk h
    · exact .inl hkeeps
    · exact .inr (.inr ⟨i, chunk, allowed, peer, u, g, rfl, hi, hread, hs'⟩)
  | endOfStream i => exact .inl (ServerLoad.step_endOfStream h)
  | permit i prepared => exact .inl (ServerLoad.step_permit h)
  | finish i => exact .inl (ServerLoad.step_finish h)
  | complete i => exact .inl (ServerLoad.step_complete h)
  | cancel i =>
    obtain ⟨⟨peer, state⟩, hi, rfl⟩ := Option.map_eq_some_iff.mp h
    exact .inl (ServerLoad.keeps_dropHandler hi)

/-- Every step keeps the gauges equal to what the requests hold. -/
theorem ServerLoad.Accounted.step (hs : s.Accounted) (h : s.step e = some s') :
    s'.Accounted := by
  obtain hkeeps | ⟨peer, -, -, rfl⟩ | ⟨i, chunk, _, peer, u, g, -, hi, hread, rfl⟩ :=
    ServerLoad.step_cases h
  · exact hkeeps.accounted hs
  · exact hs.admitPir peer
  · refine (ServerLoad.keeps_readChunk ?_ chunk).accounted (hs.admitUpload hi (readHeader_ok hread))
    exact ServerLoad.getElem?_move hi

/-- The caps are kept by admissions that count the computations of dropped handlers. -/
theorem ServerLoad.Capped.step (hs : s.Capped) (hacc : s.Accounted) (hcounts : s.CountsDetached e)
    (h : s.step e = some s') : s'.Capped := by
  obtain hkeeps | ⟨peer, rfl, hfree, rfl⟩ | ⟨i, chunk, _, peer, u, g, rfl, hi, hread, rfl⟩ :=
    ServerLoad.step_cases h
  · exact hkeeps.capped hs
  · exact hs.admitPir hacc (hcounts hfree)
  · refine (ServerLoad.keeps_readChunk ?_ chunk).capped
      (hs.admitUpload hacc hi (readHeader_ok hread) (hcounts peer (u, g) hi hread))
    exact ServerLoad.getElem?_move hi

end Steps

/-! ## Runs -/

/-- The states of a server, where every step meets `Meets`. -/
inductive ServerLoad.Reached (Meets : ServerLoad caps Ip → LoadEvent Ip → Prop) :
    ServerLoad caps Ip → Prop
  | start : Reached Meets (.start caps Ip)
  | step {s s' : ServerLoad caps Ip} {e : LoadEvent Ip} :
    Reached Meets s → Meets s e → s.step e = some s' → Reached Meets s'

section Runs

variable {Meets : ServerLoad caps Ip → LoadEvent Ip → Prop} {s s' : ServerLoad caps Ip}

/-- At the start nothing is held. -/
theorem ServerLoad.accounted_start : (ServerLoad.start caps Ip).Accounted :=
  ⟨fun _ => rfl, rfl, rfl⟩

/-- At the start no cap is passed. -/
theorem ServerLoad.capped_start : (ServerLoad.start caps Ip).Capped :=
  ⟨fun _ => Nat.zero_le _, Nat.zero_le _⟩

/-- In every state reached the gauges are what the requests hold. -/
theorem ServerLoad.Reached.accounted (h : s.Reached Meets) : s.Accounted := by
  induction h with
  | start => exact ServerLoad.accounted_start
  | step _ _ hstep ih => exact ih.step hstep

/-- In every state reached without forgotten bytes the caps hold. -/
theorem ServerLoad.Reached.capped (h : s.Reached ServerLoad.CountsDetached) : s.Capped := by
  induction h with
  | start => exact ServerLoad.capped_start
  | step hs hcounts hstep ih => exact ih.step hs.accounted hcounts hstep

/-- The worker permits last as long as the computations, whichever handlers are dropped. -/
theorem ServerLoad.Reached.computations_le (h : s.Reached Meets) :
    s.computations ≤ defaultFhePermits :=
  h.accounted.permits ▸ Nat.le_add_left _ _

/-- With the computations of dropped handlers counted, no address has more PIR computations than
its slots, and the keys stay within the upload budget. -/
theorem caps_survive_cancellation (h : s.Reached ServerLoad.CountsDetached) :
    (∀ peer, s.pirComputations peer ≤ maxPirInflightPerIp) ∧ s.keyBytes ≤ caps.uploadBudget :=
  ⟨fun peer => (total_used_le_load _ _ _).trans (h.capped.pir peer),
    (total_used_le_load _ _ _).trans h.capped.bytes⟩

end Runs

/-! ## A computation that outlives its handler -/

section Outlived

/-- A key and the upload budget of 1 MiB each. -/
def oneKeyCaps : ResourceCaps := applyResourceCaps 1048576 1 2

/-- An address asks again after the computation of its dropped handler has ended. -/
theorem caps_survive_cancellation_ended : ∃ s : ServerLoad oneKeyCaps ℕ,
    s.Reached ServerLoad.CountsDetached ∧ s.pirComputations 0 = 1 ∧
      (∀ peer, s.pirComputations peer ≤ maxPirInflightPerIp) ∧
        s.keyBytes ≤ oneKeyCaps.uploadBudget := by
  have hadmitted : (ServerLoad.start oneKeyCaps ℕ).CountsDetached (.fetchPirBatch 0 true) :=
    fun _ => by decide
  have hcancelled := (((ServerLoad.Reached.start.step hadmitted rfl).step (e := .permit 0 true)
    trivial rfl).step (e := .cancel 0) trivial rfl).step (e := .finish 0) trivial rfl
  have hagain := (hcancelled.step (e := .fetchPirBatch 0 true) (fun _ => by decide) rfl).step
    (e := .permit 1 true) trivial rfl
  exact ⟨_, hagain, by decide, caps_survive_cancellation hagain⟩

/-- An address cancels its request while the worker computes, and asks again. -/
def pirTwice : List (LoadEvent ℕ) :=
  [.fetchPirBatch 0 true, .permit 0 true, .cancel 0, .fetchPirBatch 0 true, .permit 1 true]

/-- The same with a key that is the whole budget. -/
def uploadTwice : List (LoadEvent ℕ) :=
  [.getUnifOmrDigest 0, .chunk 0 ⟨1, 1, 1, 1048576, true⟩ true, .endOfStream 0, .permit 0 true,
    .cancel 0, .getUnifOmrDigest 0, .chunk 1 ⟨1, 1, 1, 1048576, true⟩ true]

/-- The state behind a list of events, if each is possible. -/
def ServerLoad.run (s : ServerLoad caps Ip) : List (LoadEvent Ip) → Option (ServerLoad caps Ip)
  | [] => some s
  | e :: es => (s.step e).bind fun s' => s'.run es

/-- A run after a run. -/
theorem ServerLoad.run_append {s s₁ : ServerLoad caps Ip} {es : List (LoadEvent Ip)}
    (h : s.run es = some s₁) (es' : List (LoadEvent Ip)) : s.run (es ++ es') = s₁.run es' := by
  induction es generalizing s with
  | nil =>
    cases h
    rfl
  | cons e es ih =>
    obtain ⟨s₂, hstep, hrest⟩ := Option.bind_eq_some_iff.mp h
    simp only [List.cons_append, ServerLoad.run, hstep, Option.bind_some]
    exact ih hrest

/-- A run goes from a reached state to a reached state. -/
theorem ServerLoad.Reached.run {s s' : ServerLoad caps Ip} {es : List (LoadEvent Ip)}
    (hs : s.Reached fun _ _ => True) (h : s.run es = some s') : s'.Reached fun _ _ => True := by
  induction es generalizing s with
  | nil =>
    cases h
    exact hs
  | cons e es ih =>
    obtain ⟨s₁, hstep, hrest⟩ := Option.bind_eq_some_iff.mp h
    exact ih (hs.step trivial hstep) hrest

/-- A state behind a list of events that passes a test. -/
theorem exists_reached {test : ServerLoad caps Ip → Bool} {es : List (LoadEvent Ip)}
    (h : ((ServerLoad.start caps Ip).run es).any test = true) :
    ∃ s : ServerLoad caps Ip, s.Reached (fun _ _ => True) ∧ test s = true := by
  obtain ⟨s, hrun, htest⟩ := (Option.any_eq_true _ _).mp h
  exact ⟨s, ServerLoad.Reached.start.run hrun, htest⟩

/-- Twice the computations of an address, and twice the budget. -/
theorem cancelled_requests_exceed_caps :
    (∃ s : ServerLoad oneKeyCaps ℕ, s.Reached (fun _ _ => True) ∧
      maxPirInflightPerIp < s.pirComputations 0) ∧
    ∃ s : ServerLoad oneKeyCaps ℕ, s.Reached (fun _ _ => True) ∧
      oneKeyCaps.uploadBudget < s.keyBytes := by
  have hpir : ((ServerLoad.start oneKeyCaps ℕ).run pirTwice).any
      (fun s => decide (maxPirInflightPerIp < s.pirComputations 0)) = true := by decide +kernel
  have hkeys : ((ServerLoad.start oneKeyCaps ℕ).run uploadTwice).any
      (fun s => decide (oneKeyCaps.uploadBudget < s.keyBytes)) = true := by decide +kernel
  obtain ⟨s, hs, hover⟩ := exists_reached hpir
  obtain ⟨t, ht, hfull⟩ := exists_reached hkeys
  exact ⟨⟨s, hs, of_decide_eq_true hover⟩, t, ht, of_decide_eq_true hfull⟩

end Outlived

end LightWalletd
