import LightWalletd.Computation.RecencyTable
import LightWalletd.Model.Digest
import LightWalletd.Model.DirectoryHandlers
import LightWalletd.Model.PeerAddress
import LightWalletd.Model.SendTransaction

/-!
# Who sent a transaction

The server remembers for a day from which address a transaction came, and a clue that is registered
for it afterwards must come from the same address. The table is behind a mutex, which is not
poisoned; a time is a number of nanoseconds of the monotonic clock.
-/

set_option autoImplicit false

namespace LightWalletd

open Stateful RecencyTable

/-! ## The table -/

/-- SOURCE: server.rs:154 -/
def sendPeerBindTtl : ℕ := 86400 * 10 ^ 9

/-- The table: who sent a transaction, and when. -/
abbrev SendPeers : Type := Table Bytes32 IpAddr

/-- SOURCE: server.rs:1126-1142 -/
def rememberSendPeer (listing : Listing (Bytes32 × IpAddr × ℕ)) (maxSendPeerEntries now : ℕ)
    (txHash : Bytes32) (peer : IpAddr) (map : SendPeers) : SendPeers :=
  remember listing sendPeerBindTtl maxSendPeerEntries now txHash peer map

/-- SOURCE: server.rs:1144-1155 -/
def sendPeerMatches (now : ℕ) (txHash : Bytes32) (peer : IpAddr) (map : SendPeers) :
    Bool × SendPeers :=
  let map := live sendPeerBindTtl now map
  (match map.get txHash with
    | some (bound, _) => decide (bound = peer)
    | none => false, map)

/-- What a server does with the table, the last operation first. -/
inductive PeerOp
  | remember (txHash : Bytes32) (peer : IpAddr) (now : ℕ)
  | ask (txHash : Bytes32) (peer : IpAddr) (now : ℕ)

namespace PeerOp

/-- When an operation takes place. -/
def now : PeerOp → ℕ
  | remember _ _ now => now
  | ask _ _ now => now

/-- The table after some operations. -/
def after (listing : Listing (Bytes32 × IpAddr × ℕ)) (maxSendPeerEntries : ℕ) :
    List PeerOp → SendPeers
  | [] => .empty
  | remember txHash peer now :: ops =>
    rememberSendPeer listing maxSendPeerEntries now txHash peer
      (after listing maxSendPeerEntries ops)
  | ask txHash peer now :: ops =>
    (sendPeerMatches now txHash peer (after listing maxSendPeerEntries ops)).2

/-- Who was last remembered to have sent a transaction, and when. -/
def lastSender (txHash : Bytes32) : List PeerOp → Option (IpAddr × ℕ)
  | [] => none
  | remember h peer now :: ops => if h = txHash then some (peer, now) else lastSender txHash ops
  | ask _ _ _ :: ops => lastSender txHash ops

end PeerOp

/-! ## Registering a clue -/

/-- A registration of a clue for a transaction that was sent before. -/
structure Proto.OmrClueRegistration where
  txHash : Bytes
  omrClue : Bytes
  omrClueOutputIndex : ℕ

/-- The transaction that a registration is for, if its clue is valid.
SOURCE: server.rs:2365-2381 -/
def checkRegistration (blake3 : Bytes → Bytes32) (req : Proto.OmrClueRegistration) :
    Except Status Bytes32 :=
  if h : req.txHash.length = 32 then
    if req.omrClue.isEmpty then .error ⟨.invalidArgument, "omr_clue cannot be empty"⟩
    else match validateUnifomrClue blake3 req.omrClue with
      | .error e => .error ⟨.invalidArgument, "omr_clue rejected: " ++ e⟩
      | .ok () => .ok ⟨req.txHash, h⟩
  else .error ⟨.invalidArgument, "tx_hash must be 32 bytes, got " ++ toString req.txHash.length⟩

/-- Store a clue unless its output has one.
SOURCE: server.rs:2393-2412 -/
def storeRegisteredClue (now : ℕ) (hash : Bytes32) (req : Proto.OmrClueRegistration) :
    Handler Unit := do
  match ← (omrClueIndexTaken now hash req.omrClueOutputIndex).attempt.mapError cacheStatus with
  | .ok true => pure ()
  | _ => (storeOmrClueHint now hash req.omrClue (some req.omrClueOutputIndex)).mapError fun e =>
    ⟨.internal, "Failed to store OMR clue: " ++ e.display⟩

/-- The handler, as far as the cache goes; `bound` is the answer of `sendPeerMatches`, and `now` the
clock. `SendServer.registerOmrClue` adds the table of senders. SOURCE: server.rs:2356-2413 -/
def registerOmrClue (blake3 : Bytes → Bytes32) (allowed : Bool) (bound : Bytes32 → Bool) (now : ℕ)
    (req : Proto.OmrClueRegistration) : Handler Unit := do
  liftStatus (checkClueRateLimit allowed)
  let hash ← liftStatus (checkRegistration blake3 req)
  if bound hash then storeRegisteredClue now hash req
  else Prog.fail ⟨.failedPrecondition,
    "RegisterOmrClue requires a prior SendTransaction from this peer; " ++
      "attach omr_clue on SendTransaction instead"⟩

/-! ## Both requests over the table -/

/-- The transaction whose sender a registration asks for, if it gets that far.
SOURCE: server.rs:2361-2387 -/
def askedTx (blake3 : Bytes → Bytes32) (allowed : Bool) (req : Proto.OmrClueRegistration) :
    Option Bytes32 :=
  match checkClueRateLimit allowed, checkRegistration blake3 req with
  | .ok (), .ok hash => some hash
  | _, _ => none

/-- What the two requests work on. -/
structure SendServer where
  cache : Cache
  sendPeers : SendPeers

namespace SendServer

/-- `SendTransaction` from a peer; `instant` is the monotonic clock when the sender is remembered.
SOURCE: server.rs:1870-2059 -/
def sendTransaction (env : SendEnv) (listing : Listing (Bytes32 × IpAddr × ℕ))
    (maxSendPeerEntries : ℕ) (peer : IpAddr) (instant : ℕ) (broadcast : Broadcast)
    (now later : ℕ) (req : Proto.RawTransaction) (s : SendServer) :
    Except Status Proto.SendResponse × SendServer :=
  let (reply, cache) := (LightWalletd.sendTransaction env broadcast now later req).run s.cache
  (reply, ⟨cache, match acceptedTx env broadcast req with
    | some hash => rememberSendPeer listing maxSendPeerEntries instant hash peer s.sendPeers
    | none => s.sendPeers⟩)

/-- `RegisterOmrClue` from a peer; `instant` is the monotonic clock when the table is asked.
SOURCE: server.rs:2356-2413 -/
def registerOmrClue (env : SendEnv) (peer : IpAddr) (instant : ℕ) (allowed : Bool) (now : ℕ)
    (req : Proto.OmrClueRegistration) (s : SendServer) : Except Status Unit × SendServer :=
  let bound hash := (sendPeerMatches instant hash peer s.sendPeers).1
  let (reply, cache) :=
    (LightWalletd.registerOmrClue env.blake3 allowed bound now req).run s.cache
  (reply, ⟨cache, match askedTx env.blake3 allowed req with
    | some hash => (sendPeerMatches instant hash peer s.sendPeers).2
    | none => s.sendPeers⟩)

end SendServer

/-- A call of one of the two, with the address it comes from and the monotonic clock. -/
inductive SendCall
  | send (peer : IpAddr) (instant : ℕ) (broadcast : Broadcast) (now later : ℕ)
      (req : Proto.RawTransaction)
  | register (peer : IpAddr) (instant : ℕ) (allowed : Bool) (now : ℕ)
      (req : Proto.OmrClueRegistration)

namespace SendCall

/-- The server after one more call. -/
def apply (env : SendEnv) (listing : Listing (Bytes32 × IpAddr × ℕ)) (maxSendPeerEntries : ℕ)
    (s : SendServer) : SendCall → SendServer
  | send peer instant broadcast now later req =>
    (s.sendTransaction env listing maxSendPeerEntries peer instant broadcast now later req).2
  | register peer instant allowed now req =>
    (s.registerOmrClue env peer instant allowed now req).2

/-- The server after some calls, the last call first. No sender is known when it starts. -/
def after (env : SendEnv) (listing : Listing (Bytes32 × IpAddr × ℕ)) (maxSendPeerEntries : ℕ)
    (cache : Cache) : List SendCall → SendServer
  | [] => ⟨cache, .empty⟩
  | call :: calls =>
    call.apply env listing maxSendPeerEntries (after env listing maxSendPeerEntries cache calls)

end SendCall

end LightWalletd
