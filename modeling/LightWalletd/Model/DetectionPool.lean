import LightWalletd.Computation.OrderedMap
import LightWalletd.Model.PaddedRange
import LightWalletd.Model.Types

/-!
# The pool of detection keys

Detection keys that a wallet has registered, under random handles and until they expire. The number
of entries and the bytes of their keys are bounded. What the clocks read and what the random source
returns are arguments; the time of the last sweep is a number of nanoseconds.
-/

set_option autoImplicit false

namespace LightWalletd

open Stateful

/-- SOURCE: detection_pool.rs:33-35 -/
def sweepInterval : ℕ := 60 * 1000000000

/-- SOURCE: detection_pool.rs:45-53 -/
structure PooledDetectionKey where
  keys : List Bytes
  networkByte : UInt8
  expiresUnix : ℕ
  byteLength : ℕ
  deriving DecidableEq

/-- SOURCE: detection_pool.rs:54-60 -/
inductive PoolReject
  | full
  | tooLarge
  | empty
  deriving DecidableEq

/-- SOURCE: detection_pool.rs:62-70 -/
structure DetectionKeyPool where
  entries : OrderedMap Bytes32 PooledDetectionKey
  maxHandles : ℕ
  maxTotalBytes : ℕ
  totalBytes : ℕ
  lastSweep : ℕ

/-- A `u64` sum, which wraps in a release build. SOURCE: detection_pool.rs:72-74 -/
def retainedBytes (key : PooledDetectionKey) : ℕ := (key.keys.map List.length).sum % (u64Max + 1)

/-- SOURCE: detection_pool.rs:160 -/
def PooledDetectionKey.live (key : PooledDetectionKey) (nowUnix : ℕ) : Bool :=
  decide (nowUnix < key.expiresUnix)

/-- The first of some random handles that is unused, else the last one.
SOURCE: detection_pool.rs:124-132 -/
def chooseHandle (entries : OrderedMap Bytes32 PooledDetectionKey) :
    List Bytes32 → Bytes32 → Bytes32
  | [], handle => handle
  | drawn :: draws, _ =>
    if (entries.get drawn).isNone then drawn else chooseHandle entries draws drawn

namespace DetectionKeyPool

/-- SOURCE: detection_pool.rs:86-94 -/
def withLimits (maxHandles maxTotalBytes start : ℕ) : DetectionKeyPool where
  entries := .empty
  maxHandles := max maxHandles 1
  maxTotalBytes := maxTotalBytes
  totalBytes := 0
  lastSweep := start

/-- SOURCE: detection_pool.rs:22, detection_pool.rs:27, detection_pool.rs:77-79 -/
def new (start : ℕ) : DetectionKeyPool := withLimits 4096 (8 * 2 ^ 30) start

/-- SOURCE: detection_pool.rs:157-168 -/
def sweepExpired (pool : DetectionKeyPool) (nowUnix instant : ℕ) : DetectionKeyPool :=
  let freed := (pool.entries.retain fun _ entry => !entry.live nowUnix).rows.foldl
    (fun freed row => saturatingAdd64 freed (retainedBytes row.2)) 0
  { pool with
    entries := pool.entries.retain fun _ entry => entry.live nowUnix
    totalBytes := pool.totalBytes - freed
    lastSweep := instant }

/-- SOURCE: detection_pool.rs:105-138 -/
def insert (pool : DetectionKeyPool) (key : PooledDetectionKey) (maxKeyBytes nowUnix instant : ℕ)
    (draws : ℕ → Bytes32) : Except PoolReject Bytes32 × DetectionKeyPool :=
  let pool := pool.sweepExpired nowUnix instant
  if key.keys.isEmpty ∨ key.keys.any (fun k => k.isEmpty) then (.error .empty, pool)
  else if maxKeyBytes < key.byteLength ∨
      key.keys.any (fun k => decide (maxKeyBytes < k.length)) then
    (.error .tooLarge, pool)
  else
    let bytes := retainedBytes key
    if pool.maxHandles ≤ pool.entries.rows.length ∨
        pool.maxTotalBytes < saturatingAdd64 pool.totalBytes bytes then (.error .full, pool)
    else
      let handle := chooseHandle pool.entries ((List.range 8).map draws) (Bytes32.fill 0)
      let totalBytes := match pool.entries.get handle with
        | some old => pool.totalBytes - retainedBytes old
        | none => pool.totalBytes
      (.ok handle, { pool with
        entries := pool.entries.insert handle key
        totalBytes := saturatingAdd64 totalBytes bytes })

/-- The clock is read for the interval, and again for the sweep.
SOURCE: detection_pool.rs:140-155 -/
def lookup (pool : DetectionKeyPool) (handle : Bytes32) (nowUnix instant sweepInstant : ℕ) :
    Option PooledDetectionKey × DetectionKeyPool :=
  let pool := if sweepInterval ≤ instant - pool.lastSweep then
    pool.sweepExpired nowUnix sweepInstant else pool
  match pool.entries.get handle with
  | some entry =>
    if entry.live nowUnix then (some entry, pool)
    else (none, { pool with
      entries := pool.entries.remove handle
      totalBytes := pool.totalBytes - retainedBytes entry })
  | none => (none, pool)

/-! ## Runs -/

/-- A call, with what it reads from the clocks and draws. -/
inductive Call
  | insert (key : PooledDetectionKey) (maxKeyBytes nowUnix instant : ℕ) (draws : ℕ → Bytes32)
  | lookup (handle : Bytes32) (nowUnix instant sweepInstant : ℕ)

/-- What a call returns. -/
inductive Answer
  | inserted (result : Except PoolReject Bytes32)
  | found (key : Option PooledDetectionKey)

/-- What a call does to the pool. -/
def apply (pool : DetectionKeyPool) : Call → Answer × DetectionKeyPool
  | .insert key maxKeyBytes nowUnix instant draws =>
    let (result, pool) := pool.insert key maxKeyBytes nowUnix instant draws
    (.inserted result, pool)
  | .lookup handle nowUnix instant sweepInstant =>
    let (key, pool) := pool.lookup handle nowUnix instant sweepInstant
    (.found key, pool)

/-- The pool after some calls. -/
def run (pool : DetectionKeyPool) (calls : List Call) : DetectionKeyPool :=
  calls.foldl (fun pool call => (pool.apply call).2) pool

/-- A call together with the pool that it finds and what it returns. -/
structure Step where
  before : DetectionKeyPool
  call : Call
  answer : Answer

/-- The steps of some calls. -/
def steps : DetectionKeyPool → List Call → List Step
  | _, [] => []
  | pool, call :: calls => ⟨pool, call, (pool.apply call).1⟩ :: (pool.apply call).2.steps calls

end DetectionKeyPool

end LightWalletd
