import LightWalletd.Model.BlockProcessor
import LightWalletd.Model.Cache

/-!
# The chain poller

One poll asks the node for its tip, compares it with the cached one, and fetches a batch
of blocks, rewinds to a common ancestor, or waits. The answers of the node to the calls
of one poll are independent of each other: `Node` has one answer for each place a call
is made from. Telling subscribers about the tip and flushing to disk are left out, since
neither changes the cache.
-/

set_option autoImplicit false

namespace LightWalletd

open Stateful

/-- The answers to the calls of one poll: the tip, with the outcome of parsing its hash,
and the blocks asked for at the cached tip, while fetching and while walking back. -/
structure Node where
  lastConfirmedBlock : Except LightWalletError (ℕ × Except String Bytes32)
  atCachedTip : ℕ → Except LightWalletError BlockInfo
  atFetch : ℕ → Except LightWalletError BlockInfo
  atWalk : ℕ → Except LightWalletError BlockInfo

/-- What a poll depends on beside the cache and the node. -/
structure Poller where
  darkfi : Darkfi
  batchSize : ℕ
  /-- The clock when the block of a height is inserted. -/
  now : ℕ → ℕ

/-- SOURCE: chain_poller.rs:63-68 -/
inductive TipAction
  | idle
  | fetch (start last : ℕ)
  | holdForBackendCatchup
  | reorgFrom (height : ℕ)
  deriving DecidableEq

/-- SOURCE: chain_poller.rs:76-127 -/
def classifyTips (cached : Option (ℕ × Bytes32)) (remoteHeight : ℕ) (remoteHash : Bytes32)
    (cachedHashAtRemoteHeight remoteHashAtCachedTip : Option Bytes32) : TipAction :=
  match cached with
  | none => .fetch 0 remoteHeight
  | some (cachedHeight, cachedHash) =>
    if remoteHeight < cachedHeight then
      match remoteHashAtCachedTip with
      | some h => if h = cachedHash then .idle else .reorgFrom cachedHeight
      | none =>
        if cachedHashAtRemoteHeight = some remoteHash then .holdForBackendCatchup
        else .reorgFrom (min remoteHeight cachedHeight)
    else if cachedHeight = remoteHeight then
      if cachedHash = remoteHash then .idle else .reorgFrom cachedHeight
    else
      match remoteHashAtCachedTip with
      | some h =>
        if h ≠ cachedHash then .reorgFrom cachedHeight
        else .fetch (saturatingAdd cachedHeight 1) remoteHeight
      | none => .fetch (saturatingAdd cachedHeight 1) remoteHeight

/-- SOURCE: chain_poller.rs:347 -/
def maxWalk : ℕ := 10000

/-- Whether cache and node agree at `h`. A lost connection ends the poll; any other
error counts as no agreement.
SOURCE: chain_poller.rs:352-368 -/
def agreesAt (node : Node) (h : ℕ) : CacheM Bool := do
  match ← getBlockHash h with
  | none => pure false
  | some cachedHash =>
    match node.atWalk h with
    | .ok block => pure (decide (block.header.hash = cachedHash))
    | .error e => if e.isConnection then Prog.fail e else pure false

/-- The walk from `h` after `walked` steps.
SOURCE: chain_poller.rs:351-381 -/
def walkBack (node : Node) : ℕ → ℕ → CacheM ℕ
  | 0, _ => do
    let _ ← agreesAt node 0
    rewindToHeight 0
    pure 0
  | h + 1, walked => do
    if ← agreesAt node (h + 1) then do
      rewindToHeight (h + 1)
      pure 0
    else if maxWalk ≤ walked then do
      rewindToHeight (h + 1)
      pure 0
    else walkBack node h (walked + 1)

/-- SOURCE: chain_poller.rs:346-382 -/
def rewindToCommonAncestor (node : Node) (start : ℕ) : CacheM ℕ := walkBack node start 0

/-- Whether the block does not follow the cached block below it.
SOURCE: chain_poller.rs:316-329 -/
def breaksLink (height : ℕ) (block : BlockInfo) : CacheM Bool :=
  if height = 0 then pure false
  else do
    match ← getBlockHash (height - 1) with
    | some cachedPrevHash => pure (decide (block.header.previous ≠ cachedPrevHash))
    | none => pure false

/-- The blocks of the given heights in order, up to the first that breaks the link.
SOURCE: chain_poller.rs:313-334 -/
def fetchBlocks (p : Poller) (node : Node) : List ℕ → ℕ → CacheM ℕ
  | [], blocksProcessed => pure blocksProcessed
  | height :: heights, blocksProcessed => do
    let block ← liftExcept (node.atFetch height)
    if ← breaksLink height block then rewindToCommonAncestor node (height - 1)
    else do
      let compactBlock ← liftExcept (processBlock p.darkfi block)
      insertCompactBlock (p.now height) compactBlock
      fetchBlocks p node heights (wrappingAdd blocksProcessed 1)

/-- The heights of one batch, `start..=end`. -/
def batchHeights (p : Poller) (start remoteEnd : ℕ) : List ℕ :=
  let last := min (saturatingAdd start (p.batchSize - 1)) remoteEnd
  List.range' start (last + 1 - start)

/-- SOURCE: chain_poller.rs:303-343 -/
def fetchRange (p : Poller) (node : Node) (start remoteEnd : ℕ) : CacheM ℕ :=
  fetchBlocks p node (batchHeights p start remoteEnd) 0

/-- The node's hash at the cached tip, `none` when it does not have that height.
SOURCE: chain_poller.rs:274-282 -/
def remoteHashAtCachedTip (node : Node) (cachedTip : Option (ℕ × Bytes32)) (remoteHeight : ℕ)
    (remoteHash : Bytes32) : Except LightWalletError (Option Bytes32) :=
  match cachedTip with
  | none => .ok none
  | some (h, _) =>
    if h = remoteHeight then .ok (some remoteHash)
    else match node.atCachedTip h with
      | .ok block => .ok (some block.header.hash)
      | .error e => if e.isConnection then .error e else .ok none

/-- SOURCE: chain_poller.rs:284-300 -/
def actOn (p : Poller) (node : Node) : TipAction → CacheM ℕ
  | .idle => pure 0
  | .holdForBackendCatchup => pure 0
  | .reorgFrom height => rewindToCommonAncestor node height
  | .fetch start last => fetchRange p node start last

/-- SOURCE: chain_poller.rs:249-301 -/
def pollOnce (p : Poller) (node : Node) : CacheM ℕ := do
  let (remoteHeight, hash) ← liftExcept node.lastConfirmedBlock
  let remoteHash ← liftExcept (match hash with
    | .ok h => .ok h
    | .error e => .error (.rpcError ("invalid tip hash from darkfid: " ++ e)))
  if (← getCompactBlock 0).isNone then fetchRange p node 0 0
  else do
    let cachedTip ← getTip
    let cachedHashAtRemote ← getBlockHash remoteHeight
    let atCachedTip ← liftExcept (remoteHashAtCachedTip node cachedTip remoteHeight remoteHash)
    actOn p node (classifyTips cachedTip remoteHeight remoteHash cachedHashAtRemote atCachedTip)

end LightWalletd
