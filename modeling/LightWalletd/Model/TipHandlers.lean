import LightWalletd.Model.TreeHandlers

/-!
# The tip request

The height and the hash of the tip are read one after the other, and the timestamp and the
previous hash come from the compact block of that height, read last. The block target does not
come from the cache.
-/

set_option autoImplicit false

namespace LightWalletd

open Stateful

/-- The reply to a request for the tip. -/
structure Proto.ChainTip where
  height : ℕ
  hash : Bytes
  timestamp : ℕ
  blockTarget : ℕ
  prevHash : Bytes
  deriving DecidableEq

/-- `allowed` is the verdict of the rate limiter, and `blockTarget` what darkfid, or the fact
kept for this tip, says about the block target.
SOURCE: server.rs:1726-1750 -/
def getChainTip (allowed : Bool) (blockTarget : ℕ → Bytes32 → ℕ) : Handler Proto.ChainTip := do
  if !allowed then Prog.fail ⟨.resourceExhausted, "RPC rate limit exceeded; retry later"⟩
  else
    match ← getTip.mapError cacheStatus with
    | some (height, hash) => do
      let block ← (getCompactBlock height).mapError cacheStatus
      pure {
        height := height
        hash := hash.1
        timestamp := (block.map CompactBlock.timestamp).getD 0
        blockTarget := blockTarget height hash
        prevHash := (block.map fun b => b.prevHash.1).getD [] }
    | none => Prog.fail ⟨.unavailable, "No blocks cached yet"⟩

end LightWalletd
