import LightWalletd.Model.ChainPoller

/-!
# The poller's loop

A turn polls once, prunes when enough blocks were processed since the last time, and then sleeps,
the longer the more polls in a row have failed; after a full batch it polls again at once. The log
lines are left out.
-/

set_option autoImplicit false

namespace LightWalletd

open Stateful

/-- SOURCE: chain_poller.rs:36-49 -/
structure ChainPollerConfig where
  pollIntervalSecs : ℕ
  maxBackoffSecs : ℕ
  batchSize : ℕ
  retentionWindow : ℕ
  pruneIntervalBlocks : ℕ

/-- SOURCE: chain_poller.rs:51-61 -/
def ChainPollerConfig.default : ChainPollerConfig where
  pollIntervalSecs := 10
  maxBackoffSecs := 300
  batchSize := 100
  retentionWindow := 100000
  pruneIntervalBlocks := 10000

/-- The product is a `u64`, which wraps. SOURCE: chain_poller.rs:384-392 -/
def ChainPollerConfig.backoffInterval (config : ChainPollerConfig) (failures : ℕ) : ℕ :=
  if failures = 0 then config.pollIntervalSecs
  else min (config.pollIntervalSecs * 2 ^ min failures 6 % 2 ^ 64) config.maxBackoffSecs

/-- What the loop remembers from turn to turn. SOURCE: chain_poller.rs:167-168 -/
structure PollLoop where
  consecutiveFailures : ℕ
  blocksSinceLastPrune : ℕ
  deriving DecidableEq

/-- The loop before its first turn. -/
def PollLoop.start : PollLoop := ⟨0, 0⟩

/-- What a turn depends on beside the cache and the configuration. -/
structure Turn where
  darkfi : Darkfi
  now : ℕ → ℕ
  node : Node

/-- The poller of a turn. -/
def Turn.poller (config : ChainPollerConfig) (turn : Turn) : Poller :=
  ⟨turn.darkfi, config.batchSize, turn.now⟩

/-- Prune when it is due. SOURCE: chain_poller.rs:188-212 -/
def pruneIfDue (config : ChainPollerConfig) (blocksSinceLastPrune : ℕ) : CacheM ℕ :=
  if 0 < config.retentionWindow ∧ config.pruneIntervalBlocks ≤ blocksSinceLastPrune then do
    let _ ← (pruneWithRetention config.retentionWindow).attempt
    pure 0
  else pure blocksSinceLastPrune

/-- One turn, with the seconds that the loop sleeps after it.
SOURCE: chain_poller.rs:172-239 -/
def pollTurn (config : ChainPollerConfig) (turn : Turn) (loop : PollLoop) :
    CacheM (PollLoop × Option ℕ) := do
  match ← (pollOnce (turn.poller config) turn.node).attempt with
  | .ok blocksProcessed => do
    let blocksSinceLastPrune ←
      pruneIfDue config (wrappingAdd loop.blocksSinceLastPrune blocksProcessed)
    pure (⟨0, blocksSinceLastPrune⟩,
      if config.batchSize ≤ blocksProcessed then none else some (config.backoffInterval 0))
  | .error _ =>
    let failures := wrappingAdd loop.consecutiveFailures 1
    pure (⟨failures, loop.blocksSinceLastPrune⟩, some (config.backoffInterval failures))

/-- The loop for some turns, with the seconds that it slept after each of them.
SOURCE: chain_poller.rs:165-240 -/
def pollLoop (config : ChainPollerConfig) : List Turn → PollLoop → CacheM (List (Option ℕ))
  | [], _ => pure []
  | turn :: turns, loop => do
    let (loop, slept) ← pollTurn config turn loop
    let rest ← pollLoop config turns loop
    pure (slept :: rest)

end LightWalletd
