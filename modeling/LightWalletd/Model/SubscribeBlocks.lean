import LightWalletd.Computation.Interleaving
import LightWalletd.Model.TipHandlers

/-!
# Tip subscriptions

The poller changes the cache and then bumps a watch channel. A task for each subscriber waits
for the watch, reads the tip and offers it to a buffer of one message, which the client drains.
The three take their steps in any order, one command of the cache at a time.
-/

set_option autoImplicit false

namespace LightWalletd

open Stateful

/-! ## Parties -/

/-- SOURCE: server.rs:148-149 -/
def subscribeTipBuffer : ℕ := 1

/-- The watch channel: how often it was sent to, and the value.
SOURCE: main.rs:205-206 -/
structure TipWatch where
  version : ℕ
  tip : ℕ

/-- Where the task of a subscription is: it waits for `changed`, is about to `borrow_and_update`,
or has some of its reads and the `try_send` before it. -/
inductive SubscribePhase
  | waiting
  | woken
  | reading (rest : CacheM (Option Proto.ChainTip))

/-- A subscription: the version of the watch that its receiver has seen, its task, the buffer,
and what the client took from it so far. -/
structure Subscriber where
  seen : ℕ
  phase : SubscribePhase
  buffer : List Proto.ChainTip
  received : List Proto.ChainTip

/-- The cache, the changes before the poller, what is left of the one it is at, the watch and a
subscription. -/
structure TipSystem where
  cache : Cache
  changes : List (CacheM Unit)
  current : Option (CacheM Unit)
  watch : TipWatch
  subscriber : Option Subscriber

/-! ## Steps -/

/-- The height that `notify_tip` sends.
SOURCE: chain_poller.rs:154-161 -/
def notifiedTip (s : Cache) : ℕ :=
  match (getTip.run s).1 with
  | .ok (some (height, _)) => height
  | _ => 0

/-- The tip that the task offers, unless there is none, or no block for it.
SOURCE: server.rs:1785-1818 -/
def readChainTip (blockTarget : ℕ → Bytes32 → ℕ) : CacheM (Option Proto.ChainTip) := do
  match ← getTip.attempt with
  | .ok (some (height, hash)) => do
    match ← (getCompactBlock height).attempt with
    | .ok (some block) =>
      pure (some ⟨height, hash.1, block.timestamp, blockTarget height hash, block.prevHash.1⟩)
    | _ => pure none
  | _ => pure none

/-- A full buffer stays as it is.
SOURCE: server.rs:1819-1828 -/
def trySend (buffer : List Proto.ChainTip) (tip : Proto.ChainTip) : List Proto.ChainTip :=
  if buffer.length < subscribeTipBuffer then buffer ++ [tip] else buffer

/-- The next step of the task. A task that waits has none while it has seen the watch.
SOURCE: server.rs:1771-1830 -/
def Subscriber.task (cache : Cache) (version : ℕ) (blockTarget : ℕ → Bytes32 → ℕ)
    (sub : Subscriber) : Option Subscriber :=
  match sub.phase with
  | .waiting => if sub.seen = version then none else some { sub with seen := version, phase := .woken }
  | .woken => some { sub with seen := version, phase := .reading (readChainTip blockTarget) }
  | .reading (.ret none) => some { sub with phase := .waiting }
  | .reading (.fail _) => some { sub with phase := .waiting }
  | .reading (.ret (some tip)) =>
    some { sub with buffer := trySend sub.buffer tip, phase := .waiting }
  | .reading rest => some { sub with phase := .reading (rest.step cache).1 }

/-- The client takes a message.
SOURCE: server.rs:1833-1835 -/
def Subscriber.receive (sub : Subscriber) : Option Subscriber :=
  match sub.buffer with
  | [] => none
  | tip :: buffer => some { sub with buffer := buffer, received := sub.received ++ [tip] }

/-- Whose turn it is. A new receiver has seen some version of the watch. -/
inductive TipEvent
  | begin
  | poll
  | notify
  | subscribe (seen : ℕ)
  | task (blockTarget : ℕ → Bytes32 → ℕ)
  | receive
  | close

/-- One step, if it is possible.
SOURCE: chain_poller.rs:154-163, chain_poller.rs:333-340, chain_poller.rs:360-378,
server.rs:1755-1836 -/
def TipSystem.step (s : TipSystem) : TipEvent → Option TipSystem
  | .begin =>
    match s.current, s.changes with
    | none, change :: changes => some { s with current := some change, changes := changes }
    | some (.ret ()), change :: changes => some { s with current := some change, changes := changes }
    | _, _ => none
  | .poll => s.current.map fun rest =>
    { s with cache := (rest.step s.cache).2, current := some (rest.step s.cache).1 }
  | .notify =>
    match s.current with
    | some (.ret ()) => some { s with
        current := none
        watch := ⟨s.watch.version + 1, notifiedTip s.cache⟩ }
    | _ => none
  | .subscribe seen =>
    if s.subscriber.isNone ∧ seen ≤ s.watch.version then
      some { s with subscriber := some ⟨seen, .waiting, [], []⟩ }
    else none
  | .task blockTarget =>
    s.subscriber.bind fun sub => (sub.task s.cache s.watch.version blockTarget).map fun sub =>
      { s with subscriber := some sub }
  | .receive =>
    s.subscriber.bind fun sub => sub.receive.map fun sub => { s with subscriber := some sub }
  | .close => s.subscriber.map fun _ => { s with subscriber := none }

/-- A cache before its first change, without subscriptions. -/
def TipSystem.start (s₀ : Cache) (changes : List (CacheM Unit)) : TipSystem where
  cache := s₀
  changes := changes
  current := none
  watch := ⟨0, notifiedTip s₀⟩
  subscriber := none

end LightWalletd
