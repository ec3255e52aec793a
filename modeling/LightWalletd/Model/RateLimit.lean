import LightWalletd.Computation.OrderedMap
import LightWalletd.Model.PeerAddress

/-!
# The rate limiter

Requests are counted by the address of the peer. An entry is the count and the time of its start;
a time is a number of ticks of the monotonic clock.
-/

set_option autoImplicit false

namespace LightWalletd

open Stateful

/-- The place of an address in an order of all of them; nothing depends on which. -/
def IpAddr.rank : IpAddr → ℕ
  | .v4 addr => 2 * addr.toNat
  | .v6 addr => 2 * addr.toNat + 1

/-- Addresses are ordered by their ranks. -/
instance : LinearOrder IpAddr := LinearOrder.lift' IpAddr.rank (by
  intro a b h
  cases a with
  | v4 a => cases b with
    | v4 b => exact congrArg IpAddr.v4 (BitVec.eq_of_toNat_eq (by simp only [IpAddr.rank] at h; omega))
    | v6 b => simp only [IpAddr.rank] at h; omega
  | v6 a => cases b with
    | v4 b => simp only [IpAddr.rank] at h; omega
    | v6 b =>
      exact congrArg IpAddr.v6 (BitVec.eq_of_toNat_eq (by simp only [IpAddr.rank] at h; omega)))

/-- SOURCE: rate_limit.rs:28-33 -/
structure PeerRateLimiter where
  limit : ℕ
  window : ℕ
  gcThreshold : ℕ
  /-- The entries behind the mutex; none if it is poisoned. -/
  inner : Option (OrderedMap IpAddr (ℕ × ℕ))

namespace PeerRateLimiter

/-- SOURCE: rate_limit.rs:40-47 -/
def withGcThreshold (limitPerWindow window gcThreshold : ℕ) : PeerRateLimiter where
  limit := limitPerWindow
  window := window
  gcThreshold := max gcThreshold 1
  inner := some .empty

/-- SOURCE: rate_limit.rs:36-38 -/
def new (limitPerWindow window : ℕ) : PeerRateLimiter := withGcThreshold limitPerWindow window 4096

/-- SOURCE: rate_limit.rs:49-51 -/
def setGcThreshold (l : PeerRateLimiter) (n : ℕ) : PeerRateLimiter :=
  { l with gcThreshold := max n 1 }

/-- Entries of ended windows are dropped when there are many. SOURCE: rate_limit.rs:74-77 -/
def collect (l : PeerRateLimiter) (now : ℕ) (guard : OrderedMap IpAddr (ℕ × ℕ)) :
    OrderedMap IpAddr (ℕ × ℕ) :=
  if l.gcThreshold ≤ guard.rows.length then
    guard.retain fun _ entry => decide (now - entry.2 < l.window)
  else guard

/-- SOURCE: rate_limit.rs:61-88 -/
def checkN (l : PeerRateLimiter) (now : ℕ) (peer : IpAddr) (n : ℕ) : Bool × PeerRateLimiter :=
  if l.limit = 0 then (true, l)
  else if n = 0 then (true, l)
  else match l.inner with
    | none => (false, l)
    | some guard =>
      let guard := l.collect now guard
      let entry := (guard.get peer).getD (0, now)
      if l.window ≤ now - entry.2 then
        (decide (n ≤ l.limit), { l with inner := some (guard.insert peer (n, now)) })
      else if l.limit < saturatingAdd entry.1 n then
        (false, { l with inner := some (guard.insert peer entry) })
      else
        (true, { l with inner := some (guard.insert peer (wrappingAdd entry.1 n, entry.2)) })

/-- SOURCE: rate_limit.rs:54-56 -/
def check (l : PeerRateLimiter) (now : ℕ) (peer : IpAddr) : Bool × PeerRateLimiter :=
  l.checkN now peer 1

/-- A call of `checkN`. -/
structure Call where
  peer : IpAddr
  n : ℕ
  now : ℕ
  deriving DecidableEq

/-- The calls with their answers. -/
def trace : PeerRateLimiter → List Call → List (Call × Bool)
  | _, [] => []
  | l, c :: calls =>
    (c, (l.checkN c.now c.peer c.n).1) :: (l.checkN c.now c.peer c.n).2.trace calls

end PeerRateLimiter

end LightWalletd
