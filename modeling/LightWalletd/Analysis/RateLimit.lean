import LightWalletd.Computation.WindowCounter
import LightWalletd.Model.RateLimit

/-!
# What the rate limiter grants

The calls of one peer are answered as by a counter of its own, whatever other peers do and
whenever entries are dropped. The exception is a call behind the end of the peer's window that asks
for more than the limit: it leaves its count in the entry if the entry is still there.
-/

set_option autoImplicit false

namespace LightWalletd

open Stateful WindowCounter

namespace PeerRateLimiter

/-! ## One entry -/

section Entry

variable {limit window now n : ℕ} {entry current : Option (ℕ × ℕ)}

/-- What a call does to the entry of its peer. -/
def charge (limit window now n : ℕ) (entry : Option (ℕ × ℕ)) : Bool × ℕ × ℕ :=
  let entry := entry.getD (0, now)
  if window ≤ now - entry.2 then (decide (n ≤ limit), n, now)
  else if limit < saturatingAdd entry.1 n then (false, entry)
  else (true, wrappingAdd entry.1 n, entry.2)

/-- The entry of a peer shows its current window; one that has ended may be gone. -/
inductive Follows (window now : ℕ) : Option (ℕ × ℕ) → Option (ℕ × ℕ) → Prop
  | absent : Follows window now none none
  | running {used since : ℕ} (hrunning : now < since + window) :
      Follows window now (some (used, since)) (some (used, since))
  | ended {entry : Option (ℕ × ℕ)} {used since : ℕ} (hended : since + window ≤ now)
      (hentry : ∀ e, entry = some e → e.2 + window ≤ now) :
      Follows window now entry (some (used, since))

/-- A counter still follows its window later. -/
theorem Follows.later {now' : ℕ} (h : Follows window now entry current) (hle : now ≤ now') :
    Follows window now' entry current := by
  cases h with
  | absent => exact .absent
  | @running used since hrunning =>
    by_cases hrunning' : now' < since + window
    · exact .running hrunning'
    · apply Follows.ended (by omega)
      intro e he
      cases he
      omega
  | ended hended hentry => exact .ended (hended.trans hle) fun e he => (hentry e he).trans hle

/-- An entry whose window has ended may be dropped. -/
theorem Follows.dropped (h : Follows window now entry current) (hwindow : 0 < window) :
    Follows window now (entry.filter fun e => decide (now - e.2 < window)) current := by
  cases h with
  | absent => exact .absent
  | @running used since hrunning =>
    have hlt : now - since < window := by omega
    rw [Option.filter_some, if_pos (decide_eq_true hlt)]
    exact .running hrunning
  | ended hended hentry =>
    exact .ended hended fun e he => hentry e (Option.filter_eq_some_iff.mp he).1

/-- The calls that a peer's counter answers as its entry does, and that start a window a whole
window after every grant. -/
def Undisturbed (limit window : ℕ) (c : Counter) (r : Request) : Prop :=
  ∀ used since, c.current = some (used, since) →
    (since + window ≤ r.time → r.credits ≤ limit ∧ ∀ g ∈ c.grants, g.time + window ≤ r.time) ∧
      (r.time < since + window → limit < u32Max ∨ used + r.credits ≤ u32Max)

/-- An undisturbed request is a clear one. -/
theorem clear_of_undisturbed {c : Counter} {r : Request} (h : Undisturbed limit window c r) :
    c.Clear window r :=
  fun used since hcurrent hended => ((h used since hcurrent).1 hended).2

/-- A new entry. -/
theorem charge_none (hwindow : 0 < window) (hn : n ≤ u32Max) :
    charge limit window now n none =
      if n ≤ limit then (true, n, now) else (false, 0, now) := by
  have hsat : saturatingAdd 0 n = n := by
    unfold saturatingAdd
    omega
  have hwrap : wrappingAdd 0 n = n := by
    rw [wrappingAdd, Nat.zero_add, Nat.mod_eq_of_lt (by omega)]
  unfold charge
  dsimp only [Option.getD_none]
  rw [if_neg (by omega), hsat, hwrap]
  by_cases hlimit : n ≤ limit
  · rw [if_neg (by omega), if_pos hlimit]
  · rw [if_pos (by omega), if_neg hlimit]

/-- An entry whose window has ended. -/
theorem charge_ended {e : ℕ × ℕ} (h : e.2 + window ≤ now) :
    charge limit window now n (some e) = (decide (n ≤ limit), n, now) :=
  if_pos (by dsimp only [Option.getD_some]; omega)

/-- An entry whose window is running. -/
theorem charge_running {used since : ℕ} (hwindow : 0 < window) (hrunning : now < since + window)
    (hlimit : limit ≤ u32Max)
    (hsum : limit < u32Max ∨ used + n ≤ u32Max) :
    charge limit window now n (some (used, since)) =
      if used + n ≤ limit then (true, used + n, since) else (false, used, since) := by
  have hsat : limit < saturatingAdd used n ↔ limit < used + n := by
    unfold saturatingAdd
    omega
  unfold charge
  dsimp only [Option.getD_some]
  rw [if_neg (by omega)]
  by_cases hle : used + n ≤ limit
  · have hwrap : wrappingAdd used n = used + n := Nat.mod_eq_of_lt (by omega)
    rw [if_neg (by rw [hsat]; omega), if_pos hle, hwrap]
  · rw [if_pos (by rw [hsat]; omega), if_neg hle]

/-- An undisturbed call is answered as by the counter of the peer. -/
theorem charge_follows {c : Counter} (hlimit : limit ≤ u32Max) (hwindow : 0 < window)
    (hn : n ≤ u32Max) (h : Follows window now entry c.current)
    (hcall : Undisturbed limit window c ⟨now, n⟩) :
    (charge limit window now n entry).1 = (c.take limit window ⟨now, n⟩).1 ∧
      Follows window now (some (charge limit window now n entry).2)
        (c.take limit window ⟨now, n⟩).2.current := by
  obtain ⟨current, grants⟩ := c
  unfold Counter.take Counter.restart
  dsimp only at h hcall ⊢
  cases h with
  | absent =>
    rw [charge_none hwindow hn]
    dsimp only
    by_cases hle : n ≤ limit
    · rw [if_pos hle, if_pos hle]
      exact ⟨rfl, .running (by omega)⟩
    · rw [if_neg hle, if_neg hle]
      exact ⟨rfl, .running (by omega)⟩
  | @running used since hrunning =>
    obtain ⟨-, hsum⟩ := hcall used since rfl
    rw [charge_running hwindow hrunning hlimit (hsum hrunning)]
    dsimp only
    rw [if_neg (Nat.not_le.mpr hrunning)]
    by_cases hle : used + n ≤ limit
    · rw [if_pos hle, if_pos hle]
      exact ⟨rfl, .running hrunning⟩
    · rw [if_neg hle, if_neg hle]
      exact ⟨rfl, .running hrunning⟩
  | @ended _ used since hended hentry =>
    obtain ⟨hcredits, -⟩ := (hcall used since rfl).1 hended
    have hcharge : charge limit window now n entry = (true, n, now) := by
      cases entry with
      | none => rw [charge_none hwindow hn, if_pos hcredits]
      | some e => rw [charge_ended (hentry e rfl), decide_eq_true hcredits]
    rw [hcharge]
    dsimp only
    rw [if_pos hended, if_pos hcredits]
    exact ⟨rfl, .running (by omega)⟩

end Entry

/-! ## One call -/

section Calls

variable {l : PeerRateLimiter} {guard : OrderedMap IpAddr (ℕ × ℕ)} {now n : ℕ} {peer : IpAddr}

/-- Collecting keeps an entry or drops one whose window is over. -/
theorem get_collect (l : PeerRateLimiter) (guard : OrderedMap IpAddr (ℕ × ℕ)) (now : ℕ)
    (peer : IpAddr) : (l.collect now guard).get peer = guard.get peer ∨
      (l.collect now guard).get peer =
        (guard.get peer).filter fun e => decide (now - e.2 < l.window) := by
  unfold collect
  by_cases hmany : l.gcThreshold ≤ guard.rows.length
  · rw [if_pos hmany]
    exact .inr (OrderedMap.get_retain _ guard peer)
  · rw [if_neg hmany]
    exact .inl rfl

/-- Dropping entries disturbs no peer. -/
theorem Follows.collected {current : Option (ℕ × ℕ)} (hwindow : 0 < l.window)
    (h : Follows l.window now (guard.get peer) current) :
    Follows l.window now ((l.collect now guard).get peer) current := by
  obtain hsame | hdropped := get_collect l guard now peer
  · rwa [hsame]
  · rw [hdropped]
    exact h.dropped hwindow

/-- A call charges the entry of its peer. -/
theorem checkN_eq (hlimit : 1 ≤ l.limit) (hn : 1 ≤ n) (hinner : l.inner = some guard) :
    l.checkN now peer n =
      ((charge l.limit l.window now n ((l.collect now guard).get peer)).1,
        { l with inner := some ((l.collect now guard).insert peer
          (charge l.limit l.window now n ((l.collect now guard).get peer)).2) }) := by
  unfold checkN charge
  rw [if_neg (by omega), if_neg (by omega), hinner]
  dsimp only
  split_ifs <;> rfl

/-- The requests that a peer makes. -/
def Call.request (c : Call) : Request := ⟨c.now, c.n⟩

/-- The requests of a peer among the calls. -/
def requestsOf (peer : IpAddr) (calls : List Call) : List Request :=
  (calls.filter fun c => decide (c.peer = peer)).map Call.request

/-- The requests of a peer with their answers. -/
def traceOf (peer : IpAddr) (trace : List (Call × Bool)) : List (Request × Bool) :=
  (trace.filter fun e => decide (e.1.peer = peer)).map fun e => (e.1.request, e.2)

/-- Calls as the server makes them: for one credit or more, at the times of a clock. -/
structure Timely (now : ℕ) (calls : List Call) : Prop where
  credits : ∀ c ∈ calls, 1 ≤ c.n ∧ c.n ≤ u32Max
  since : ∀ c ∈ calls, now ≤ c.now
  ordered : calls.Pairwise fun c d => c.now ≤ d.now

/-- The calls that remain are timely. -/
theorem Timely.tail {c : Call} {calls : List Call} (h : Timely now (c :: calls)) :
    Timely c.now calls where
  credits d hd := h.credits d (List.mem_cons_of_mem _ hd)
  since := (List.pairwise_cons.mp h.ordered).1
  ordered := (List.pairwise_cons.mp h.ordered).2

/-- An undisturbed peer is answered as by a counter of its own. -/
theorem traceOf_eq (hlimit : 1 ≤ l.limit) (hmax : l.limit ≤ u32Max) (hwindow : 0 < l.window)
    {calls : List Call} (hcalls : Timely now calls) (hinner : l.inner = some guard) {c : Counter}
    (hfollows : Follows l.window now (guard.get peer) c.current)
    (hrun : c.Along l.limit l.window (Undisturbed l.limit l.window) (requestsOf peer calls)) :
    traceOf peer (l.trace calls) = c.trace l.limit l.window (requestsOf peer calls) := by
  induction calls generalizing l guard now c with
  | nil => rfl
  | cons call calls ih =>
    obtain ⟨hone, hu32⟩ := hcalls.credits call (List.mem_cons_self ..)
    have hlater := (hfollows.later (hcalls.since call (List.mem_cons_self ..))).collected hwindow
    have hcall : l.checkN call.now call.peer call.n = _ := checkN_eq hlimit hone hinner
    set charged := charge l.limit l.window call.now call.n
      ((l.collect call.now guard).get call.peer) with hcharged
    rw [trace, hcall]
    by_cases hpeer : call.peer = peer
    · have hrequests : requestsOf peer (call :: calls) =
          call.request :: requestsOf peer calls := by
        unfold requestsOf
        rw [List.filter_cons_of_pos (by simpa using hpeer), List.map_cons]
      rw [hrequests] at hrun ⊢
      obtain ⟨hundisturbed, hrun⟩ := hrun
      rw [← hpeer] at hlater
      obtain ⟨hanswer, hnext⟩ := charge_follows hmax hwindow hu32 hlater hundisturbed
      have hrest := ih (l := { l with inner := some ((l.collect call.now guard).insert call.peer
        charged.2) }) hlimit hmax hwindow hcalls.tail rfl
        (by rw [OrderedMap.get_insert, if_pos hpeer.symm]; exact hnext) hrun
      unfold traceOf at hrest ⊢
      rw [List.filter_cons_of_pos (by simpa using hpeer), List.map_cons, hrest, hanswer]
      rfl
    · have hrequests : requestsOf peer (call :: calls) = requestsOf peer calls := by
        unfold requestsOf
        rw [List.filter_cons_of_neg (by simpa using hpeer)]
      rw [hrequests] at hrun ⊢
      have hrest := ih (l := { l with inner := some ((l.collect call.now guard).insert call.peer
        charged.2) }) hlimit hmax hwindow hcalls.tail rfl
        (by rw [OrderedMap.get_insert, if_neg (Ne.symm hpeer)]; exact hlater) hrun
      unfold traceOf at hrest ⊢
      rw [List.filter_cons_of_neg (by simpa using hpeer), hrest]

/-- If all calls of a peer are undisturbed, no interval of a window's length has more of its
credits than the limit, and its answers depend on nothing but its own calls. -/
theorem peer_credits_within_limit {limit window gcThreshold : ℕ} (hlimit : 1 ≤ limit)
    (hmax : limit ≤ u32Max) (hwindow : 0 < window) {calls : List Call} (hcalls : Timely 0 calls)
    (hrun : Counter.fresh.Along limit window (Undisturbed limit window) (requestsOf peer calls)) :
    (∀ start, creditsIn (granted (traceOf peer
      ((withGcThreshold limit window gcThreshold).trace calls))) start window ≤ limit) ∧
    ∀ (gcThreshold' : ℕ) (calls' : List Call), Timely 0 calls' →
      requestsOf peer calls' = requestsOf peer calls →
      traceOf peer ((withGcThreshold limit window gcThreshold').trace calls') =
        traceOf peer ((withGcThreshold limit window gcThreshold).trace calls) := by
  have htrace : ∀ (gcThreshold' : ℕ) (calls' : List Call), Timely 0 calls' →
      requestsOf peer calls' = requestsOf peer calls →
      traceOf peer ((withGcThreshold limit window gcThreshold').trace calls') =
        Counter.fresh.trace limit window (requestsOf peer calls) := by
    intro gcThreshold' calls' hcalls' hrequests
    rw [← hrequests] at hrun ⊢
    exact traceOf_eq (l := withGcThreshold limit window gcThreshold') hlimit hmax hwindow hcalls'
      rfl .absent hrun
  constructor
  · intro start
    rw [htrace gcThreshold calls hcalls rfl]
    apply Counter.credits_within_limit
    · rw [requestsOf, List.map_map, List.pairwise_map]
      exact hcalls.ordered.sublist List.filter_sublist
    · exact hrun.imp fun _ _ => clear_of_undisturbed
  · intro gcThreshold' calls' hcalls' hrequests
    rw [htrace gcThreshold' calls' hcalls' hrequests, htrace gcThreshold calls hcalls rfl]

end Calls

/-- Nine credits of a limit of five within a second of each other, answers that depend on the
threshold, and a sum that leaves the machine integers. -/
theorem peer_credits_exceed_limit :
    let peer := IpAddr.v4 0xcb007109
    let burst : List Call := [⟨peer, 1, 0⟩, ⟨peer, 4, 59⟩, ⟨peer, 5, 60⟩]
    let refused : List Call := [⟨peer, 1, 0⟩, ⟨peer, 6, 60⟩, ⟨peer, 1, 61⟩]
    let huge : List Call := [⟨peer, u32Max, 0⟩, ⟨peer, 1, 1⟩]
    creditsIn (granted (traceOf peer ((new 5 60).trace burst))) 1 60 = 9 ∧
      traceOf peer ((withGcThreshold 5 60 1).trace refused) ≠
        traceOf peer ((withGcThreshold 5 60 4096).trace refused) ∧
      creditsIn (granted (traceOf peer ((new u32Max 60).trace huge))) 0 60 = u32Max + 1 := by
  decide +kernel

/-- A peer that uses its limit, waits a window behind its last grant and calls again. -/
theorem peer_credits_within_limit_waiting :
    let peer := IpAddr.v4 0xcb007109
    let other := IpAddr.v4 0x7f000001
    let calls : List Call :=
      [⟨peer, 4, 0⟩, ⟨other, 5, 1⟩, ⟨peer, 1, 30⟩, ⟨peer, 1, 40⟩, ⟨peer, 5, 90⟩]
    (∀ start, creditsIn (granted (traceOf peer ((withGcThreshold 5 60 1).trace calls))) start 60 ≤
      5) ∧
    ∀ (gcThreshold' : ℕ) (calls' : List Call), Timely 0 calls' →
      requestsOf peer calls' = requestsOf peer calls →
      traceOf peer ((withGcThreshold 5 60 gcThreshold').trace calls') =
        traceOf peer ((withGcThreshold 5 60 1).trace calls) := by
  intro peer other calls
  apply peer_credits_within_limit (by decide) (by decide) (by decide)
  · exact ⟨by decide, by decide, by decide⟩
  · refine ⟨nofun, ?_, ?_, ?_, trivial⟩
    · rintro used since ⟨⟩
      exact ⟨by decide, by decide⟩
    · rintro used since ⟨⟩
      exact ⟨by decide, by decide⟩
    · rintro used since ⟨⟩
      exact ⟨by decide, by decide⟩

end PeerRateLimiter

end LightWalletd
