import LightWalletd.Model.SendPeers

/-!
# The senders of the last day

The table of senders is one of recent values: it confirms a sender only if that address was the last
to send the transaction, within a day, and it forgets it sooner only when nearly as many other
transactions as it has room for were sent since. The two requests fill it and ask it, so that a clue
is registered by the sender of its transaction only.
-/

set_option autoImplicit false

namespace LightWalletd

open Stateful RecencyTable

namespace PeerOp

/-- What an operation does to a table of recent values. -/
def event : PeerOp → Event Bytes32 IpAddr
  | remember txHash peer now => .remember txHash peer now
  | ask _ _ now => .look now

/-- An event is at the time of its operation. -/
@[simp] theorem time_event (op : PeerOp) : op.event.time = op.now := by
  cases op <;> rfl

variable (listing : Listing (Bytes32 × IpAddr × ℕ)) (maxSendPeerEntries : ℕ) (ops : List PeerOp)

/-- The table is the recency table of the sends. -/
theorem after_eq : after listing maxSendPeerEntries ops =
    RecencyTable.after listing sendPeerBindTtl maxSendPeerEntries (ops.map event) := by
  induction ops with
  | nil => rfl
  | cons op ops ih =>
    cases op with
    | remember txHash peer now =>
      rw [after, ih]
      rfl
    | ask txHash peer now =>
      rw [after, ih]
      rfl

/-- The last sender is the last event of the transaction. -/
theorem lastSender_eq (txHash : Bytes32) : lastSender txHash ops = last txHash (ops.map event) := by
  induction ops with
  | nil => rfl
  | cons op ops ih =>
    cases op with
    | remember h peer now =>
      rw [lastSender, ih]
      by_cases hsame : h = txHash
      · rw [if_pos hsame]
        exact (if_pos hsame).symm
      · rw [if_neg hsame]
        exact (if_neg hsame).symm
    | ask h peer now =>
      rw [lastSender, ih]
      rfl

end PeerOp

/-- Nearly as many other transactions as the table has room for were sent at `time` or after it. -/
def CrowdedOut (maxSendPeerEntries : ℕ) (txHash : Bytes32) (time : ℕ) (ops : List PeerOp) : Prop :=
  ∃ others : Finset Bytes32, maxSendPeerEntries ≤ others.card + 1 ∧ txHash ∉ others ∧
    ∀ other ∈ others, ∃ sender, PeerOp.lastSender other ops = some sender ∧ time ≤ sender.2

/-- A sender is crowded out exactly where its event is. -/
theorem crowdedOut_iff {maxSendPeerEntries time : ℕ} {txHash : Bytes32} {ops : List PeerOp} :
    CrowdedOut maxSendPeerEntries txHash time ops ↔
      Crowded maxSendPeerEntries txHash time (ops.map PeerOp.event) := by
  unfold CrowdedOut Crowded
  simp only [PeerOp.lastSender_eq]

section Table

variable {listing : Listing (Bytes32 × IpAddr × ℕ)} {maxSendPeerEntries now : ℕ}
  {ops : List PeerOp} {txHash : Bytes32} {peer : IpAddr}

/-- After operations in the order of the clock the table is one of recent values. -/
theorem tells_sendPeers (hclock : ops.Pairwise fun later earlier => earlier.now ≤ later.now)
    (hnow : ∀ op ∈ ops, op.now ≤ now) :
    Tells sendPeerBindTtl maxSendPeerEntries now (ops.map PeerOp.event)
      (PeerOp.after listing maxSendPeerEntries ops) := by
  have hclock' : Clocked (ops.map PeerOp.event) := by
    unfold Clocked
    rw [List.pairwise_map]
    simpa using hclock
  rw [PeerOp.after_eq]
  exact tells_after hclock' (by simpa using hnow)

/-- The table confirms the peer of its entry, while the entry is not too old. -/
theorem sendPeerMatches_iff {map : SendPeers} :
    (sendPeerMatches now txHash peer map).1 = true ↔
      ∃ time, map.get txHash = some (peer, time) ∧ now - time < sendPeerBindTtl := by
  unfold sendPeerMatches
  dsimp only
  rw [get_live]
  generalize map.get txHash = entry
  cases entry with
  | none => simp
  | some entry =>
    obtain ⟨bound, time⟩ := entry
    by_cases hlive : now - time < sendPeerBindTtl <;> simp [Option.filter, hlive]

/-- A peer that is confirmed was the last sender, within a day. -/
theorem lastSender_of_matches (hclock : ops.Pairwise fun later earlier => earlier.now ≤ later.now)
    (hnow : ∀ op ∈ ops, op.now ≤ now)
    (h : (sendPeerMatches now txHash peer (PeerOp.after listing maxSendPeerEntries ops)).1 = true) :
    ∃ time, PeerOp.lastSender txHash ops = some (peer, time) ∧ now - time < sendPeerBindTtl := by
  obtain ⟨time, hget, hlive⟩ := sendPeerMatches_iff.mp h
  refine ⟨time, ?_, hlive⟩
  rw [PeerOp.lastSender_eq]
  exact (tells_sendPeers hclock hnow).sound _ _ hget

/-- The last sender within a day is confirmed, unless others crowded it out. -/
theorem matches_of_lastSender (hclock : ops.Pairwise fun later earlier => earlier.now ≤ later.now)
    (hnow : ∀ op ∈ ops, op.now ≤ now) {time : ℕ}
    (hlast : PeerOp.lastSender txHash ops = some (peer, time)) (hlive : now - time < sendPeerBindTtl)
    (hroom : ¬ CrowdedOut maxSendPeerEntries txHash time ops) :
    (sendPeerMatches now txHash peer (PeerOp.after listing maxSendPeerEntries ops)).1 = true := by
  refine sendPeerMatches_iff.mpr ⟨time, ?_, hlive⟩
  rw [PeerOp.lastSender_eq] at hlast
  rcases (tells_sendPeers hclock hnow).complete _ _ hlast with hget | hold | hcrowded
  · exact hget
  · exact absurd hlive (Nat.not_lt.mpr hold)
  · exact absurd (crowdedOut_iff.mpr hcrowded) hroom

end Table

/-- After any operations in the order of the clock: the table has no more entries than it may have;
it confirms a sender only if that one was the last within a day; and it confirms the last sender
within a day unless others crowded it out. -/
theorem send_peer_binding (listing : Listing (Bytes32 × IpAddr × ℕ)) (maxSendPeerEntries : ℕ)
    (ops : List PeerOp) (now : ℕ)
    (hclock : ops.Pairwise fun later earlier => earlier.now ≤ later.now)
    (hnow : ∀ op ∈ ops, op.now ≤ now) (txHash : Bytes32) (peer : IpAddr) :
    let map := PeerOp.after listing maxSendPeerEntries ops
    map.rows.length ≤ max maxSendPeerEntries 1 ∧
      ((sendPeerMatches now txHash peer map).1 = true →
        ∃ time, PeerOp.lastSender txHash ops = some (peer, time) ∧ now - time < sendPeerBindTtl) ∧
      ∀ time, PeerOp.lastSender txHash ops = some (peer, time) → now - time < sendPeerBindTtl →
        ¬ CrowdedOut maxSendPeerEntries txHash time ops →
        (sendPeerMatches now txHash peer map).1 = true :=
  ⟨(tells_sendPeers hclock hnow).small, lastSender_of_matches hclock hnow,
    fun _ hlast hlive hroom => matches_of_lastSender hclock hnow hlast hlive hroom⟩

/-- Two transactions of two senders. -/
def twoSends : List PeerOp :=
  [.remember (Bytes32.fill 2) (.v4 2) 5, .remember (Bytes32.fill 1) (.v4 1) 3]

/-- Two sends do not crowd a table of three. -/
theorem not_crowdedOut_twoSends : ¬ CrowdedOut 3 (Bytes32.fill 1) 3 twoSends := by
  rintro ⟨others, hcard, hself, hothers⟩
  have hsub : others ⊆ {Bytes32.fill 2} := by
    intro other hmem
    obtain ⟨sender, hsender, -⟩ := hothers other hmem
    rw [Finset.mem_singleton]
    by_contra hne
    have hother : Bytes32.fill 1 ≠ other := fun heq => hself (heq ▸ hmem)
    have hnone : PeerOp.lastSender other twoSends = none := by
      unfold twoSends
      rw [PeerOp.lastSender, if_neg (Ne.symm hne), PeerOp.lastSender, if_neg hother]
      rfl
    rw [hnone] at hsender
    cases hsender
  have hle := Finset.card_le_card hsub
  rw [Finset.card_singleton] at hle
  omega

/-- The first of two senders is still bound. -/
theorem send_peer_binding_two :
    (sendPeerMatches 6 (Bytes32.fill 1) (.v4 1)
      (PeerOp.after ⟨id, fun l => .refl l⟩ 3 twoSends)).1 = true := by
  obtain ⟨-, -, hconfirms⟩ := send_peer_binding ⟨id, fun l => .refl l⟩ 3 twoSends 6
    (by decide) (by decide) (Bytes32.fill 1) (.v4 1)
  exact hconfirms 3 (by decide) (by decide) not_crowdedOut_twoSends

/-! ## Clues that are registered -/

namespace SendCall

/-- When a call uses the table. -/
def instant : SendCall → ℕ
  | send _ instant _ _ _ _ => instant
  | register _ instant _ _ _ => instant

/-- What a call does with the table, if it gets that far. -/
def op? (env : SendEnv) : SendCall → Option PeerOp
  | send peer instant broadcast _ _ req =>
    (acceptedTx env broadcast req).map fun txHash => .remember txHash peer instant
  | register peer instant allowed _ req =>
    (askedTx env.blake3 allowed req).map fun txHash => .ask txHash peer instant

variable {env : SendEnv} {listing : Listing (Bytes32 × IpAddr × ℕ)} {maxSendPeerEntries : ℕ}
  {cache : Cache} {calls : List SendCall}

/-- A call uses the table when it says it does. -/
theorem now_of_op? {call : SendCall} {op : PeerOp} (h : call.op? env = some op) :
    op.now = call.instant := by
  cases call with
  | send peer instant broadcast now later req =>
    obtain ⟨txHash, -, rfl⟩ := Option.map_eq_some_iff.mp h
    rfl
  | register peer instant allowed now req =>
    obtain ⟨txHash, -, rfl⟩ := Option.map_eq_some_iff.mp h
    rfl

/-- The table after some calls is the table after what they did with it. -/
theorem sendPeers_after : (after env listing maxSendPeerEntries cache calls).sendPeers =
    PeerOp.after listing maxSendPeerEntries (calls.filterMap (op? env)) := by
  induction calls with
  | nil => rfl
  | cons call calls ih =>
    cases call with
    | send peer instant broadcast now later req =>
      rw [List.filterMap_cons, op?, after, apply, SendServer.sendTransaction]
      cases acceptedTx env broadcast req with
      | none => exact ih
      | some txHash => exact congrArg (rememberSendPeer listing _ instant txHash peer) ih
    | register peer instant allowed now req =>
      rw [List.filterMap_cons, op?, after, apply, SendServer.registerOmrClue]
      cases askedTx env.blake3 allowed req with
      | none => exact ih
      | some txHash => exact congrArg (fun map => (sendPeerMatches instant txHash peer map).2) ih

/-- Calls in the order of the clock use the table in that order. -/
theorem pairwise_ops (hclock : calls.Pairwise fun later earlier => earlier.instant ≤ later.instant) :
    (calls.filterMap (op? env)).Pairwise fun later earlier => earlier.now ≤ later.now := by
  refine hclock.filterMap _ fun later earlier hle op hop op' hop' => ?_
  rw [now_of_op? hop, now_of_op? hop']
  exact hle

/-- The last sender of a transaction sent it in one of the calls, and darkfid accepted it. -/
theorem exists_send {txHash : Bytes32} {peer : IpAddr} {time : ℕ}
    (h : PeerOp.lastSender txHash (calls.filterMap (op? env)) = some (peer, time)) :
    ∃ broadcast now later req, send peer time broadcast now later req ∈ calls ∧
      acceptedTx env broadcast req = some txHash := by
  induction calls with
  | nil => cases h
  | cons call calls ih =>
    have hlater := fun h' => (ih h').imp fun _ => Exists.imp fun _ => Exists.imp fun _ =>
      Exists.imp fun _ => And.imp_left (List.mem_cons_of_mem call)
    rw [List.filterMap_cons] at h
    cases call with
    | send sender instant broadcast now later req =>
      cases haccepted : acceptedTx env broadcast req with
      | none =>
        rw [op?, haccepted] at h
        exact hlater h
      | some sent =>
        rw [op?, haccepted, Option.map_some] at h
        change (if sent = txHash then some (sender, instant) else _) = _ at h
        by_cases hsame : sent = txHash
        · rw [if_pos hsame] at h
          cases h
          exact ⟨broadcast, now, later, req, List.mem_cons_self, hsame ▸ haccepted⟩
        · rw [if_neg hsame] at h
          exact hlater h
    | register asker instant allowed now req =>
      cases hasked : askedTx env.blake3 allowed req with
      | none =>
        rw [op?, hasked] at h
        exact hlater h
      | some asked =>
        rw [op?, hasked] at h
        exact hlater h

end SendCall

section Registered

variable {env : SendEnv} {allowed : Bool} {bound : Bytes32 → Bool} {now : ℕ}
  {req : Proto.OmrClueRegistration} {txHash : Bytes32}

/-- A registration that asks for a sender passed the rate limiter and its checks. -/
theorem askedTx_eq_some_iff : askedTx env.blake3 allowed req = some txHash ↔
    allowed = true ∧ checkRegistration env.blake3 req = .ok txHash := by
  unfold askedTx checkClueRateLimit
  cases allowed with
  | false => simp
  | true => cases checkRegistration env.blake3 req <;> simp

/-- A registration that asks for a sender stores its clue exactly if the answer is yes. -/
theorem registerOmrClue_of_asked (hasked : askedTx env.blake3 allowed req = some txHash) :
    registerOmrClue env.blake3 allowed bound now req =
      if bound txHash then storeRegisteredClue now txHash req
      else Prog.fail ⟨.failedPrecondition,
        "RegisterOmrClue requires a prior SendTransaction from this peer; " ++
          "attach omr_clue on SendTransaction instead"⟩ := by
  obtain ⟨rfl, hcheck⟩ := askedTx_eq_some_iff.mp hasked
  unfold registerOmrClue
  rw [hcheck]
  rfl

/-- A registration that does not ask for a sender fails. -/
theorem registerOmrClue_of_not_asked (hasked : askedTx env.blake3 allowed req = none) :
    ∃ status, registerOmrClue env.blake3 allowed bound now req = .fail status := by
  unfold registerOmrClue
  cases allowed with
  | false => exact ⟨_, rfl⟩
  | true =>
    cases hcheck : checkRegistration env.blake3 req with
    | error status => exact ⟨status, rfl⟩
    | ok txHash =>
      rw [askedTx_eq_some_iff.mpr ⟨rfl, hcheck⟩] at hasked
      cases hasked

/-- A registration that succeeds was for a transaction whose sender was confirmed. -/
theorem asked_of_registered {s s' : Cache}
    (h : (registerOmrClue env.blake3 allowed bound now req).run s = (.ok (), s')) :
    ∃ txHash, askedTx env.blake3 allowed req = some txHash ∧ bound txHash = true := by
  cases hasked : askedTx env.blake3 allowed req with
  | none =>
    obtain ⟨status, hfail⟩ : ∃ status, registerOmrClue env.blake3 allowed bound now req =
        .fail status := registerOmrClue_of_not_asked hasked
    rw [hfail] at h
    cases h
  | some txHash =>
    refine ⟨txHash, rfl, ?_⟩
    by_contra hbound
    rw [registerOmrClue_of_asked hasked, if_neg hbound] at h
    cases h

end Registered

/-- After any calls in the order of the clock: a registration that succeeds comes from the peer
whose `SendTransaction` was the last that darkfid accepted for its transaction, within a day; and
one that comes from that peer is not refused for its sender, unless others crowded it out. -/
theorem registration_follows_send (env : SendEnv) (listing : Listing (Bytes32 × IpAddr × ℕ))
    (maxSendPeerEntries : ℕ) (cache : Cache) (calls : List SendCall) (peer : IpAddr)
    (instant : ℕ) (allowed : Bool) (now : ℕ) (req : Proto.OmrClueRegistration)
    (hclock : calls.Pairwise fun later earlier => earlier.instant ≤ later.instant)
    (hnow : ∀ call ∈ calls, call.instant ≤ instant) :
    let s := SendCall.after env listing maxSendPeerEntries cache calls
    let ops := calls.filterMap (SendCall.op? env)
    let reply := (s.registerOmrClue env peer instant allowed now req).1
    (reply = .ok () → ∃ txHash time, askedTx env.blake3 allowed req = some txHash ∧
      PeerOp.lastSender txHash ops = some (peer, time) ∧ instant - time < sendPeerBindTtl ∧
      ∃ broadcast before later sent, .send peer time broadcast before later sent ∈ calls ∧
        acceptedTx env broadcast sent = some txHash) ∧
    ∀ txHash time, askedTx env.blake3 allowed req = some txHash →
      PeerOp.lastSender txHash ops = some (peer, time) → instant - time < sendPeerBindTtl →
      ¬ CrowdedOut maxSendPeerEntries txHash time ops →
      reply = ((storeRegisteredClue now txHash req).run s.cache).1 := by
  intro s ops reply
  have hordered : ops.Pairwise fun later earlier => earlier.now ≤ later.now :=
    SendCall.pairwise_ops hclock
  have hpast : ∀ op ∈ ops, op.now ≤ instant := by
    intro op hop
    obtain ⟨call, hcall, hdone⟩ := List.mem_filterMap.mp hop
    rw [SendCall.now_of_op? hdone]
    exact hnow call hcall
  have htable : s.sendPeers = PeerOp.after listing maxSendPeerEntries ops :=
    SendCall.sendPeers_after
  refine ⟨fun hok => ?_, fun txHash time hasked hlast hlive hroom => ?_⟩
  · obtain ⟨txHash, hasked, hbound⟩ := asked_of_registered (Prod.ext hok rfl)
    rw [htable] at hbound
    obtain ⟨time, hlast, hlive⟩ := lastSender_of_matches hordered hpast hbound
    exact ⟨txHash, time, hasked, hlast, hlive, SendCall.exists_send hlast⟩
  · have hbound : (sendPeerMatches instant txHash peer s.sendPeers).1 = true := by
      rw [htable]
      exact matches_of_lastSender hordered hpast hlast hlive hroom
    change ((registerOmrClue env.blake3 allowed _ now req).run s.cache).1 = _
    rw [registerOmrClue_of_asked hasked, if_pos hbound]

end LightWalletd
