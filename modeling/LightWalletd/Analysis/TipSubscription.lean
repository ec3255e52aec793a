import LightWalletd.Analysis.QuiescentReplies
import LightWalletd.Analysis.TreeReplies
import LightWalletd.Model.SubscribeBlocks

/-!
# The last tip of a subscription

What a client has received, once nothing moves any more, is decided by the last `try_send`: the
message in a full buffer stays, and the tip that finds it there is never offered again. So the
client ends with the tip of the cache exactly when that message is not of another block.
-/

set_option autoImplicit false

namespace LightWalletd

open Stateful

/-! ## Runs -/

/-- What happened since the subscription began: the version of the watch at that time, and the
buffer and the tip of the last `try_send`. -/
structure TipHistory where
  since : ℕ
  tried : Option (List Proto.ChainTip × Proto.ChainTip)

/-- A `try_send` is a step of a task that has read its tip. -/
def TipHistory.after (h : TipHistory) (s : TipSystem) : TipEvent → TipHistory
  | .subscribe _ => ⟨s.watch.version, none⟩
  | .task _ =>
    match s.subscriber with
    | some ⟨_, .reading (.ret (some tip)), buffer, _⟩ => { h with tried := some (buffer, tip) }
    | _ => h
  | _ => h

/-- The runs from `s₀`, with what happened since the last subscription. -/
inductive TipRun (s₀ : Cache) (changes : List (CacheM Unit)) : TipSystem → TipHistory → Prop
  | start : TipRun s₀ changes (.start s₀ changes) ⟨0, none⟩
  | step {s s' : TipSystem} {h : TipHistory} (e : TipEvent) :
      TipRun s₀ changes s h → s.step e = some s' → TipRun s₀ changes s' (h.after s e)

/-- No notification is pending, the task waits and the client has drained the buffer. -/
structure TipSystem.Quiet (s : TipSystem) (sub : Subscriber) : Prop where
  subscriber : s.subscriber = some sub
  current : s.current = none
  seen : sub.seen = s.watch.version
  waiting : sub.phase = .waiting
  drained : sub.buffer = []

/-- The message is of the tip of the cache. -/
def Cache.IsTip (s : Cache) (tip : Proto.ChainTip) : Prop :=
  ∃ height hash, (getTip.run s).1 = .ok (some (height, hash)) ∧ tip.height = height ∧
    tip.hash = hash.1

/-! ## The poller -/

section Poller

variable {chain : List CompactBlock} {cache : Cache}

/-- A change leads to a chain that is not empty. -/
theorem PollerCalls.next {change : CacheM Unit} {changes : List (CacheM Unit)}
    (hcalls : PollerCalls (chain.map CompactBlock.hash) (change :: changes))
    (hs : ChainState chain cache) :
    ∃ chain' cache', change.run cache = (.ok (), cache') ∧ ChainState chain' cache' ∧ chain' ≠ [] ∧
      PollerCalls (chain'.map CompactBlock.hash) changes := by
  cases hcalls with
  | insert now block hcan hheight hmax hlink hrest =>
    rw [List.length_map] at hheight hmax
    obtain ⟨merged, cache', hsame, hrun, hstate⟩ := hs.append now hcan hheight hmax
      fun low hlow => by
        apply hlink
        rw [List.getLast?_map, hlow]
        rfl
    refine ⟨chain ++ [merged], cache', hrun, hstate, by simp, ?_⟩
    rw [List.map_append, List.map_singleton, hsame.hash]
    exact hrest
  | rewind height hlt hmax hrest =>
    rw [List.length_map] at hlt
    obtain ⟨cache', hrun, hstate⟩ := hs.rewind hlt hmax
    refine ⟨chain.take (height + 1), cache', hrun, hstate, ?_, ?_⟩
    · rw [ne_eq, List.take_eq_nil_iff]
      rintro (hzero | hnil)
      · omega
      · rw [hnil] at hlt
        exact absurd hlt (Nat.not_lt_zero height)
    · rw [List.map_take]
      exact hrest

/-- The cache has `chain` when the change that the poller is at is through. -/
structure TipSystem.Follows (s : TipSystem) (chain : List CompactBlock) : Prop where
  calls : PollerCalls (chain.map CompactBlock.hash) s.changes
  idle : s.current = none → ChainState chain s.cache ∧ (0 < s.watch.version → chain ≠ [])
  running : ∀ rest, s.current = some rest → chain ≠ [] ∧
    ∃ cache', rest.run s.cache = (.ok (), cache') ∧ ChainState chain cache'

/-- After its changes the poller has a chain. -/
theorem TipSystem.Follows.settled {s : TipSystem} (hs : s.Follows chain)
    (hcurrent : s.current = none ∨ s.current = some (.ret ())) : ChainState chain s.cache := by
  rcases hcurrent with hnone | hdone
  · exact (hs.idle hnone).1
  · obtain ⟨-, cache', hrun, hstate⟩ := hs.running _ hdone
    cases hrun
    exact hstate

/-- A step keeps the poller on some chain. -/
theorem TipSystem.Follows.step {s s' : TipSystem} {e : TipEvent} (hs : s.Follows chain)
    (he : s.step e = some s') : ∃ chain', s'.Follows chain' := by
  cases e with
  | begin =>
    have hbegin : ∃ change changes, s.changes = change :: changes ∧
        (s.current = none ∨ s.current = some (.ret ())) ∧
        s' = { s with current := some change, changes := changes } := by
      simp only [TipSystem.step] at he
      split at he
      · rename_i change changes hcurrent hchanges
        cases he
        exact ⟨change, changes, hchanges, Or.inl hcurrent, rfl⟩
      · rename_i change changes hcurrent hchanges
        cases he
        exact ⟨change, changes, hchanges, Or.inr hcurrent, rfl⟩
      · cases he
    obtain ⟨change, changes, hchanges, hcurrent, rfl⟩ := hbegin
    have hcalls := hs.calls
    rw [hchanges] at hcalls
    obtain ⟨chain', cache', hrun, hstate, hne, hrest⟩ := hcalls.next (hs.settled hcurrent)
    refine ⟨chain', hrest, nofun, ?_⟩
    rintro rest ⟨⟩
    exact ⟨hne, cache', hrun, hstate⟩
  | poll =>
    simp only [TipSystem.step, Option.map_eq_some_iff] at he
    obtain ⟨rest, hcurrent, rfl⟩ := he
    obtain ⟨hne, cache', hrun, hstate⟩ := hs.running rest hcurrent
    refine ⟨chain, hs.calls, nofun, ?_⟩
    rintro rest' ⟨⟩
    exact ⟨hne, cache', (rest.run_step s.cache).trans hrun, hstate⟩
  | notify =>
    simp only [TipSystem.step] at he
    split at he
    · rename_i hcurrent
      cases he
      exact ⟨chain, hs.calls,
        fun _ => ⟨hs.settled (Or.inr hcurrent), fun _ => (hs.running _ hcurrent).1⟩,
        nofun⟩
    · cases he
  | subscribe seen =>
    simp only [TipSystem.step] at he
    split_ifs at he
    cases he
    exact ⟨chain, hs.calls, hs.idle, hs.running⟩
  | task blockTarget =>
    simp only [TipSystem.step, Option.bind_eq_some_iff, Option.map_eq_some_iff] at he
    obtain ⟨sub, -, sub', -, rfl⟩ := he
    exact ⟨chain, hs.calls, hs.idle, hs.running⟩
  | receive =>
    simp only [TipSystem.step, Option.bind_eq_some_iff, Option.map_eq_some_iff] at he
    obtain ⟨sub, -, sub', -, rfl⟩ := he
    exact ⟨chain, hs.calls, hs.idle, hs.running⟩
  | close =>
    simp only [TipSystem.step, Option.map_eq_some_iff] at he
    obtain ⟨sub, -, rfl⟩ := he
    exact ⟨chain, hs.calls, hs.idle, hs.running⟩

end Poller

/-! ## The task -/

section Task

variable {chain : List CompactBlock} {cache : Cache}

/-- `get_compact_block` changes nothing. -/
theorem readOnly_getCompactBlock (height : ℕ) : (getCompactBlock height).ReadOnly := by
  unfold getCompactBlock
  refine Prog.ReadOnly.bind (fun _ => trivial) fun row => ?_
  cases row with
  | none => trivial
  | some row => exact Prog.ReadOnly.bind (readOnly_liftExcept _) fun block => trivial

/-- Reading the chain tip changes nothing. -/
theorem readOnly_readChainTip (blockTarget : ℕ → Bytes32 → ℕ) :
    (readChainTip blockTarget).ReadOnly := by
  unfold readChainTip
  refine Prog.ReadOnly.bind readOnly_getTip.attempt fun tip => ?_
  split
  · refine Prog.ReadOnly.bind (readOnly_getCompactBlock _).attempt fun block => ?_
    split <;> trivial
  · trivial

/-- On a chain the task reads the tip. -/
theorem readChainTip_run (hs : ChainState chain cache) (hne : chain ≠ [])
    (blockTarget : ℕ → Bytes32 → ℕ) :
    ∃ tip, (readChainTip blockTarget).run cache = (.ok (some tip), cache) ∧ cache.IsTip tip := by
  have hsome : (chainTip chain).isSome = true := by
    rw [Option.isSome_iff_ne_none]
    exact fun hnone => hne (chainTip_eq_none_iff.mp hnone)
  obtain ⟨⟨height, hash⟩, htip⟩ := Option.isSome_iff_exists.mp hsome
  obtain ⟨block, hblock, -, -⟩ := chainTip_eq_some_iff.mp htip
  have hread : cache.db.blocks.readTip = .ok (some (height, hash)) := hs.readTip.trans (by rw [htip])
  have hget : getTip.attempt.run cache = (.ok (.ok (some (height, hash))), cache) := by
    rw [Prog.run_attempt, getTip_run, hread]
  have hrow : (getCompactBlock height).attempt.run cache = (.ok (.ok (some block)), cache) := by
    rw [Prog.run_attempt, getCompactBlock_run hs.rows, chainMap, hblock]
  refine ⟨⟨height, hash.1, block.timestamp, blockTarget height hash, block.prevHash.1⟩, ?_,
    height, hash, (congrArg Prod.fst (getTip_run cache)).trans hread, rfl, rfl⟩
  unfold readChainTip
  rw [Prog.bind_eq, Prog.run_bind_of_ok hget]
  dsimp only
  rw [Prog.bind_eq, Prog.run_bind_of_ok hrow]
  rfl

/-- What a step of the task does. -/
theorem Subscriber.task_cases {version : ℕ} {blockTarget : ℕ → Bytes32 → ℕ} {sub sub' : Subscriber}
    (h : sub.task cache version blockTarget = some sub') :
    (sub.phase = .waiting ∧ sub' = { sub with seen := version, phase := .woken }) ∨
    (sub.phase = .woken ∧
      sub' = { sub with seen := version, phase := .reading (readChainTip blockTarget) }) ∨
    (∃ tip, sub.phase = .reading (.ret (some tip)) ∧
      sub' = { sub with buffer := trySend sub.buffer tip, phase := .waiting }) ∨
    ∃ rest, sub.phase = .reading rest ∧ (∀ tip, rest ≠ .ret (some tip)) ∧
      (sub' = { sub with phase := .reading (rest.step cache).1 } ∨
        (∀ tip s, (rest.run s).1 ≠ .ok (some tip)) ∧ sub' = { sub with phase := .waiting }) := by
  obtain ⟨seen, phase, buffer, received⟩ := sub
  cases phase with
  | waiting =>
    simp only [Subscriber.task] at h
    split_ifs at h
    cases h
    exact Or.inl ⟨rfl, rfl⟩
  | woken =>
    cases h
    exact Or.inr (Or.inl ⟨rfl, rfl⟩)
  | reading rest =>
    refine Or.inr (Or.inr ?_)
    cases rest with
    | ret tip =>
      cases tip with
      | none =>
        cases h
        refine Or.inr ⟨_, rfl, nofun, Or.inr ⟨fun tip s hrun => ?_, rfl⟩⟩
        cases hrun
      | some tip =>
        cases h
        exact Or.inl ⟨tip, rfl, rfl⟩
    | fail e =>
      cases h
      refine Or.inr ⟨_, rfl, nofun, Or.inr ⟨fun tip s hrun => ?_, rfl⟩⟩
      cases hrun
    | read k =>
      cases h
      exact Or.inr ⟨_, rfl, nofun, Or.inl rfl⟩
    | modify f k =>
      cases h
      exact Or.inr ⟨_, rfl, nofun, Or.inl rfl⟩
    | write f k =>
      cases h
      exact Or.inr ⟨_, rfl, nofun, Or.inl rfl⟩

/-- The task works, or worked, with the tip of the cache. -/
def Subscriber.Fresh (sub : Subscriber) (cache : Cache) (h : TipHistory) : Prop :=
  match sub.phase with
  | .waiting => ∃ buffer tip, h.tried = some (buffer, tip) ∧ cache.IsTip tip
  | .woken => True
  | .reading rest => ∃ tip, rest.run cache = (.ok (some tip), cache) ∧ cache.IsTip tip

/-- What holds of a subscription in every run: between changes, a task that has seen the watch
is with the tip, and the newest message is the one that the last `try_send` left. -/
structure Subscriber.Sound (sub : Subscriber) (s : TipSystem) (h : TipHistory) : Prop where
  seen_le : sub.seen ≤ s.watch.version
  readOnly : ∀ rest, sub.phase = .reading rest → rest.ReadOnly
  fresh : s.current = none → sub.seen = s.watch.version → h.since < s.watch.version →
    sub.Fresh s.cache h
  newest : ∀ buffer tip, h.tried = some (buffer, tip) →
    (sub.received ++ sub.buffer).getLast? = some (buffer.getLast?.getD tip)

/-- The newest message after a `try_send`. -/
theorem getLast?_trySend (received buffer : List Proto.ChainTip) (tip : Proto.ChainTip) :
    (received ++ trySend buffer tip).getLast? = some (buffer.getLast?.getD tip) := by
  unfold trySend subscribeTipBuffer
  cases buffer with
  | nil => simp
  | cons kept buffer =>
    rw [if_neg (by simp), List.getLast?_append_of_ne_nil _ (List.cons_ne_nil _ _),
      List.getLast?_eq_some_getLast (List.cons_ne_nil _ _)]
    rfl

/-- A step of the task keeps the subscription sound. -/
theorem Subscriber.Sound.task {s : TipSystem} {h : TipHistory} {sub sub' : Subscriber}
    (hsub : sub.Sound s h) (hs : s.Follows chain) (hself : s.subscriber = some sub)
    {blockTarget : ℕ → Bytes32 → ℕ} (ht : sub.task s.cache s.watch.version blockTarget = some sub') :
    sub'.Sound { s with subscriber := some sub' } (h.after s (.task blockTarget)) := by
  obtain ⟨seen, phase, buffer, received⟩ := sub
  rcases Subscriber.task_cases ht with ⟨rfl, rfl⟩ | ⟨rfl, rfl⟩ | ⟨tip, rfl, rfl⟩ |
    ⟨rest, rfl, hnot, hrest⟩
  · have hafter : h.after s (.task blockTarget) = h := by
      simp only [TipHistory.after, hself]
    rw [hafter]
    exact ⟨le_rfl, nofun, fun _ _ _ => trivial, hsub.newest⟩
  · have hafter : h.after s (.task blockTarget) = h := by
      simp only [TipHistory.after, hself]
    rw [hafter]
    refine ⟨le_rfl, ?_, fun hcurrent _ hsince => ?_, hsub.newest⟩
    · rintro rest ⟨⟩
      exact readOnly_readChainTip blockTarget
    · obtain ⟨hstate, hne⟩ := hs.idle hcurrent
      exact readChainTip_run hstate (hne (Nat.zero_lt_of_lt hsince)) blockTarget
  · have hafter : h.after s (.task blockTarget) = { h with tried := some (buffer, tip) } := by
      simp only [TipHistory.after, hself]
    rw [hafter]
    refine ⟨hsub.seen_le, nofun, fun hcurrent hseen hsince => ?_, ?_⟩
    · obtain ⟨tip', hrun, htip⟩ := hsub.fresh hcurrent hseen hsince
      cases hrun
      exact ⟨buffer, tip, rfl, htip⟩
    · rintro _ _ ⟨⟩
      exact getLast?_trySend received buffer tip
  · have hafter : h.after s (.task blockTarget) = h := by
      simp only [TipHistory.after, hself]
      split
      · rename_i heq
        cases heq
        exact absurd rfl (hnot _)
      · rfl
    rw [hafter]
    have hreadOnly := (hsub.readOnly rest rfl).step s.cache
    rcases hrest with rfl | ⟨hnever, rfl⟩
    · refine ⟨hsub.seen_le, ?_, fun hcurrent hseen hsince => ?_, hsub.newest⟩
      · rintro rest' ⟨⟩
        exact hreadOnly.1
      · obtain ⟨tip, hrun, htip⟩ := hsub.fresh hcurrent hseen hsince
        have hleft := rest.run_step s.cache
        rw [hreadOnly.2] at hleft
        exact ⟨tip, hleft.trans hrun, htip⟩
    · refine ⟨hsub.seen_le, nofun, fun hcurrent hseen hsince => ?_, hsub.newest⟩
      obtain ⟨tip, hrun, -⟩ := hsub.fresh hcurrent hseen hsince
      exact absurd (congrArg Prod.fst hrun) (hnever tip s.cache)

/-- The poller's steps leave a task that has seen the watch with nothing to answer for. -/
theorem Subscriber.Sound.busy {s s' : TipSystem} {h : TipHistory} {sub : Subscriber}
    (hsub : sub.Sound s h) (hversion : s.watch.version ≤ s'.watch.version)
    (hbusy : s'.current ≠ none ∨ s.watch.version < s'.watch.version) : sub.Sound s' h := by
  refine ⟨hsub.seen_le.trans hversion, hsub.readOnly, fun hcurrent hseen _ => ?_, hsub.newest⟩
  rcases hbusy with hbusy | hlater
  · exact absurd hcurrent hbusy
  · have hle := hsub.seen_le
    omega

/-- A message that the client takes stays the newest one until the next. -/
theorem Subscriber.Sound.receive {s : TipSystem} {h : TipHistory} {sub sub' : Subscriber}
    (hsub : sub.Sound s h) (hr : sub.receive = some sub') :
    sub'.Sound { s with subscriber := some sub' } h := by
  unfold Subscriber.receive at hr
  split at hr
  · cases hr
  · rename_i tip buffer hbuffer
    cases hr
    refine ⟨hsub.seen_le, hsub.readOnly, hsub.fresh, fun buffer' tip' htried => ?_⟩
    have hnewest := hsub.newest buffer' tip' htried
    rw [hbuffer] at hnewest
    rw [List.append_assoc]
    exact hnewest

/-- A step keeps what holds of the subscription. -/
theorem Subscriber.Sound.step {s s' : TipSystem} {h : TipHistory} {e : TipEvent}
    (hsub : ∀ sub, s.subscriber = some sub → sub.Sound s h) (hs : s.Follows chain)
    (he : s.step e = some s') :
    ∀ sub, s'.subscriber = some sub → sub.Sound s' (h.after s e) := by
  intro sub hself
  cases e with
  | begin =>
    simp only [TipSystem.step] at he
    split at he
    · cases he
      exact (hsub sub hself).busy le_rfl (Or.inl nofun)
    · cases he
      exact (hsub sub hself).busy le_rfl (Or.inl nofun)
    · cases he
  | poll =>
    simp only [TipSystem.step, Option.map_eq_some_iff] at he
    obtain ⟨rest, -, rfl⟩ := he
    exact (hsub sub hself).busy le_rfl (Or.inl nofun)
  | notify =>
    simp only [TipSystem.step] at he
    split at he
    · cases he
      exact (hsub sub hself).busy (Nat.le_succ _) (Or.inr (Nat.lt_succ_self _))
    · cases he
  | subscribe seen =>
    simp only [TipSystem.step] at he
    split_ifs at he with hnew
    cases he
    cases hself
    exact ⟨hnew.2, nofun, fun _ _ hsince => absurd hsince (lt_irrefl _), nofun⟩
  | task blockTarget =>
    simp only [TipSystem.step, Option.bind_eq_some_iff, Option.map_eq_some_iff] at he
    obtain ⟨old, hold, sub', htask, rfl⟩ := he
    cases hself
    exact (hsub old hold).task hs hold htask
  | receive =>
    simp only [TipSystem.step, Option.bind_eq_some_iff, Option.map_eq_some_iff] at he
    obtain ⟨old, hold, sub', hreceive, rfl⟩ := he
    cases hself
    exact (hsub old hold).receive hreceive
  | close =>
    simp only [TipSystem.step, Option.map_eq_some_iff] at he
    obtain ⟨old, -, rfl⟩ := he
    cases hself

end Task

/-! ## Quiet states -/

section Quiet

variable {s₀ : Cache} {changes : List (CacheM Unit)} {s : TipSystem} {h : TipHistory}

/-- In every run the cache follows a chain and the subscriber is sound. -/
theorem TipRun.sound (hrun : TipRun s₀ changes s h) (hs₀ : ChainState [] s₀)
    (hcalls : PollerCalls [] changes) :
    (∃ chain, s.Follows chain) ∧ ∀ sub, s.subscriber = some sub → sub.Sound s h := by
  induction hrun with
  | start => exact ⟨⟨[], hcalls, fun _ => ⟨hs₀, fun hpos => absurd hpos (lt_irrefl 0)⟩, nofun⟩, nofun⟩
  | step e _ he ih =>
    obtain ⟨⟨chain, hfollows⟩, hsub⟩ := ih
    exact ⟨hfollows.step he, Subscriber.Sound.step hsub hfollows he⟩

/-- In every run, once nothing moves any more after a change, the last message that the client
received is of the tip of the cache exactly when the last `try_send` found its buffer empty, or
with a message of that tip. -/
theorem subscription_ends_with_tip_iff {now : ℕ} (hnew : Cache.new now .empty = .ok s₀)
    (hcalls : PollerCalls [] changes) (hrun : TipRun s₀ changes s h) {sub : Subscriber}
    (hquiet : s.Quiet sub) (hsince : h.since < s.watch.version) :
    ∃ buffer tip, h.tried = some (buffer, tip) ∧
      ((∃ last, sub.received.getLast? = some last ∧ s.cache.IsTip last) ↔
        ∀ kept, buffer.getLast? = some kept → s.cache.IsTip kept) := by
  obtain ⟨-, hsound⟩ := hrun.sound (.of_new hnew) hcalls
  have hsub := hsound sub hquiet.subscriber
  have hfresh := hsub.fresh hquiet.current hquiet.seen hsince
  unfold Subscriber.Fresh at hfresh
  rw [hquiet.waiting] at hfresh
  obtain ⟨buffer, tip, htried, htip⟩ := hfresh
  have hlast := hsub.newest buffer tip htried
  rw [hquiet.drained, List.append_nil] at hlast
  refine ⟨buffer, tip, htried, ?_⟩
  rw [hlast]
  cases hbuffer : buffer.getLast? with
  | none => exact ⟨fun _ => nofun, fun _ => ⟨tip, rfl, htip⟩⟩
  | some kept =>
    constructor
    · rintro ⟨last, hlast, hright⟩ kept' hkept
      cases hlast
      cases hkept
      exact hright
    · intro hright
      exact ⟨kept, rfl, hright kept rfl⟩

end Quiet

/-! ## Two changes -/

section TwoChanges

/-- A run that takes the events in order. -/
def runEvents : List TipEvent → TipSystem × TipHistory → Option (TipSystem × TipHistory)
  | [], r => some r
  | e :: es, r => (r.1.step e).bind fun s => runEvents es (s, r.2.after r.1 e)

/-- A run goes on as a run. -/
theorem TipRun.runEvents {s₀ : Cache} {changes : List (CacheM Unit)} {es : List TipEvent}
    {s s' : TipSystem} {h h' : TipHistory} (hrun : TipRun s₀ changes s h)
    (hes : runEvents es (s, h) = some (s', h')) : TipRun s₀ changes s' h' := by
  induction es generalizing s h with
  | nil =>
    cases hes
    exact hrun
  | cons e es ih =>
    simp only [LightWalletd.runEvents, Option.bind_eq_some_iff] at hes
    obtain ⟨s₁, he, hes⟩ := hes
    exact ih (.step e hrun he) hes

/-- The poller makes a change and notifies, and the task offers the tip. -/
def changeAndOffer : List TipEvent :=
  .begin :: List.replicate 40 .poll ++ .notify :: List.replicate 6 (.task fun _ _ => 20)

/-- The client reads nothing before the second change. -/
def slowClient : List TipEvent := .subscribe 0 :: changeAndOffer ++ changeAndOffer ++ [.receive]

/-- The client reads after each change. -/
def promptClient : List TipEvent :=
  .subscribe 0 :: changeAndOffer ++ .receive :: changeAndOffer ++ [.receive]

/-- The subscription, when nothing moves any more after a change. -/
def TipSystem.quietSubscriber (s : TipSystem) (h : TipHistory) : Option Subscriber :=
  match s.current, s.subscriber with
  | none, some ⟨seen, .waiting, [], received⟩ =>
    if seen = s.watch.version ∧ h.since < s.watch.version then some ⟨seen, .waiting, [], received⟩
    else none
  | _, _ => none

/-- A subscriber found quiet is quiet. -/
theorem quiet_of_quietSubscriber {s : TipSystem} {h : TipHistory} {sub : Subscriber}
    (hsub : s.quietSubscriber h = some sub) : s.Quiet sub ∧ h.since < s.watch.version := by
  unfold TipSystem.quietSubscriber at hsub
  split at hsub
  · rename_i seen received hcurrent hself
    split_ifs at hsub with hseen
    cases hsub
    exact ⟨⟨hself, hcurrent, hseen.1, rfl, rfl⟩, hseen.2⟩
  · cases hsub

/-- The end of a run: the heights that the client received, those in the buffer of the last
`try_send`, and the tip. -/
structure TipEnd where
  received : List ℕ
  kept : Option (List ℕ)
  tip : Option (Option (ℕ × Bytes32))
  deriving DecidableEq

/-- The end of a run of the two changes, when it is quiet. -/
def endOf (es : List TipEvent) : Option TipEnd := do
  let (s, h) ← runEvents es (.start .initial twoInserts, ⟨0, none⟩)
  let sub ← s.quietSubscriber h
  pure ⟨sub.received.map Proto.ChainTip.height,
    h.tried.map fun tried => tried.1.map Proto.ChainTip.height, (getTip.run s.cache).1.toOption⟩

/-- The run of the events ends where it is said to. -/
theorem exists_of_endOf {es : List TipEvent} {stop : TipEnd} (hend : endOf es = some stop) :
    ∃ s h sub, TipRun .initial twoInserts s h ∧ s.Quiet sub ∧ h.since < s.watch.version ∧
      sub.received.map Proto.ChainTip.height = stop.received ∧
      (h.tried.map fun tried => tried.1.map Proto.ChainTip.height) = stop.kept ∧
      (getTip.run s.cache).1.toOption = stop.tip := by
  simp only [endOf, Option.bind_eq_bind, Option.bind_eq_some_iff] at hend
  obtain ⟨⟨s, h⟩, hrun, sub, hsub, hend⟩ := hend
  cases hend
  obtain ⟨hquiet, hsince⟩ := quiet_of_quietSubscriber hsub
  exact ⟨s, h, sub, TipRun.start.runEvents hrun, hquiet, hsince, rfl, rfl, rfl⟩

/-- The subscriber of the prompt run has the tip. -/
theorem subscription_ends_with_tip_prompt : ∃ s h sub, TipRun .initial twoInserts s h ∧
    s.Quiet sub ∧ h.since < s.watch.version ∧ ∃ last, sub.received.getLast? = some last ∧
      s.cache.IsTip last := by
  have hend : endOf promptClient = some ⟨[0, 1], some [], some (some (1, Bytes32.fill 2))⟩ := by
    decide +kernel
  obtain ⟨s, h, sub, hrun, hquiet, hsince, -, hkept, -⟩ := exists_of_endOf hend
  refine ⟨s, h, sub, hrun, hquiet, hsince, ?_⟩
  obtain ⟨buffer, tip, htried, hiff⟩ :=
    subscription_ends_with_tip_iff new_initial twoInserts_calls hrun hquiet hsince
  rw [htried] at hkept
  have hempty : buffer = [] := by simpa using hkept
  apply hiff.mpr
  rw [hempty]
  exact nofun

/-- The client drains its stream after the second change, and ends with the first block. -/
theorem subscription_loses_tip : Cache.new 0 .empty = .ok .initial ∧ PollerCalls [] twoInserts ∧
    ∃ s h sub, TipRun .initial twoInserts s h ∧ s.Quiet sub ∧ h.since < s.watch.version ∧
      ¬ ∃ last, sub.received.getLast? = some last ∧ s.cache.IsTip last := by
  have hend : endOf slowClient = some ⟨[0], some [0], some (some (1, Bytes32.fill 2))⟩ := by
    decide +kernel
  obtain ⟨s, h, sub, hrun, hquiet, hsince, hreceived, -, htip⟩ := exists_of_endOf hend
  refine ⟨new_initial, twoInserts_calls, s, h, sub, hrun, hquiet, hsince, ?_⟩
  rintro ⟨last, hlast, height, hash, hread, hheight, -⟩
  rw [hread] at htip
  cases htip
  have hzero : (sub.received.map Proto.ChainTip.height).getLast? = some last.height := by
    rw [List.getLast?_map, hlast]
    rfl
  rw [hreceived, hheight] at hzero
  cases hzero

end TwoChanges

end LightWalletd
