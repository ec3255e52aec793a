import LightWalletd.Analysis.PollerConvergence
import LightWalletd.Analysis.QuiescentReplies
import LightWalletd.Analysis.TipSubscription
import LightWalletd.Analysis.WalletSync
import LightWalletd.Computation.Calls
import LightWalletd.Model.PollLoop

/-!
# The poller's loop as calls

Whatever the nodes answer, the loop does to the cache, state by state, what a list of inserts and
rewinds does: each insert of a linked block on top of the chain, each rewind to a height of it. What
holds during such calls thus holds while the loop runs.
-/

set_option autoImplicit false

namespace LightWalletd

open Stateful

/-! ## Reads of a poll -/

/-- Asking whether node and cache agree changes nothing. -/
theorem readOnly_agreesAt (node : Node) (h : ℕ) : (agreesAt node h).ReadOnly := by
  unfold agreesAt
  refine (readOnly_getBlockHash h).bind fun hash => ?_
  cases hash with
  | none => trivial
  | some hash =>
    cases node.atWalk h with
    | ok block => trivial
    | error e => by_cases he : e.isConnection = true <;> simp [he, Prog.ReadOnly]

/-- Asking whether a block breaks the link changes nothing. -/
theorem readOnly_breaksLink (height : ℕ) (block : BlockInfo) :
    (breaksLink height block).ReadOnly := by
  unfold breaksLink
  by_cases h0 : height = 0
  · simp [h0, Prog.ReadOnly]
  · rw [if_neg h0]
    refine (readOnly_getBlockHash _).bind fun hash => ?_
    cases hash <;> trivial

/-! ## One poll -/

section Poll

variable {chain : List CompactBlock} {s : Cache} {p : Poller} {node : Node}

/-- A walk does one rewind, to the height that it finds. -/
theorem walkBack_performs (hs : ChainState chain s) {h : ℕ} (walked : ℕ) (hlt : h < chain.length)
    (hmax : walkTarget (chainMap chain) node h walked ≠ .ok u32Max) :
    ∃ calls, PollerCalls (chain.map CompactBlock.hash) calls ∧
      (walkBack node h walked).Performs s calls := by
  -- the rewind that ends a walk
  have hrewind : ∀ t, t < chain.length → t ≠ u32Max →
      ∃ calls, PollerCalls (chain.map CompactBlock.hash) calls ∧
        ((rewindToHeight t).bind fun _ => (.ret 0 : CacheM ℕ)).Performs s calls := by
    intro t ht hne
    have hshort := hs.short
    have htmax : t < u32Max := by omega
    obtain ⟨s', hrun, -⟩ := hs.rewind ht htmax
    refine ⟨[rewindToHeight t], .rewind t (by simpa using ht) htmax (.done _), ?_⟩
    exact (Prog.performs_call _ s).bind_ok hrun (Prog.performs_ret 0 s')
  induction h generalizing walked with
  | zero =>
    have hread := @agreesAt_run _ node _ hs.rows 0
    unfold walkBack
    unfold walkTarget at hmax
    cases hagree : agreement ((chainMap chain 0).map CompactBlock.hash) (node.atWalk 0) with
    | error e =>
      rw [hagree] at hread
      exact ⟨[], .done _, (readOnly_agreesAt node 0).performs_of_error hread⟩
    | ok agree =>
      rw [hagree] at hread
      obtain ⟨calls, hcalls, hperforms⟩ := hrewind 0 hlt (by decide)
      exact ⟨calls, hcalls, (readOnly_agreesAt node 0).performs_bind hread hperforms⟩
  | succ h ih =>
    have hread := @agreesAt_run _ node _ hs.rows (h + 1)
    unfold walkBack
    unfold walkTarget at hmax
    cases hagree : agreement ((chainMap chain (h + 1)).map CompactBlock.hash)
        (node.atWalk (h + 1)) with
    | error e =>
      rw [hagree] at hread
      exact ⟨[], .done _, (readOnly_agreesAt node _).performs_of_error hread⟩
    | ok agree =>
      rw [hagree] at hread
      rw [hagree] at hmax
      cases agree with
      | true =>
        have hne : h + 1 ≠ u32Max := fun heq => hmax (by simp [heq])
        obtain ⟨calls, hcalls, hperforms⟩ := hrewind (h + 1) hlt hne
        exact ⟨calls, hcalls, (readOnly_agreesAt node _).performs_bind hread hperforms⟩
      | false =>
        by_cases hwalked : maxWalk ≤ walked
        · have hne : h + 1 ≠ u32Max := fun heq => hmax (by simp [hwalked, heq])
          obtain ⟨calls, hcalls, hperforms⟩ := hrewind (h + 1) hlt hne
          refine ⟨calls, hcalls, (readOnly_agreesAt node _).performs_bind hread ?_⟩
          simpa [hwalked] using hperforms
        · obtain ⟨calls, hcalls, hperforms⟩ := ih (walked + 1) (by omega)
            (by simpa [hwalked] using hmax)
          refine ⟨calls, hcalls, (readOnly_agreesAt node _).performs_bind hread ?_⟩
          simpa [hwalked] using hperforms

/-- A block that does not break the link follows the last block. -/
theorem linked_of_not_broken {block : BlockInfo} {c : CompactBlock}
    (hlink : linkBroken (chainMap chain) chain.length block = false)
    (hprev : c.prevHash = block.header.previous) :
    ∀ low ∈ chain.getLast?, c.prevHash = low.hash := by
  intro low hlow
  have hne : chain.length ≠ 0 := by
    intro h0
    simp [List.length_eq_zero_iff.mp h0] at hlow
  have hlast : chainMap chain (chain.length - 1) = some low := by
    unfold chainMap
    rwa [← List.getLast?_eq_getElem?]
  simpa [linkBroken, hne, hlast, hprev] using hlink

/-- Fetching does the inserts of the blocks that link, and a walk at the first that does not. -/
theorem fetchBlocks_performs (hnode : node.AtHeights) (n processed : ℕ) (hs : ChainState chain s)
    (hlen : chain.length + n ≤ u32Max + 1) :
    ∃ calls, PollerCalls (chain.map CompactBlock.hash) calls ∧
      (fetchBlocks p node (List.range' chain.length n) processed).Performs s calls := by
  induction n generalizing chain s processed with
  | zero => exact ⟨[], .done _, Prog.performs_ret _ s⟩
  | succ n ih =>
    rw [List.range'_succ]
    unfold fetchBlocks
    cases hfetch : node.atFetch chain.length with
    | error e => exact ⟨[], .done _, (readOnly_liftExcept _).performs_of_error (run_liftExcept _ s)⟩
    | ok block =>
      have hlinked := breaksLink_run hs.rows chain.length block
      cases hlink : linkBroken (chainMap chain) chain.length block with
      | true =>
        -- the walk starts at the tip, below the last height
        have hpos : chain.length ≠ 0 := by
          intro h0
          simp [linkBroken, h0] at hlink
        have hno : walkTarget (chainMap chain) node (chain.length - 1) 0 ≠ .ok u32Max := by
          intro htarget
          have := (walkTarget_spec htarget).1
          omega
        obtain ⟨calls, hcalls, hperforms⟩ := walkBack_performs hs 0 (by omega) hno
        refine ⟨calls, hcalls, ?_⟩
        refine (readOnly_liftExcept _).performs_bind (run_liftExcept (Except.ok block) s) ?_
        refine (readOnly_breaksLink _ _).performs_bind hlinked ?_
        simpa [hlink, rewindToCommonAncestor] using hperforms
      | false =>
        cases hprocess : processBlock p.darkfi block with
        | error e =>
          refine ⟨[], .done _, ?_⟩
          refine (readOnly_liftExcept _).performs_bind (run_liftExcept (Except.ok block) s) ?_
          refine (readOnly_breaksLink _ _).performs_bind hlinked ?_
          simp only [hlink, Bool.false_eq_true, if_false, hprocess]
          exact (readOnly_liftExcept _).performs_of_error (run_liftExcept _ s)
        | ok c =>
          obtain ⟨hc, -, hprev, -, hcan⟩ := processBlock_ok hprocess
          have hheight : c.height = chain.length := hc.trans (hnode.atFetch _ _ hfetch)
          have hlow : ∀ low ∈ chain.getLast?, c.prevHash = low.hash :=
            linked_of_not_broken hlink hprev
          obtain ⟨merged, s', hsame, hinsert, hstate⟩ :=
            hs.append (p.now chain.length) hcan hheight (by omega) hlow
          obtain ⟨calls, hcalls, hperforms⟩ :=
            ih (wrappingAdd processed 1) hstate (by simp; omega)
          refine ⟨insertCompactBlock (p.now chain.length) c :: calls, ?_, ?_⟩
          · refine .insert _ c hcan (by simpa using hheight) (by simp; omega) ?_ ?_
            · intro hash hhash
              obtain ⟨low, hlast, rfl⟩ := Option.map_eq_some_iff.mp (List.getLast?_map ▸ hhash)
              exact hlow low hlast
            · simpa [hsame.hash] using hcalls
          · refine (readOnly_liftExcept _).performs_bind (run_liftExcept (Except.ok block) s) ?_
            refine (readOnly_breaksLink _ _).performs_bind hlinked ?_
            simp only [hlink, Bool.false_eq_true, if_false, hprocess]
            refine (readOnly_liftExcept _).performs_bind (run_liftExcept (Except.ok c) s) ?_
            exact (Prog.performs_call _ s).bind_ok hinsert (by simpa using hperforms)

/-- A rewind to the last height takes a node that contradicts itself. -/
theorem walkTarget_ne_last (hs : ChainState chain s) (hlast : ¬ RewindsToLastHeight node s)
    {t : ℕ} {hash : Bytes32} (htip : chainTip chain = some (t, hash)) {remoteHeight : ℕ}
    {remoteHash : Bytes32} {atCachedTip : Option Bytes32}
    (hconf : node.lastConfirmedBlock = .ok (remoteHeight, .ok remoteHash))
    (hat : remoteHashAtCachedTip node (some (t, hash)) remoteHeight remoteHash = .ok atCachedTip)
    {height : ℕ} (hle : height ≤ t)
    (hother : height = u32Max → ∃ other, atCachedTip = some other ∧ other ≠ hash) :
    walkTarget (chainMap chain) node height 0 ≠ .ok u32Max := by
  intro htarget
  obtain ⟨block, hblock, hlen, hhash⟩ := chainTip_eq_some_iff.mp htip
  have hshort := hs.short
  obtain ⟨hth, -, -, hag⟩ := walkTarget_spec htarget
  have ht : t = u32Max := by omega
  obtain ⟨other, hsome, hne⟩ := hother (by omega)
  have hpos : 0 < u32Max := by decide
  obtain ⟨cached, answer, hcached, hanswer, heq⟩ := hag.resolve_right (by simp [maxWalk]; omega)
  refine hlast ⟨remoteHeight, remoteHash, hash, other, answer, hconf, ?_, ?_, hne, hanswer, ?_⟩
  · rw [hs.readTip, htip, ht]
  · rw [← ht, hat, hsome]
  · unfold chainMap at hcached
    rw [← ht, hblock] at hcached
    obtain rfl : block = cached := by simpa using hcached
    rw [heq, hhash]

/-- One poll does inserts and rewinds of a poller on the cached chain. -/
theorem pollOnce_performs (hnode : node.AtHeights) (hs : ChainState chain s)
    (hlast : ¬ RewindsToLastHeight node s) :
    ∃ calls, PollerCalls (chain.map CompactBlock.hash) calls ∧
      (pollOnce p node).Performs s calls := by
  unfold pollOnce
  rcases hconf : node.lastConfirmedBlock with e | ⟨remoteHeight, e | remoteHash⟩
  · exact ⟨[], .done _, (readOnly_liftExcept _).performs_of_error (run_liftExcept _ s)⟩
  · refine ⟨[], .done _, ?_⟩
    refine (readOnly_liftExcept _).performs_bind (run_liftExcept (Except.ok _) s) ?_
    exact (readOnly_liftExcept _).performs_of_error (run_liftExcept _ s)
  · have hremote := hnode.lastConfirmedBlock remoteHeight (.ok remoteHash) hconf
    -- what follows the two answers and the first read
    suffices h : ∃ calls, PollerCalls (chain.map CompactBlock.hash) calls ∧
        (if (chainMap chain 0).isNone then fetchRange p node 0 0 else
          getTip.bind fun cachedTip => (getBlockHash remoteHeight).bind fun cachedHash =>
            (liftExcept (remoteHashAtCachedTip node cachedTip remoteHeight remoteHash)).bind
              fun atCachedTip => actOn p node (classifyTips cachedTip remoteHeight remoteHash
                cachedHash atCachedTip)).Performs s calls by
      obtain ⟨calls, hcalls, hperforms⟩ := h
      refine ⟨calls, hcalls, ?_⟩
      refine (readOnly_liftExcept _).performs_bind (run_liftExcept (Except.ok _) s) ?_
      refine (readOnly_liftExcept _).performs_bind (run_liftExcept (Except.ok _) s) ?_
      exact (readOnly_getCompactBlock 0).performs_bind (getCompactBlock_run hs.rows 0) hperforms
    cases htip : chainTip chain with
    | none =>
      obtain rfl := chainTip_eq_none_iff.mp htip
      have hfetch := fetchBlocks_performs (p := p) hnode 1 0 hs (by decide)
      simpa [chainMap, fetchRange, batchHeights_genesis] using hfetch
    | some tip =>
      obtain ⟨t, hash⟩ := tip
      obtain ⟨block, hblock, hlen, hhash⟩ := chainTip_eq_some_iff.mp htip
      have hshort := hs.short
      have hfirst : (chainMap chain 0).isNone = false := by
        simp [chainMap, hlen]
      have hget : getTip.run s = (.ok (some (t, hash)), s) := by
        rw [getTip_run, hs.readTip, htip]
      rw [hfirst, if_neg Bool.false_ne_true]
      cases hat : remoteHashAtCachedTip node (some (t, hash)) remoteHeight remoteHash with
      | error e =>
        refine ⟨[], .done _, ?_⟩
        refine readOnly_getTip.performs_bind hget ?_
        refine (readOnly_getBlockHash _).performs_bind (getBlockHash_run hs.rows _) ?_
        rw [hat]
        exact (readOnly_liftExcept _).performs_of_error (run_liftExcept _ s)
      | ok atCachedTip =>
        suffices h : ∃ calls, PollerCalls (chain.map CompactBlock.hash) calls ∧
            (actOn p node (classifyTips (some (t, hash)) remoteHeight remoteHash
              ((chainMap chain remoteHeight).map CompactBlock.hash) atCachedTip)).Performs s
              calls by
          obtain ⟨calls, hcalls, hperforms⟩ := h
          refine ⟨calls, hcalls, readOnly_getTip.performs_bind hget ?_⟩
          refine (readOnly_getBlockHash _).performs_bind (getBlockHash_run hs.rows _) ?_
          rw [hat]
          exact (readOnly_liftExcept _).performs_bind (run_liftExcept (Except.ok _) s) hperforms
        have hsame : t = remoteHeight → atCachedTip = some remoteHash := by
          intro heq
          simpa [remoteHashAtCachedTip, heq, eq_comm] using hat
        have hcases := classifyTips_cases ((chainMap chain remoteHeight).map CompactBlock.hash)
          hash (show t ≤ u32Max by omega) hremote hsame
        cases haction : classifyTips (some (t, hash)) remoteHeight remoteHash
            ((chainMap chain remoteHeight).map CompactBlock.hash) atCachedTip with
        | idle => exact ⟨[], .done _, Prog.performs_ret 0 s⟩
        | holdForBackendCatchup => exact ⟨[], .done _, Prog.performs_ret 0 s⟩
        | fetch start last =>
          rw [haction] at hcases
          obtain ⟨rfl, rfl, hlt⟩ := hcases
          have hfetch := fetchBlocks_performs (p := p) hnode
            (min (saturatingAdd (t + 1) (p.batchSize - 1)) last + 1 - (t + 1)) 0 hs (by omega)
          rwa [hlen] at hfetch
        | reorgFrom height =>
          rw [haction] at hcases
          exact walkBack_performs hs 0 (by omega)
            (walkTarget_ne_last hs hlast htip hconf hat hcases.1 hcases.2)

end Poll

/-! ## The loop -/

/-- What the loop may meet in its turns: nodes whose blocks have the heights they were asked for
at, no rewind to the last height, and nothing to prune. -/
def LoopAllowed (config : ChainPollerConfig) : List Turn → Cache → Prop
  | [], _ => True
  | turn :: turns, s => turn.node.AtHeights ∧ ¬ RewindsToLastHeight turn.node s ∧
      (config.retentionWindow = 0 ∨
        ((pollOnce (turn.poller config) turn.node).exec s).nextHeight ≤
          config.retentionWindow + 1) ∧
      LoopAllowed config turns ((pollOnce (turn.poller config) turn.node).exec s)

section Loop

variable {chain : List CompactBlock} {s : Cache} {config : ChainPollerConfig}

/-- With the tip inside the window there is nothing to prune. -/
theorem pruneIfDue_performs (hs : ChainState chain s)
    (hwindow : config.retentionWindow = 0 ∨ s.nextHeight ≤ config.retentionWindow + 1)
    (blocks : ℕ) :
    (pruneIfDue config blocks).Performs s [] ∧
      ∃ n, (pruneIfDue config blocks).run s = (.ok n, s) := by
  unfold pruneIfDue
  by_cases hdue : 0 < config.retentionWindow ∧ config.pruneIntervalBlocks ≤ blocks
  · rw [if_pos hdue]
    have hget : getTip.run s = (.ok (chainTip chain), s) := by
      rw [getTip_run, hs.readTip]
    have hprune : (pruneWithRetention config.retentionWindow).Performs s [] ∧
        (pruneWithRetention config.retentionWindow).run s = (.ok 0, s) := by
      unfold pruneWithRetention
      simp only [Prog.bind_eq]
      rw [Prog.run_bind_of_ok hget]
      cases htip : chainTip chain with
      | none =>
        rw [htip] at hget
        exact ⟨readOnly_getTip.performs_bind hget (Prog.performs_ret 0 s), rfl⟩
      | some tip =>
        rw [htip] at hget
        have hle : tip.1 ≤ config.retentionWindow := by
          have hnext : s.nextHeight = tip.1 + 1 := by
            simp [Cache.nextHeight, hs.readTip, htip]
          omega
        refine ⟨readOnly_getTip.performs_bind hget ?_, ?_⟩
        · simpa [hle] using Prog.performs_ret 0 s
        · simp [hle, Prog.pure_eq]
    have hrun : (pruneWithRetention config.retentionWindow).attempt.run s = (.ok (.ok 0), s) := by
      rw [Prog.run_attempt, hprune.2]
    exact ⟨hprune.1.attempt.bind_ok hrun (Prog.performs_ret 0 s), 0, Prog.run_bind_of_ok hrun _⟩
  · rw [if_neg hdue]
    exact ⟨Prog.performs_ret blocks s, blocks, rfl⟩

/-- A turn does the calls of its poll. -/
theorem pollTurn_performs (turn : Turn) (loop : PollLoop) (hnode : turn.node.AtHeights)
    (hs : ChainState chain s) (hlast : ¬ RewindsToLastHeight turn.node s)
    (hwindow : config.retentionWindow = 0 ∨
      ((pollOnce (turn.poller config) turn.node).exec s).nextHeight ≤ config.retentionWindow + 1) :
    ∃ calls loop' slept, PollerCalls (chain.map CompactBlock.hash) calls ∧
      (pollTurn config turn loop).Performs s calls ∧
      (pollTurn config turn loop).run s =
        (.ok (loop', slept), (pollOnce (turn.poller config) turn.node).exec s) := by
  obtain ⟨calls, hcalls, hperforms⟩ :=
    pollOnce_performs (p := turn.poller config) hnode hs hlast
  obtain ⟨chain', hstate, -⟩ := hcalls.exec_chainState hs rfl
  rw [← hperforms.exec] at hstate
  have hattempt := Prog.run_attempt (pollOnce (turn.poller config) turn.node) s
  unfold pollTurn
  cases hr : ((pollOnce (turn.poller config) turn.node).run s).1 with
  | error e =>
    rw [hr] at hattempt
    refine ⟨calls, _, _, hcalls, ?_, Prog.run_bind_of_ok hattempt _⟩
    rw [← List.append_nil calls]
    exact hperforms.attempt.bind_ok hattempt (Prog.performs_ret _ _)
  | ok blocks =>
    rw [hr] at hattempt
    obtain ⟨hprune, n, hrun⟩ :=
      pruneIfDue_performs hstate hwindow (wrappingAdd loop.blocksSinceLastPrune blocks)
    refine ⟨calls, _, _, hcalls, ?_,
      (Prog.run_bind_of_ok hattempt _).trans (Prog.run_bind_of_ok hrun _)⟩
    rw [← List.append_nil calls]
    exact hperforms.attempt.bind_ok hattempt (hprune.bind_ret _)

/-- The loop performs calls of the poller, turn after turn. -/
theorem pollLoop_performs (turns : List Turn) (loop : PollLoop) (hs : ChainState chain s)
    (hturns : LoopAllowed config turns s) :
    ∃ calls, PollerCalls (chain.map CompactBlock.hash) calls ∧
      (pollLoop config turns loop).Performs s calls := by
  induction turns generalizing chain s loop with
  | nil => exact ⟨[], .done _, Prog.performs_ret [] s⟩
  | cons turn turns ih =>
    obtain ⟨hnode, hlast, hwindow, hrest⟩ := hturns
    obtain ⟨calls, loop', slept, hcalls, hperforms, hrun⟩ :=
      pollTurn_performs turn loop hnode hs hlast hwindow
    obtain ⟨chain', hstate, hmore⟩ := hcalls.exec_chainState hs rfl
    rw [← hperforms.exec, Prog.exec, hrun] at hstate
    obtain ⟨calls', hcalls', hperforms'⟩ := ih loop' hstate hrest
    exact ⟨calls ++ calls', hmore calls' hcalls',
      hperforms.bind_ok hrun (hperforms'.bind_ret (slept :: ·))⟩

/-- From a cache opened on an empty database on, the loop goes through the states that some inserts
and rewinds of linked blocks go through, whatever the nodes answer and whether or not polls fail. -/
theorem poll_loop_refines_calls {now : ℕ} {s₀ : Cache} (hnew : Cache.new now .empty = .ok s₀)
    (config : ChainPollerConfig) {turns : List Turn} (hturns : LoopAllowed config turns s₀) :
    ∃ calls, PollerCalls [] calls ∧
      (pollLoop config turns .start).changes s₀ = Prog.changesOf calls s₀ ∧
      (pollLoop config turns .start).exec s₀ = Prog.execAll calls s₀ := by
  obtain ⟨calls, hcalls, hchanges, hexec⟩ :=
    pollLoop_performs turns .start (.of_stack (.of_new hnew) .nil) hturns
  exact ⟨calls, hcalls, hchanges, hexec⟩

/-- Five turns: two on one chain, two on another one, and one of a node that does not answer. -/
def forkedTurns : List Turn :=
  [⟨.blank, fun _ => 0, .serving forkA⟩, ⟨.blank, fun _ => 0, .serving forkA⟩,
    ⟨.blank, fun _ => 0, .serving forkB⟩, ⟨.blank, fun _ => 0, .serving forkB⟩,
    ⟨.blank, fun _ => 0, .serving []⟩]

/-- A rewind to the last height is asked for only at the height above it. -/
theorem RewindsToLastHeight.nextHeight {node : Node} (h : RewindsToLastHeight node s) :
    s.nextHeight = u32Max + 1 := by
  obtain ⟨_, _, hash, _, _, -, htip, -⟩ := h
  simp [Cache.nextHeight, htip]

/-- The five turns are allowed. -/
theorem loopAllowed_forkedTurns : LoopAllowed .default forkedTurns .initial := by
  have hA : (Node.serving forkA).AtHeights :=
    (Node.serving_serves forkA_remoteChain).atHeights forkA_remoteChain (by simp [forkA])
  have hB : (Node.serving forkB).AtHeights :=
    (Node.serving_serves forkB_remoteChain).atHeights forkB_remoteChain (by simp [forkB])
  have hdown : (Node.serving []).AtHeights := by
    constructor <;> simp [Node.serving]
  have hlow : ∀ (node : Node) (s : Cache), s.nextHeight ≠ u32Max + 1 →
      ¬ RewindsToLastHeight node s := fun node s hne h => hne h.nextHeight
  refine ⟨hA, hlow _ _ (by decide +kernel), Or.inr (by decide +kernel), hA,
    hlow _ _ (by decide +kernel), Or.inr (by decide +kernel), hB, hlow _ _ (by decide +kernel),
    Or.inr (by decide +kernel), hB, hlow _ _ (by decide +kernel), Or.inr (by decide +kernel),
    hdown, hlow _ _ (by decide +kernel), Or.inr (by decide +kernel), trivial⟩

/-- The five turns as calls, from an empty cache. -/
theorem poll_loop_refines_calls_forked :
    ∃ calls, PollerCalls [] calls ∧
      (pollLoop .default forkedTurns .start).changes .initial = Prog.changesOf calls .initial ∧
      (pollLoop .default forkedTurns .start).exec .initial = Prog.execAll calls .initial :=
  poll_loop_refines_calls new_initial .default loopAllowed_forkedTurns

end Loop

end LightWalletd
