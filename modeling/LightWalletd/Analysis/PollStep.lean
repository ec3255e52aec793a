import LightWalletd.Analysis.RewindAgreement

/-!
# One poll of a cached chain

What a poll does to a cache that holds a chain, whatever the node answers. Fetching
extends the chain by blocks that link to it; a walk cuts it. The one exception is a
rewind to the last height, whose first deleted height wraps to 0: it deletes every block.
-/

set_option autoImplicit false

namespace LightWalletd

open Stateful

/-- Whether a block breaks the link to the block of `m` below it. -/
def linkBroken (m : BlockMap) (height : ℕ) (block : BlockInfo) : Bool :=
  if height = 0 then false
  else match m (height - 1) with
    | some low => decide (block.header.previous ≠ low.hash)
    | none => false

/-- `breaks_link` compares the block with the one below it. -/
theorem breaksLink_run {m : BlockMap} {s : Cache} (hs : s.db.blocks.Holds m) (height : ℕ)
    (block : BlockInfo) : (breaksLink height block).run s = (.ok (linkBroken m height block), s) := by
  unfold breaksLink linkBroken
  by_cases h0 : height = 0
  · rw [if_pos h0, if_pos h0]
    rfl
  · rw [if_neg h0, if_neg h0, Prog.bind_eq, Prog.run_bind_of_ok (getBlockHash_run hs _)]
    cases m (height - 1) <;> rfl

/-! ## One round of fetching -/

section Round

variable {m : BlockMap} {s : Cache} {node : Node} {height : ℕ} {block : BlockInfo}

/-- A round whose block is not delivered ends the poll. -/
theorem fetchBlocks_missing {e : LightWalletError} (p : Poller)
    (hfetch : node.atFetch height = .error e) (heights : List ℕ) (processed : ℕ) :
    (fetchBlocks p node (height :: heights) processed).run s = (.error e, s) := by
  rw [fetchBlocks, hfetch, Prog.bind_eq, Prog.run_bind_of_error (run_liftExcept _ s)]

/-- A round whose block breaks the link walks back. -/
theorem fetchBlocks_broken (p : Poller) (hs : s.db.blocks.Holds m)
    (hfetch : node.atFetch height = .ok block) (hlink : linkBroken m height block = true)
    (heights : List ℕ) (processed : ℕ) :
    (fetchBlocks p node (height :: heights) processed).run s =
      (rewindToCommonAncestor node (height - 1)).run s := by
  rw [fetchBlocks, hfetch]
  simp only [Prog.bind_eq]
  rw [Prog.run_bind_of_ok (run_liftExcept (Except.ok block) s),
    Prog.run_bind_of_ok (breaksLink_run hs height block), hlink, if_pos rfl]

/-- A round whose block links but is not processed ends the poll. -/
theorem fetchBlocks_refused {e : LightWalletError} (p : Poller) (hs : s.db.blocks.Holds m)
    (hfetch : node.atFetch height = .ok block) (hlink : linkBroken m height block = false)
    (hprocess : processBlock p.darkfi block = .error e) (heights : List ℕ) (processed : ℕ) :
    (fetchBlocks p node (height :: heights) processed).run s = (.error e, s) := by
  rw [fetchBlocks, hfetch]
  simp only [Prog.bind_eq]
  rw [Prog.run_bind_of_ok (run_liftExcept (Except.ok block) s),
    Prog.run_bind_of_ok (breaksLink_run hs height block), hlink,
    if_neg Bool.false_ne_true, hprocess, Prog.run_bind_of_error (run_liftExcept _ s)]

/-- A round whose block links and is processed inserts it and goes on. -/
theorem fetchBlocks_inserts {s' : Cache} {c : CompactBlock} (p : Poller) (hs : s.db.blocks.Holds m)
    (hfetch : node.atFetch height = .ok block) (hlink : linkBroken m height block = false)
    (hprocess : processBlock p.darkfi block = .ok c)
    (hinsert : (insertCompactBlock (p.now height) c).run s = (.ok (), s')) (heights : List ℕ)
    (processed : ℕ) : (fetchBlocks p node (height :: heights) processed).run s =
      (fetchBlocks p node heights (wrappingAdd processed 1)).run s' := by
  rw [fetchBlocks, hfetch]
  simp only [Prog.bind_eq]
  rw [Prog.run_bind_of_ok (run_liftExcept (Except.ok block) s),
    Prog.run_bind_of_ok (breaksLink_run hs height block), hlink,
    if_neg Bool.false_ne_true, hprocess,
    Prog.run_bind_of_ok (run_liftExcept (Except.ok c) s), Prog.run_bind_of_ok hinsert]

end Round

/-- A poll, up to the action it takes. -/
theorem pollOnce_rows_run (p : Poller) (node : Node) {m : BlockMap} {s : Cache}
    {tip : Option (ℕ × Bytes32)} (hrows : s.db.blocks.Holds m)
    (hread : s.db.blocks.readTip = .ok tip) : (pollOnce p node).run s =
    match node.lastConfirmedBlock with
    | .error e => (.error e, s)
    | .ok (_, .error e) => (.error (.rpcError ("invalid tip hash from darkfid: " ++ e)), s)
    | .ok (remoteHeight, .ok remoteHash) =>
      if (m 0).isNone then (fetchRange p node 0 0).run s
      else match remoteHashAtCachedTip node tip remoteHeight remoteHash with
        | .error e => (.error e, s)
        | .ok atCachedTip => (actOn p node (classifyTips tip remoteHeight remoteHash
            ((m remoteHeight).map CompactBlock.hash) atCachedTip)).run s := by
  have hget : getTip.run s = (.ok tip, s) := by
    rw [getTip_run, hread]
  unfold pollOnce
  simp only [Prog.bind_eq]
  rcases node.lastConfirmedBlock with e | ⟨remoteHeight, e | remoteHash⟩
  · exact Prog.run_bind_of_error (run_liftExcept _ s) _
  · rw [Prog.run_bind_of_ok (run_liftExcept (Except.ok _) s)]
    exact Prog.run_bind_of_error (run_liftExcept _ s) _
  · rw [Prog.run_bind_of_ok (run_liftExcept (Except.ok _) s)]
    simp only []
    rw [Prog.run_bind_of_ok (run_liftExcept (Except.ok _) s),
      Prog.run_bind_of_ok (getCompactBlock_run hrows 0)]
    by_cases hfirst : (m 0).isNone = true
    · rw [if_pos hfirst, if_pos hfirst]
    · rw [if_neg hfirst, if_neg hfirst, Prog.run_bind_of_ok hget,
        Prog.run_bind_of_ok (getBlockHash_run hrows remoteHeight)]
      cases remoteHashAtCachedTip node tip remoteHeight remoteHash with
      | error e => exact Prog.run_bind_of_error (run_liftExcept _ s) _
      | ok atCachedTip => rw [Prog.run_bind_of_ok (run_liftExcept (Except.ok _) s)]

section Step

variable {chain : List CompactBlock} {s : Cache} {p : Poller} {node : Node}

/-- A walk cuts the chain at its target. -/
theorem rewindToCommonAncestor_run (hs : ChainState chain s) {start : ℕ}
    (hlt : start < chain.length)
    (hmax : walkTarget (chainMap chain) node start 0 ≠ .ok u32Max) :
    match walkTarget (chainMap chain) node start 0 with
    | .error e => (rewindToCommonAncestor node start).run s = (.error e, s)
    | .ok t => t ≤ start ∧ ∃ s', (rewindToCommonAncestor node start).run s = (.ok 0, s') ∧
        ChainState (chain.take (t + 1)) s' := by
  have hrun := walkBack_run node hs.rows start 0
  cases htarget : walkTarget (chainMap chain) node start 0 with
  | error e =>
    rw [htarget] at hrun
    exact hrun
  | ok t =>
    rw [htarget] at hrun hmax
    have hle : t ≤ start := (walkTarget_spec htarget).1
    have hshort := hs.short
    have hne : t ≠ u32Max := fun heq => hmax (by rw [heq])
    obtain ⟨s', hrewind, hstate⟩ := hs.rewind (show t < chain.length by omega) (by omega)
    exact ⟨hle, s', hrun.trans (Prog.run_bind_of_ok hrewind _), hstate⟩

/-- The blocks of the chain a walk leaves are blocks of the chain. -/
theorem rewindToCommonAncestor_exec (hs : ChainState chain s) {start : ℕ}
    (hlt : start < chain.length)
    (hmax : walkTarget (chainMap chain) node start 0 ≠ .ok u32Max) :
    ∃ chain', chain' <+: chain ∧ ChainState chain' ((rewindToCommonAncestor node start).exec s) := by
  have hrun := rewindToCommonAncestor_run hs hlt hmax
  unfold Prog.exec
  cases htarget : walkTarget (chainMap chain) node start 0 with
  | error e =>
    rw [htarget] at hrun
    rw [hrun]
    exact ⟨chain, List.prefix_refl chain, hs⟩
  | ok t =>
    rw [htarget] at hrun
    obtain ⟨-, s', hrun, hstate⟩ := hrun
    rw [hrun]
    exact ⟨_, List.take_prefix _ _, hstate⟩

/-- Every block that `node` can put into the cache through `p` satisfies `Q`. -/
def Delivers (p : Poller) (node : Node) (Q : CompactBlock → Prop) : Prop :=
  ∀ height block c merged, node.atFetch height = .ok block → processBlock p.darkfi block = .ok c →
    merged.SameBeside c → Q merged

/-- The blocks a node delivers are at the heights they were asked for at, and its tip is a `u32`. -/
structure Node.AtHeights (node : Node) : Prop where
  lastConfirmedBlock : ∀ h hash, node.lastConfirmedBlock = .ok (h, hash) → h ≤ u32Max
  atCachedTip : ∀ h block, node.atCachedTip h = .ok block → block.header.height = h
  atFetch : ∀ h block, node.atFetch h = .ok block → block.header.height = h
  atWalk : ∀ h block, node.atWalk h = .ok block → block.header.height = h

/-- A round whose block links and is processed extends the chain. -/
theorem fetchBlocks_extends (p : Poller) (hs : ChainState chain s) (hmax : chain.length ≤ u32Max)
    {block : BlockInfo} {c : CompactBlock} (hfetch : node.atFetch chain.length = .ok block)
    (hheight : block.header.height = chain.length)
    (hlink : linkBroken (chainMap chain) chain.length block = false)
    (hprocess : processBlock p.darkfi block = .ok c) (heights : List ℕ) (processed : ℕ) :
    ∃ merged s', merged.SameBeside c ∧ ChainState (chain ++ [merged]) s' ∧
      (fetchBlocks p node (chain.length :: heights) processed).run s =
        (fetchBlocks p node heights (wrappingAdd processed 1)).run s' := by
  obtain ⟨hc, -, hprev, -, hcan⟩ := processBlock_ok hprocess
  have hfollows : ∀ low ∈ chain.getLast?, c.prevHash = low.hash := by
    intro low hlow
    have hne : chain.length ≠ 0 := by
      intro h0
      rw [List.length_eq_zero_iff.mp h0] at hlow
      cases hlow
    have hlow' : chainMap chain (chain.length - 1) = some low := by
      unfold chainMap
      rw [← List.getLast?_eq_getElem?]
      exact hlow
    unfold linkBroken at hlink
    rw [if_neg hne, hlow'] at hlink
    rw [hprev]
    simpa using hlink
  obtain ⟨merged, s', hsame, hinsert, hstate⟩ :=
    hs.append (p.now chain.length) hcan (hc.trans hheight) hmax hfollows
  exact ⟨merged, s', hsame, hstate,
    fetchBlocks_inserts p hs.rows hfetch hlink hprocess hinsert heights processed⟩

/-- One round of fetching: the block at the next height is refused, cuts the chain, or extends
it before the other heights are fetched. -/
theorem fetchBlocks_cons (p : Poller) (hnode : node.AtHeights) (hs : ChainState chain s)
    (hmax : chain.length ≤ u32Max) (heights : List ℕ) (processed : ℕ) :
    (fetchBlocks p node (chain.length :: heights) processed).exec s = s ∨
    (chain.length ≠ 0 ∧ (fetchBlocks p node (chain.length :: heights) processed).exec s =
      (rewindToCommonAncestor node (chain.length - 1)).exec s) ∨
    ∃ block c merged s', node.atFetch chain.length = .ok block ∧
      processBlock p.darkfi block = .ok c ∧ merged.SameBeside c ∧
      ChainState (chain ++ [merged]) s' ∧
      (fetchBlocks p node (chain.length :: heights) processed).exec s =
        (fetchBlocks p node heights (wrappingAdd processed 1)).exec s' := by
  unfold Prog.exec
  cases hfetch : node.atFetch chain.length with
  | error e => exact Or.inl (by rw [fetchBlocks_missing p hfetch])
  | ok block =>
    cases hlink : linkBroken (chainMap chain) chain.length block with
    | true =>
      refine Or.inr (Or.inl ⟨fun h0 => ?_, by rw [fetchBlocks_broken p hs.rows hfetch hlink]⟩)
      unfold linkBroken at hlink
      rw [if_pos h0] at hlink
      cases hlink
    | false =>
      cases hprocess : processBlock p.darkfi block with
      | error e =>
        exact Or.inl (by rw [fetchBlocks_refused p hs.rows hfetch hlink hprocess])
      | ok c =>
        obtain ⟨merged, s', hsame, hstate, hrun⟩ := fetchBlocks_extends p hs hmax hfetch
          (hnode.atFetch _ _ hfetch) hlink hprocess heights processed
        exact Or.inr (Or.inr ⟨block, c, merged, s', rfl, hprocess, hsame, hstate, by rw [hrun]⟩)

/-- A poll of the genesis block alone asks for one block. -/
theorem batchHeights_genesis (p : Poller) : batchHeights p 0 0 = [0] := by
  unfold batchHeights
  rw [Nat.min_zero]
  rfl

/-- Fetching leaves a chain whose blocks were there before or come from the node. -/
theorem fetchBlocks_exec {Q : CompactBlock → Prop} (hnode : node.AtHeights)
    (hdel : Delivers p node Q) (n processed : ℕ) (hs : ChainState chain s) (hq : ∀ c ∈ chain, Q c)
    (hlen : chain.length + n ≤ u32Max + 1) :
    ∃ chain', ChainState chain'
        ((fetchBlocks p node (List.range' chain.length n) processed).exec s) ∧
      ∀ c ∈ chain', Q c := by
  induction n generalizing chain s processed with
  | zero => exact ⟨chain, hs, hq⟩
  | succ n ih =>
    rw [List.range'_succ]
    rcases fetchBlocks_cons p hnode hs (by omega) (List.range' (chain.length + 1) n) processed
      with hsame | ⟨hne, hexec⟩ | ⟨block, c, merged, s', hfetch, hprocess, hsame, hs', hexec⟩
    · rw [hsame]
      exact ⟨chain, hs, hq⟩
    · -- the walk starts at the tip, below the last height
      have hstart : chain.length - 1 < chain.length := by omega
      have hno : walkTarget (chainMap chain) node (chain.length - 1) 0 ≠ .ok u32Max := by
        intro htarget
        have := (walkTarget_spec htarget).1
        omega
      obtain ⟨chain', hpre, hs'⟩ := rewindToCommonAncestor_exec hs hstart hno
      rw [hexec]
      exact ⟨chain', hs', fun c hc => hq c (hpre.subset hc)⟩
    · have hq' : ∀ c ∈ chain ++ [merged], Q c := by
        intro c' hc'
        rcases List.mem_append.mp hc' with hc' | hc'
        · exact hq c' hc'
        · rw [List.mem_singleton.mp hc']
          exact hdel _ block c merged hfetch hprocess hsame
      have hlength : (chain ++ [merged]).length = chain.length + 1 := by simp
      rw [hexec, ← hlength]
      exact ih (wrappingAdd processed 1) hs' hq' (by omega)

/-- A poll of a cache that holds a chain, up to the action it takes. -/
theorem pollOnce_run (p : Poller) (node : Node) (hs : ChainState chain s) : (pollOnce p node).run s =
    match node.lastConfirmedBlock with
    | .error e => (.error e, s)
    | .ok (_, .error e) => (.error (.rpcError ("invalid tip hash from darkfid: " ++ e)), s)
    | .ok (remoteHeight, .ok remoteHash) => match chainTip chain with
      | none => (fetchRange p node 0 0).run s
      | some tip => match remoteHashAtCachedTip node (some tip) remoteHeight remoteHash with
        | .error e => (.error e, s)
        | .ok atCachedTip => (actOn p node (classifyTips (some tip) remoteHeight remoteHash
            ((chainMap chain remoteHeight).map CompactBlock.hash) atCachedTip)).run s := by
  rw [pollOnce_rows_run p node hs.rows hs.readTip]
  rcases node.lastConfirmedBlock with e | ⟨remoteHeight, e | remoteHash⟩
  · rfl
  · rfl
  · cases htip : chainTip chain with
    | none =>
      rw [chainTip_eq_none_iff.mp htip]
      rfl
    | some tip =>
      have hpos : 0 < chain.length := by
        rw [List.length_pos_iff]
        rintro rfl
        cases htip
      have hfirst : (chainMap chain 0).isNone = false := by
        rw [← Option.not_isSome, chainMap_isSome.mpr hpos]
        rfl
      simp only [hfirst, Bool.false_eq_true, if_false]

/-- A poll that gets through the tip queries takes the action that the two tips call for. -/
theorem pollOnce_acts (p : Poller) (action : TipAction) (hs : ChainState chain s)
    {tip : ℕ × Bytes32} {remoteHeight : ℕ} {remoteHash : Bytes32} {atCachedTip : Option Bytes32}
    (hconf : node.lastConfirmedBlock = .ok (remoteHeight, .ok remoteHash))
    (htip : chainTip chain = some tip)
    (hat : remoteHashAtCachedTip node (some tip) remoteHeight remoteHash = .ok atCachedTip)
    (haction : classifyTips (some tip) remoteHeight remoteHash
      ((chainMap chain remoteHeight).map CompactBlock.hash) atCachedTip = action) :
    (pollOnce p node).run s = (actOn p node action).run s := by
  have hrun := pollOnce_run p node hs
  simp only [hconf, htip, hat, haction] at hrun
  exact hrun

/-- The poll rewinds to the last height: the node first shows another block at the cached
tip there, and the cached one when asked again. -/
def RewindsToLastHeight (node : Node) (s : Cache) : Prop :=
  ∃ remoteHeight remoteHash hash other block,
    node.lastConfirmedBlock = .ok (remoteHeight, .ok remoteHash) ∧
    s.db.blocks.readTip = .ok (some (u32Max, hash)) ∧
    remoteHashAtCachedTip node (some (u32Max, hash)) remoteHeight remoteHash = .ok (some other) ∧
    other ≠ hash ∧ node.atWalk u32Max = .ok block ∧ block.header.hash = hash

/-- What a poll may do with a cached tip at or below the last height. -/
theorem classifyTips_cases {t remoteHeight : ℕ} {remoteHash : Bytes32}
    {atCachedTip : Option Bytes32} (cachedHash : Option Bytes32) (hash : Bytes32)
    (ht : t ≤ u32Max) (hremote : remoteHeight ≤ u32Max)
    (hat : t = remoteHeight → atCachedTip = some remoteHash) :
    match classifyTips (some (t, hash)) remoteHeight remoteHash cachedHash atCachedTip with
    | .idle => True
    | .holdForBackendCatchup => True
    | .fetch start last => start = t + 1 ∧ last = remoteHeight ∧ t < remoteHeight
    | .reorgFrom h => h ≤ t ∧ (h = u32Max → ∃ other, atCachedTip = some other ∧ other ≠ hash) := by
  unfold classifyTips
  simp only []
  by_cases hlt : remoteHeight < t
  · rw [if_pos hlt]
    cases atCachedTip with
    | none =>
      simp only []
      by_cases hhold : cachedHash = some remoteHash
      · rw [if_pos hhold]
        trivial
      · rw [if_neg hhold]
        exact ⟨min_le_right _ _, fun heq => by omega⟩
    | some other =>
      simp only []
      by_cases hsame : other = hash
      · rw [if_pos hsame]
        trivial
      · rw [if_neg hsame]
        exact ⟨le_rfl, fun _ => ⟨other, rfl, hsame⟩⟩
  · rw [if_neg hlt]
    by_cases heq : t = remoteHeight
    · rw [if_pos heq]
      by_cases hsame : hash = remoteHash
      · rw [if_pos hsame]
        trivial
      · rw [if_neg hsame]
        exact ⟨le_rfl, fun _ => ⟨remoteHash, hat heq, fun h => hsame h.symm⟩⟩
    · rw [if_neg heq]
      have hnext : saturatingAdd t 1 = t + 1 := by
        unfold saturatingAdd
        omega
      cases atCachedTip with
      | none => exact ⟨hnext, rfl, by omega⟩
      | some other =>
        simp only []
        by_cases hsame : other = hash
        · rw [if_neg (fun hne => hne hsame)]
          exact ⟨hnext, rfl, by omega⟩
        · rw [if_pos hsame]
          exact ⟨le_rfl, fun _ => ⟨other, rfl, hsame⟩⟩

/-- A poll that does not rewind to the last height leaves a chain, whose blocks were there
before or come from the node. -/
theorem pollOnce_exec {Q : CompactBlock → Prop} (hnode : node.AtHeights)
    (hdel : Delivers p node Q) (hs : ChainState chain s) (hq : ∀ c ∈ chain, Q c)
    (hlast : ¬ RewindsToLastHeight node s) :
    ∃ chain', ChainState chain' ((pollOnce p node).exec s) ∧ ∀ c ∈ chain', Q c := by
  have hrun := pollOnce_run p node hs
  have hkeep : ∀ r, (pollOnce p node).run s = (r, s) →
      ∃ chain', ChainState chain' ((pollOnce p node).exec s) ∧ ∀ c ∈ chain', Q c := by
    intro r hr
    unfold Prog.exec
    rw [hr]
    exact ⟨chain, hs, hq⟩
  rcases hconf : node.lastConfirmedBlock with e | ⟨remoteHeight, e | remoteHash⟩
  · rw [hconf] at hrun
    exact hkeep _ hrun
  · rw [hconf] at hrun
    exact hkeep _ hrun
  · have hremote := hnode.lastConfirmedBlock remoteHeight (.ok remoteHash) hconf
    simp only [hconf] at hrun
    cases htip : chainTip chain with
    | none =>
      have hnil := chainTip_eq_none_iff.mp htip
      subst hnil
      simp only [htip] at hrun
      have hfetch := fetchBlocks_exec hnode hdel 1 0 hs hq (by decide)
      unfold Prog.exec at hfetch ⊢
      rw [hrun, fetchRange, batchHeights_genesis]
      exact hfetch
    | some tip =>
      obtain ⟨t, hash⟩ := tip
      obtain ⟨last, hlastBlock, hlen, hhash⟩ := chainTip_eq_some_iff.mp htip
      have hshort := hs.short
      simp only [htip] at hrun
      cases hremoteHash : remoteHashAtCachedTip node (some (t, hash)) remoteHeight remoteHash with
      | error e =>
        rw [hremoteHash] at hrun
        exact hkeep _ hrun
      | ok atCachedTip =>
        have hat : t = remoteHeight → atCachedTip = some remoteHash := by
          intro heq
          unfold remoteHashAtCachedTip at hremoteHash
          simp only [if_pos heq] at hremoteHash
          cases hremoteHash
          rfl
        have hcases := classifyTips_cases ((chainMap chain remoteHeight).map CompactBlock.hash)
          hash (show t ≤ u32Max by omega) hremote hat
        simp only [hremoteHash] at hrun
        unfold Prog.exec
        rw [hrun]
        cases haction : classifyTips (some (t, hash)) remoteHeight remoteHash
            ((chainMap chain remoteHeight).map CompactBlock.hash) atCachedTip with
        | idle => exact ⟨chain, hs, hq⟩
        | holdForBackendCatchup => exact ⟨chain, hs, hq⟩
        | fetch start last =>
          rw [haction] at hcases
          obtain ⟨rfl, rfl, hlt⟩ := hcases
          rw [← hlen]
          refine fetchBlocks_exec hnode hdel _ 0 hs hq ?_
          omega
        | reorgFrom height =>
          rw [haction] at hcases
          obtain ⟨hle, hother⟩ := hcases
          have hno : walkTarget (chainMap chain) node height 0 ≠ .ok u32Max := by
            -- a target at the last height is one where cache and node agree
            intro htarget
            obtain ⟨hth, -, -, hag⟩ := walkTarget_spec htarget
            have ht : t = u32Max := by omega
            obtain ⟨other, hsome, hne⟩ := hother (by omega)
            have hpos : 0 < u32Max := by decide
            have hagree := hag.resolve_right (by unfold maxWalk; omega)
            obtain ⟨cached, block, hcached, hblock, heq⟩ := hagree
            refine hlast ⟨remoteHeight, remoteHash, hash, other, block, hconf, ?_, ?_, hne, hblock, ?_⟩
            · rw [hs.readTip, htip, ht]
            · rw [← ht, hremoteHash, hsome]
            · unfold chainMap at hcached
              rw [← ht, hlastBlock] at hcached
              cases hcached
              rw [heq, hhash]
          have hstart : height < chain.length := by omega
          obtain ⟨chain', hpre, hs'⟩ := rewindToCommonAncestor_exec hs hstart hno
          exact ⟨chain', hs', fun c hc => hq c (hpre.subset hc)⟩

end Step

end LightWalletd
