import LightWalletd.Computation.Iteration
import LightWalletd.Analysis.PollerLinkage

/-!
# Convergence

A cache built by polling chains that share the genesis block of a chain `remote` ends up
with all blocks of `remote` when that chain alone is polled: the poller cuts the blocks
that are not on it, batch by batch fetches the ones that are, and stops. It keeps a longer
chain that continues `remote`. A block that the block processor refuses is never passed.
-/

set_option autoImplicit false

namespace LightWalletd

open Stateful

/-- Header hashes are collision-free on the given blocks: a header commits to the block, so
one hash is one block. -/
def HashesIdentify (served : BlockInfo → Prop) : Prop :=
  ∀ b b', served b → served b' → b.header.hash = b'.header.hash → b = b'

/-- The node answers from `remote` whenever it answers. -/
structure Node.AnswersFrom (node : Node) (remote : List BlockInfo) : Prop where
  lastConfirmedBlock : ∀ h hash, node.lastConfirmedBlock = .ok (h, hash) →
    ∃ block, remote[h]? = some block ∧ hash = .ok block.header.hash
  atCachedTip : ∀ h block, node.atCachedTip h = .ok block → remote[h]? = some block
  atFetch : ∀ h block, node.atFetch h = .ok block → remote[h]? = some block
  atWalk : ∀ h block, node.atWalk h = .ok block → remote[h]? = some block

/-- The cached block is a processed block of `served`, apart from its clues. -/
def ProcessedFrom (d : Darkfi) (served : BlockInfo → Prop) (c : CompactBlock) : Prop :=
  ∃ block c₀, served block ∧ processBlock d block = .ok c₀ ∧ c.SameBeside c₀

/-- A poll of some chain of served blocks that has the genesis block of `remote`. -/
def EarlierPoll (d : Darkfi) (served : BlockInfo → Prop) (remote : List BlockInfo) (p : Poller)
    (node : Node) (_ : Cache) : Prop :=
  p.darkfi = d ∧ ∃ earlier, RemoteChain earlier ∧ earlier[0]? = remote[0]? ∧
    (∀ block ∈ earlier, served block) ∧ node.AnswersFrom earlier

/-- A node that serves a chain answers from it. -/
theorem Node.Serves.answersFrom {node : Node} {remote : List BlockInfo} (hnode : node.Serves remote)
    (hne : remote ≠ []) : node.AnswersFrom remote where
  lastConfirmedBlock := by
    intro h hash hconf
    have hlast := List.getLast?_eq_some_getLast hne
    rw [hnode.lastConfirmedBlock _ hlast] at hconf
    cases hconf
    exact ⟨_, by rw [← List.getLast?_eq_getElem?]; exact hlast, rfl⟩
  atCachedTip := fun h _ hok => (hnode.atCachedTip h).of_ok hok
  atFetch := fun h _ hok => (hnode.atFetch h).of_ok hok
  atWalk := fun h _ hok => (hnode.atWalk h).of_ok hok

namespace Node.AnswersFrom

variable {node : Node} {remote : List BlockInfo}

/-- A node that answers from a remote chain serves blocks at their heights. -/
theorem atHeights (hnode : node.AnswersFrom remote) (hremote : RemoteChain remote) :
    node.AtHeights where
  lastConfirmedBlock := by
    intro h hash hconf
    obtain ⟨block, hblock, -⟩ := hnode.lastConfirmedBlock h hash hconf
    have hlt := (List.getElem?_eq_some_iff.mp hblock).1
    have hshort := hremote.short
    omega
  atCachedTip := fun h block hok => hremote.height h block (hnode.atCachedTip h block hok)
  atFetch := fun h block hok => hremote.height h block (hnode.atFetch h block hok)
  atWalk := fun h block hok => hremote.height h block (hnode.atWalk h block hok)

/-- A node that answers from one chain has one block at the last height. -/
theorem not_rewindsToLastHeight (hnode : node.AnswersFrom remote) (s : Cache) :
    ¬ RewindsToLastHeight node s := by
  rintro ⟨remoteHeight, remoteHash, hash, other, block, hconf, -, hat, hne, hwalk, hhash⟩
  have hblock := hnode.atWalk _ _ hwalk
  obtain ⟨last, hlast, hlastHash⟩ := hnode.lastConfirmedBlock _ _ hconf
  unfold remoteHashAtCachedTip at hat
  by_cases heq : u32Max = remoteHeight
  · simp only [if_pos heq, Except.ok.injEq, Option.some.injEq] at hat
    rw [heq, hlast] at hblock
    cases hblock
    cases hlastHash
    exact hne (hat.symm.trans hhash)
  · simp only [if_neg heq] at hat
    cases hans : node.atCachedTip u32Max with
    | error e =>
      rw [hans] at hat
      simp only [] at hat
      split_ifs at hat
      cases hat
    | ok answer =>
      rw [hans] at hat
      have hanswer := hnode.atCachedTip _ _ hans
      rw [hblock] at hanswer
      cases hanswer
      cases hat
      exact hne hhash

end Node.AnswersFrom

/-- Rows determine the chain they hold. -/
theorem ChainState.unique {chain chain' : List CompactBlock} {s : Cache} (h : ChainState chain s)
    (h' : ChainState chain' s) : chain = chain' :=
  List.ext_getElem? fun k => congrFun (h.rows.unique h'.rows rfl) k

/-- The cached chain consists of processed blocks and has the genesis block of `remote`. -/
structure PolledState (d : Darkfi) (served : BlockInfo → Prop) (remote : List BlockInfo)
    (chain : List CompactBlock) (s : Cache) : Prop where
  state : ChainState chain s
  processed : ∀ c ∈ chain, ProcessedFrom d served c
  genesis : ∀ c ∈ chain, c.height = 0 → ∃ block, remote[0]? = some block ∧ block.header.hash = c.hash

section Polled

variable {d : Darkfi} {served : BlockInfo → Prop} {remote : List BlockInfo}
  {chain : List CompactBlock} {s : Cache}

/-- A poll of a chain with the same genesis block keeps the state. -/
theorem PolledState.poll (p : Poller) (node : Node) (hs : PolledState d served remote chain s)
    (hpoll : EarlierPoll d served remote p node s) :
    ∃ chain', PolledState d served remote chain' ((pollOnce p node).exec s) := by
  obtain ⟨rfl, earlier, hearlier, hgenesis, hserved, hnode⟩ := hpoll
  have hdel : Delivers p node fun c => ProcessedFrom p.darkfi served c ∧
      (c.height = 0 → ∃ block, remote[0]? = some block ∧ block.header.hash = c.hash) := by
    intro height block c merged hfetch hprocess hsame
    have hblock := hnode.atFetch height block hfetch
    obtain ⟨hheight, hhash, -⟩ := processBlock_ok hprocess
    refine ⟨⟨block, c, hserved _ (List.mem_of_getElem? hblock), hprocess, hsame⟩, fun h0 => ?_⟩
    have hat := hearlier.height _ _ hblock
    rw [hsame.height, hheight, hat] at h0
    rw [h0, hgenesis] at hblock
    exact ⟨block, hblock, by rw [hsame.hash, hhash]⟩
  obtain ⟨chain', hs', hq⟩ := pollOnce_exec (hnode.atHeights hearlier) hdel hs.state
    (fun c hc => ⟨hs.processed c hc, hs.genesis c hc⟩) (hnode.not_rewindsToLastHeight s)
  exact ⟨chain', hs', fun c hc => (hq c hc).1, fun c hc => (hq c hc).2⟩

/-- Earlier polls leave a polled state. -/
theorem PollRun.polledState (hs : PollRun (EarlierPoll d served remote) s) :
    ∃ chain, PolledState d served remote chain s := by
  induction hs with
  | empty now s hnew =>
    exact ⟨[], .of_new hnew, List.forall_mem_nil _, List.forall_mem_nil _⟩
  | poll p node s _ hpoll ih =>
    obtain ⟨chain, hs⟩ := ih
    exact hs.poll p node hpoll

/-! ## Agreement goes down -/

/-- Both chains have the genesis block. -/
theorem PolledState.genesis_sameBlock (hs : PolledState d served remote chain s)
    (hpos : 0 < chain.length) : SameBlock chain remote 0 := by
  have hfirst : chain[0]? = some chain[0] := List.getElem?_eq_getElem hpos
  obtain ⟨block, hblock, hhash⟩ := hs.genesis _ (List.mem_of_getElem? hfirst)
    (hs.state.rows.height 0 _ hfirst)
  exact ⟨_, block, hfirst, hblock, hhash⟩

/-- A cached block that has the hash of a served block is that block, processed. -/
theorem PolledState.processed_of_hash (hid : HashesIdentify served)
    (hs : PolledState d served remote chain s) {k : ℕ} {c : CompactBlock} {block : BlockInfo}
    (hc : chain[k]? = some c) (hserved : served block) (hhash : block.header.hash = c.hash) :
    ∃ c₀, processBlock d block = .ok c₀ ∧ c.SameBeside c₀ := by
  obtain ⟨b, c₀, hb, hprocess, hsame⟩ := hs.processed c (List.mem_of_getElem? hc)
  have heq : b = block := by
    refine hid b block hb hserved ?_
    rw [hhash, hsame.hash, (processBlock_ok hprocess).2.1]
  subst heq
  exact ⟨c₀, hprocess, hsame⟩

section Agreement

variable (hid : HashesIdentify served) (hremote : RemoteChain remote)
  (hserved : ∀ block ∈ remote, served block) (hs : PolledState d served remote chain s)
include hid hremote hserved hs

/-- Chains that agree at a height agree at the one below. -/
theorem PolledState.sameBlock_pred {k : ℕ} (h : SameBlock chain remote (k + 1)) :
    SameBlock chain remote k := by
  obtain ⟨cached, block, hcached, hblock, hhash⟩ := h
  have hk := (List.getElem?_eq_some_iff.mp hcached).1
  have hk' := (List.getElem?_eq_some_iff.mp hblock).1
  have hlow : chain[k]? = some chain[k] := List.getElem?_eq_getElem (by omega)
  have hlow' : remote[k]? = some remote[k] := List.getElem?_eq_getElem (by omega)
  obtain ⟨c₀, hprocess, hsame⟩ := hs.processed_of_hash hid hcached
    (hserved _ (List.mem_of_getElem? hblock)) hhash
  refine ⟨_, _, hlow, hlow', ?_⟩
  -- both name the hash of the block below
  have hlink := List.isChain_iff_getElem.mp hs.state.linked k hk
  have hself : chain[k + 1] = cached := (List.getElem?_eq_some_iff.mp hcached).2
  rw [hself] at hlink
  calc remote[k].header.hash = block.header.previous := (hremote.linked k _ _ hlow' hblock).symm
    _ = c₀.prevHash := (processBlock_ok hprocess).2.2.1.symm
    _ = cached.prevHash := hsame.prevHash.symm
    _ = chain[k].hash := hlink

/-- Chains that agree at a height agree at every lower one. -/
theorem PolledState.sameBlock_of_le {j k : ℕ} (hjk : j ≤ k) (h : SameBlock chain remote k) :
    SameBlock chain remote j := by
  induction k with
  | zero => rwa [show j = 0 by omega]
  | succ k ih =>
    by_cases heq : j = k + 1
    · rwa [heq]
    · exact ih (by omega) (hs.sameBlock_pred hid hremote hserved h)

end Agreement

/-! ## Quiescence and progress -/

/-- The cached chain has every block of `remote`. -/
def Covers (chain : List CompactBlock) (remote : List BlockInfo) : Prop :=
  ∀ k < remote.length, SameBlock chain remote k

/-- A chain that covers the remote one is as long. -/
theorem Covers.length_le (hc : Covers chain remote) : remote.length ≤ chain.length := by
  by_contra hlt
  obtain ⟨_, _, hcached, -⟩ := hc chain.length (by omega)
  rw [List.getElem?_eq_none le_rfl] at hcached
  cases hcached

/-- A poll that finds every block of the node in the cache does nothing. -/
theorem pollOnce_covers (p : Poller) {node : Node} (hne : remote ≠ []) (hnode : node.Serves remote)
    (hs : ChainState chain s) (hc : Covers chain remote) : (pollOnce p node).run s = (.ok 0, s) := by
  have hpos := List.length_pos_iff.mpr hne
  have hle := hc.length_le
  have hlast : remote.getLast? = some remote[remote.length - 1] := by
    rw [List.getLast?_eq_getElem?, List.getElem?_eq_getElem (by omega)]
  obtain ⟨cached, block, hcached, hblock, hhash⟩ := hc (remote.length - 1) (by omega)
  have hlastBlock : remote[remote.length - 1] = block := (List.getElem?_eq_some_iff.mp hblock).2
  have htip : chainTip chain = some (chain.length - 1, chain[chain.length - 1].hash) :=
    chainTip_of_last (List.getElem?_eq_getElem (by omega)) (by omega)
  have hconf := hnode.lastConfirmedBlock _ hlast
  rw [hlastBlock] at hconf
  by_cases heq : chain.length = remote.length
  · -- the tips are the same block
    have hsame : chain[chain.length - 1] = cached := by
      have hget : chain[chain.length - 1]? = some cached := by rwa [heq]
      exact (List.getElem?_eq_some_iff.mp hget).2
    have hat : remoteHashAtCachedTip node (some (chain.length - 1, chain[chain.length - 1].hash))
        (remote.length - 1) block.header.hash = .ok (some block.header.hash) :=
      hnode.remoteHash (by rw [heq]; exact hblock) hblock _
    refine (pollOnce_acts p .idle hs hconf htip hat ?_).trans rfl
    unfold classifyTips
    simp only [if_neg (show ¬ remote.length - 1 < chain.length - 1 by omega),
      if_pos (show chain.length - 1 = remote.length - 1 by omega), hsame, hhash, if_true]
  · -- the node is behind, on the same chain
    refine (pollOnce_acts p .holdForBackendCatchup hs hconf htip
      (hnode.remoteHash_above hne (by omega) _ _) ?_).trans rfl
    unfold classifyTips chainMap
    simp only [if_pos (show remote.length - 1 < chain.length - 1 by omega), hcached,
      Option.map_some, hhash, if_true]

/-- The walk back over a serving node follows its chain. -/
theorem Node.Serves.walksChain {node : Node} (hnode : node.Serves remote) :
    WalksChain node remote := by
  intro h
  have hat := hnode.atWalk h
  unfold AnswersAt at hat
  cases hblock : remote[h]? with
  | none =>
    rw [hblock] at hat
    obtain ⟨e, he, -⟩ := hat
    exact ⟨e, he⟩
  | some block =>
    rw [hblock] at hat
    exact hat

/-- A node that is behind on another chain makes the poll walk back from the node's tip. -/
theorem pollOnce_walks_below (p : Poller) {node : Node} (hne : remote ≠ [])
    (hnode : node.Serves remote) (hs : ChainState chain s) (hshort : remote.length < chain.length)
    (hno : ¬ SameBlock chain remote (remote.length - 1)) :
    (pollOnce p node).run s = (rewindToCommonAncestor node (remote.length - 1)).run s := by
  have hpos := List.length_pos_iff.mpr hne
  have hlast : remote.getLast? = some remote[remote.length - 1] := by
    rw [List.getLast?_eq_getElem?, List.getElem?_eq_getElem (by omega)]
  have hlast' : remote[remote.length - 1]? = some remote[remote.length - 1] :=
    List.getElem?_eq_getElem (by omega)
  have htip : chainTip chain = some (chain.length - 1, chain[chain.length - 1].hash) :=
    chainTip_of_last (List.getElem?_eq_getElem (by omega)) (by omega)
  have hcached : chain[remote.length - 1]? = some chain[remote.length - 1] :=
    List.getElem?_eq_getElem (by omega)
  have hdiff : chain[remote.length - 1].hash ≠ remote[remote.length - 1].header.hash :=
    fun heq => hno ⟨_, _, hcached, hlast', heq.symm⟩
  apply pollOnce_acts p (.reorgFrom (remote.length - 1)) hs (hnode.lastConfirmedBlock _ hlast) htip
    (hnode.remoteHash_above hne (by omega) _ _)
  unfold classifyTips chainMap
  simp only [if_pos (show remote.length - 1 < chain.length - 1 by omega), hcached,
    Option.map_some, Option.some.injEq, if_neg hdiff,
    Nat.min_eq_left (show remote.length - 1 ≤ chain.length - 1 by omega)]

/-- A cached tip that the node does not have makes the poll walk back from there. -/
theorem pollOnce_walks_tip (p : Poller) {node : Node} (hnode : node.Serves remote)
    (hs : ChainState chain s) (hpos : 0 < chain.length) (hle : chain.length ≤ remote.length)
    (hno : ¬ SameBlock chain remote (chain.length - 1)) :
    (pollOnce p node).run s = (rewindToCommonAncestor node (chain.length - 1)).run s := by
  have hlast : remote.getLast? = some remote[remote.length - 1] := by
    rw [List.getLast?_eq_getElem?, List.getElem?_eq_getElem (by omega)]
  have hlast' : remote[remote.length - 1]? = some remote[remote.length - 1] :=
    List.getElem?_eq_getElem (by omega)
  have hself : chain[chain.length - 1]? = some chain[chain.length - 1] :=
    List.getElem?_eq_getElem (by omega)
  obtain ⟨info, hinfo⟩ : ∃ info, remote[chain.length - 1]? = some info :=
    ⟨_, List.getElem?_eq_getElem (by omega)⟩
  have hdiff : info.header.hash ≠ chain[chain.length - 1].hash :=
    fun heq => hno ⟨_, _, hself, hinfo, heq⟩
  apply pollOnce_acts p (.reorgFrom (chain.length - 1)) hs (hnode.lastConfirmedBlock _ hlast)
    (chainTip_of_last hself (by omega)) (hnode.remoteHash hinfo hlast' _)
  unfold classifyTips
  simp only [if_neg (show ¬ remote.length - 1 < chain.length - 1 by omega), ne_eq, hdiff,
    not_false_eq_true, if_true]
  by_cases heq : chain.length - 1 = remote.length - 1
  · rw [heq, hlast'] at hinfo
    rw [if_pos heq, if_neg (fun h => hdiff (by rw [h, Option.some.inj hinfo]))]
  · rw [if_neg heq]

/-- A poll that finds a block in the cache that is not the node's rewinds the tip at least. -/
theorem pollOnce_rewinds (p : Poller) {node : Node} (hid : HashesIdentify served)
    (hremote : RemoteChain remote) (hserved : ∀ block ∈ remote, served block) (hne : remote ≠ [])
    (hnode : node.Serves remote) (hs : PolledState d served remote chain s)
    (hf : ¬ Follows chain remote) (hc : ¬ Covers chain remote) :
    ∃ chain', ChainState chain' ((pollOnce p node).exec s) ∧ chain'.length < chain.length := by
  have hpos := List.length_pos_iff.mpr hne
  have hchain : 0 < chain.length := by
    rw [List.length_pos_iff]
    rintro rfl
    exact hf (Follows.nil remote)
  have hle := hs.state.short
  -- the poll walks back, from below the tip or from a tip that the node does not have
  have hwalks : ∃ start, (pollOnce p node).run s = (rewindToCommonAncestor node start).run s ∧
      start ≤ chain.length - 1 ∧
      (start = chain.length - 1 → ¬ SameBlock chain remote (chain.length - 1)) := by
    by_cases hshort : remote.length < chain.length
    · refine ⟨remote.length - 1, pollOnce_walks_below p hne hnode hs.state hshort fun hsame => ?_,
        by omega, by omega⟩
      exact hc fun k hk => hs.sameBlock_of_le hid hremote hserved (by omega) hsame
    · have hno : ¬ SameBlock chain remote (chain.length - 1) :=
        fun h => hf fun k hk => hs.sameBlock_of_le hid hremote hserved (by omega) h
      exact ⟨chain.length - 1, pollOnce_walks_tip p hnode hs.state hchain (by omega) hno, le_rfl,
        fun _ => hno⟩
  obtain ⟨start, hstart, hstartLe, hstartTip⟩ := hwalks
  obtain ⟨t, htarget⟩ := walkTarget_exists (m := chainMap chain) hnode.not_isConnection start 0
  obtain ⟨hts, -, -, hat⟩ := walkTarget_spec htarget
  rw [hnode.walksChain.agreesAt_iff] at hat
  have hlt : t < chain.length - 1 := by
    by_contra hge
    have htl : t = chain.length - 1 := by omega
    have hno := hstartTip (by omega)
    rcases hat with hagree | hlimit
    · exact hno (by rwa [← htl])
    · -- only a walk from height 0 ends at its start without agreement
      have h0 : chain.length - 1 = 0 := by
        unfold maxWalk at hlimit
        omega
      rw [h0] at hno
      exact hno (hs.genesis_sameBlock hchain)
  have hnoWrap : walkTarget (chainMap chain) node start 0 ≠ .ok u32Max := by
    rw [htarget]
    intro heq
    have := Except.ok.inj heq
    omega
  have hwalk := rewindToCommonAncestor_run hs.state (show start < chain.length by omega) hnoWrap
  rw [htarget] at hwalk
  obtain ⟨-, s', hwalk, hstate⟩ := hwalk
  refine ⟨chain.take (t + 1), ?_, ?_⟩
  · unfold Prog.exec
    rw [hstart, hwalk]
    exact hstate
  · rw [List.length_take]
    omega

end Polled

/-! ## The theorem -/

/-- The cache holds the blocks of `remote`, processed, and no others, or others above them. -/
def HoldsRemote (d : Darkfi) (remote : List BlockInfo) (s : Cache) : Prop :=
  ∃ chain : List CompactBlock, s.db.blocks.HoldsChain chain ∧
    (∀ (k : ℕ) (block : BlockInfo), remote[k]? = some block → ∃ c c₀ : CompactBlock, chain[k]? = some c ∧
      processBlock d block = .ok c₀ ∧ c.SameBeside c₀) ∧
    (chain.length = remote.length ∨ remote.length < chain.length)

/-- A poll of a node that serves `remote`. -/
def ServedPoll (d : Darkfi) (remote : List BlockInfo) (f : Cache → Cache) : Prop :=
  ∃ (p : Poller) (node : Node), p.darkfi = d ∧ node.Serves remote ∧ f = (pollOnce p node).exec

open Classical in
/-- How far a cached chain is from `remote`: the blocks to fetch, once all cached blocks are
on it, and before that the blocks that may have to go. -/
noncomputable def distance (remote : List BlockInfo) (chain : List CompactBlock) : ℕ :=
  if Follows chain remote then remote.length - chain.length
  else remote.length + chain.length + 1

section Convergence

variable {d : Darkfi} {served : BlockInfo → Prop} {remote : List BlockInfo}
  (hid : HashesIdentify served) (hremote : RemoteChain remote)
  (hserved : ∀ block ∈ remote, served block) (hne : remote ≠ [])

/-- A polled chain that covers the remote one holds it, clues aside. -/
theorem PolledState.holdsRemote (hid : HashesIdentify served)
    (hserved : ∀ block ∈ remote, served block) {chain : List CompactBlock} {s : Cache}
    (hs : PolledState d served remote chain s) (hc : Covers chain remote) :
    HoldsRemote d remote s := by
  have hle := hc.length_le
  refine ⟨chain, hs.state.holdsChain, fun k block hblock => ?_, by omega⟩
  obtain ⟨cached, block', hcached, hblock', hhash⟩ := hc k (List.getElem?_eq_some_iff.mp hblock).1
  rw [hblock] at hblock'
  cases hblock'
  obtain ⟨c₀, hprocess, hsame⟩ := hs.processed_of_hash hid hcached
    (hserved _ (List.mem_of_getElem? hblock)) hhash
  exact ⟨cached, c₀, hcached, hprocess, hsame⟩

include hid hremote hserved hne

/-- One poll of `remote` either finds all of it in the cache or comes closer to it. -/
theorem PolledState.poll_closer {p : Poller} {node : Node} (hd : p.darkfi = d)
    (hproc : Processable p remote) (hnode : node.Serves remote) {chain : List CompactBlock}
    {s : Cache} (hs : PolledState d served remote chain s) :
    Covers chain remote ∨ ∃ chain',
      PolledState d served remote chain' ((pollOnce p node).exec s) ∧
        distance remote chain' < distance remote chain := by
  by_cases hc : Covers chain remote
  · exact Or.inl hc
  obtain ⟨chain', hs'⟩ := hs.poll p node
    ⟨hd, remote, hremote, rfl, hserved, hnode.answersFrom hne⟩
  refine Or.inr ⟨chain', hs', ?_⟩
  unfold distance
  by_cases hf : Follows chain remote
  · have hlt : chain.length < remote.length := by
      by_contra hge
      exact hc fun k hk => hf k (by omega)
    obtain ⟨next, s', r, hrun, hstate, hf', hlen⟩ :=
      pollOnce_advances hremote hnode hproc hs.state hf hlt
    have hexec : (pollOnce p node).exec s = s' := by
      unfold Prog.exec
      rw [hrun]
    rw [hexec] at hs'
    have heq := hs'.state.unique hstate
    subst heq
    rw [if_pos hf, if_pos hf', hlen]
    unfold fetchedLength
    split_ifs <;> omega
  · obtain ⟨next, hstate, hlen⟩ :=
      pollOnce_rewinds p hid hremote hserved hne hnode hs hf hc
    have heq := hs'.state.unique hstate
    subst heq
    rw [if_neg hf]
    split_ifs <;> omega

/-- From every cache that polls of chains with the genesis block of `remote` lead to, polls of
`remote` reach a state that they leave alone, and that holds `remote`. -/
theorem poller_converges {s : Cache} (hs : PollRun (EarlierPoll d served remote) s)
    (hproc : ∀ block ∈ remote, ∃ c, processBlock d block = .ok c) (polls : ℕ → Poller × Node)
    (hpolls : ∀ i, (polls i).1.darkfi = d ∧ (polls i).2.Serves remote) :
    ∃ n, HoldsRemote d remote
        (iterate (fun i => (pollOnce (polls i).1 (polls i).2).exec) n s) ∧
      ∀ i, iterate (fun i => (pollOnce (polls i).1 (polls i).2).exec) (n + i) s =
        iterate (fun i => (pollOnce (polls i).1 (polls i).2).exec) n s := by
  obtain ⟨chain, hs⟩ := hs.polledState
  have hstep : ∀ f, ServedPoll d remote f → ∀ chain s, PolledState d served remote chain s →
      Covers chain remote ∨ ∃ chain', PolledState d served remote chain' (f s) ∧
        distance remote chain' < distance remote chain := by
    rintro f ⟨p, node, rfl, hnode, rfl⟩ chain s hs
    exact hs.poll_closer hid hremote hserved hne rfl hproc hnode
  have hstay : ∀ f, ServedPoll d remote f → ∀ chain s, PolledState d served remote chain s →
      Covers chain remote → f s = s := by
    rintro f ⟨p, node, -, hnode, rfl⟩ chain s hs hc
    unfold Prog.exec
    rw [pollOnce_covers p hne hnode hs.state hc]
  obtain ⟨n, chain', hs', hc, hrest⟩ := iterate_reaches (measure (distance remote)).wf hstep hstay
    (fun i => ⟨_, _, (hpolls i).1, (hpolls i).2, rfl⟩) hs
  exact ⟨n, hs'.holdsRemote hid hserved hc, hrest⟩

end Convergence

/-- Two chains with one genesis block, and the blocks on them. -/
def forkA : List BlockInfo := [.bare 0 0 1, .bare 1 1 2]

/-- The other fork: the same genesis block, then other blocks. -/
def forkB : List BlockInfo := [.bare 0 0 1, .bare 1 1 3, .bare 2 3 4]

/-- The blocks of both forks. -/
def onForks (block : BlockInfo) : Prop := block ∈ forkA ++ forkB

/-- The first fork is one a node can serve. -/
theorem forkA_remoteChain : RemoteChain forkA := by
  refine ⟨fun k block hblock => ?_, fun k low high hlow hhigh => ?_, by decide⟩
  · match k with
    | 0 => cases hblock; rfl
    | 1 => cases hblock; rfl
    | k + 2 => cases hblock
  · match k with
    | 0 => cases hlow; cases hhigh; rfl
    | k + 1 => cases hhigh

/-- So is the second. -/
theorem forkB_remoteChain : RemoteChain forkB := by
  refine ⟨fun k block hblock => ?_, fun k low high hlow hhigh => ?_, by decide⟩
  · match k with
    | 0 => cases hblock; rfl
    | 1 => cases hblock; rfl
    | 2 => cases hblock; rfl
    | k + 3 => cases hblock
  · match k with
    | 0 => cases hlow; cases hhigh; rfl
    | 1 => cases hlow; cases hhigh; rfl
    | k + 2 => cases hhigh

/-- A cache that polled `forkA` twice ends up with `forkB`. -/
theorem poller_converges_forks :
    ∃ n, HoldsRemote .blank forkB (iterate (fun _ => (pollOnce (.blank 5) (.serving forkB)).exec) n
        ((pollOnce (.blank 5) (.serving forkA)).exec
          ((pollOnce (.blank 5) (.serving forkA)).exec .initial))) ∧
      ∀ i, iterate (fun _ => (pollOnce (.blank 5) (.serving forkB)).exec) (n + i)
          ((pollOnce (.blank 5) (.serving forkA)).exec
            ((pollOnce (.blank 5) (.serving forkA)).exec .initial)) =
        iterate (fun _ => (pollOnce (.blank 5) (.serving forkB)).exec) n
          ((pollOnce (.blank 5) (.serving forkA)).exec
            ((pollOnce (.blank 5) (.serving forkA)).exec .initial)) := by
  have hid : HashesIdentify onForks := by
    have h : ∀ b ∈ forkA ++ forkB, ∀ b' ∈ forkA ++ forkB, b.header.hash = b'.header.hash → b = b' := by
      decide
    exact fun b b' hb hb' => h b hb b' hb'
  have hserves := Node.serving_serves forkB_remoteChain
  have hA := Node.serving_serves forkA_remoteChain
  have hpoll : ∀ s, EarlierPoll .blank onForks forkB (.blank 5) (.serving forkA) s := fun s =>
    ⟨rfl, forkA, forkA_remoteChain, rfl, fun b hb => List.mem_append_left _ hb,
      hA.answersFrom (List.cons_ne_nil _ _)⟩
  refine poller_converges hid forkB_remoteChain (fun b hb => List.mem_append_right _ hb)
    (List.cons_ne_nil _ _)
    (.poll _ _ _ (.poll _ _ _ (.empty 0 _ new_initial) (hpoll _)) (hpoll _)) ?_
    (fun _ => (.blank 5, .serving forkB)) (fun _ => ⟨rfl, hserves⟩)
  have hproc : ∀ block ∈ forkB, (processBlock .blank block).isOk = true := by decide
  intro block hblock
  cases hb : processBlock .blank block with
  | ok c => exact ⟨c, rfl⟩
  | error e =>
    have := hproc block hblock
    rw [hb] at this
    cases this

/-- A block with more transactions than the block processor takes. -/
@[irreducible] def heavyBlock : BlockInfo :=
  ⟨⟨1, Bytes32.fill 1, 0, Bytes32.fill 2⟩, List.replicate (maxTxsPerBlock + 1) ⟨Bytes32.fill 0, []⟩⟩

/-- A genesis block with a heavy block above it. -/
def heavyChain : List BlockInfo := [.bare 0 0 1, heavyBlock]

/-- The header of the heavy block. -/
theorem heavyBlock_header : heavyBlock.header = ⟨1, Bytes32.fill 1, 0, Bytes32.fill 2⟩ := by
  unfold heavyBlock
  rfl

/-- The heavy block is refused. -/
theorem heavyBlock_refused : ∃ e, processBlock .blank heavyBlock = .error e := by
  unfold processBlock heavyBlock
  rw [if_pos (by rw [List.length_replicate]; exact Nat.lt_succ_self _)]
  exact ⟨_, rfl⟩

/-- The chain with the heavy block is one a node can serve. -/
theorem heavyChain_remoteChain : RemoteChain heavyChain := by
  refine ⟨fun k block hblock => ?_, fun k low high hlow hhigh => ?_, by decide⟩
  · match k with
    | 0 => cases hblock; rfl
    | 1 =>
      cases hblock
      rw [heavyBlock_header]
    | k + 2 => cases hblock
  · match k with
    | 0 =>
      cases hlow
      cases hhigh
      rw [heavyBlock_header]
      rfl
    | k + 1 => cases hhigh

/-- With the genesis block cached, polls of the heavy chain never get past it. -/
theorem heavy_block_blocks_convergence :
    RemoteChain heavyChain ∧ HashesIdentify (· ∈ heavyChain) ∧
      (Node.serving heavyChain).Serves heavyChain ∧
      PollRun (EarlierPoll .blank (· ∈ heavyChain) heavyChain)
        ((pollOnce (.blank 1) (.serving heavyChain)).exec .initial) ∧
      ∀ n, ¬ HoldsRemote .blank heavyChain
        (iterate (fun _ => (pollOnce (.blank 1) (.serving heavyChain)).exec) n
          ((pollOnce (.blank 1) (.serving heavyChain)).exec .initial)) := by
  have hremote := heavyChain_remoteChain
  have hserves := Node.serving_serves hremote
  have hinit : ChainState [] Cache.initial := .of_new new_initial
  refine ⟨hremote, ?_, hserves, .poll _ _ _ (.empty 0 _ new_initial)
    ⟨rfl, heavyChain, hremote, rfl, fun b hb => hb, hserves.answersFrom (List.cons_ne_nil _ _)⟩, ?_⟩
  · have hne : (BlockInfo.bare 0 0 1).header.hash ≠ heavyBlock.header.hash := by
      rw [heavyBlock_header]
      decide
    intro b b' hb hb' heq
    simp only [heavyChain, List.mem_cons, List.not_mem_nil, or_false] at hb hb'
    rcases hb with rfl | rfl <;> rcases hb' with rfl | rfl
    · rfl
    · exact absurd heq hne
    · exact absurd heq.symm hne
    · rfl
  · -- the first poll caches the genesis block
    have hlength : heavyChain.length = 2 := rfl
    have hfirst : heavyChain[0]? = some (.bare 0 0 1) := rfl
    have hsecond : heavyChain[1]? = some heavyBlock := rfl
    obtain ⟨merged, s₁, hsame, hs₁, hrun₁⟩ := fetchBlocks_extends (.blank 1) hinit (Nat.zero_le _)
      ((hserves.atFetch 0).ok hfirst) rfl rfl rfl [] 0
    have hexec : (pollOnce (.blank 1) (.serving heavyChain)).exec .initial = s₁ := by
      have hfetch := pollOnce_fetches (.blank 1) hremote hserves hinit (Follows.nil _)
        (by rw [hlength]; decide)
      unfold Prog.exec
      rw [hfetch]
      exact congrArg Prod.snd hrun₁
    have hf : Follows ([] ++ [merged]) heavyChain :=
      (Follows.nil heavyChain).concat hfirst hsame.hash.symm
    -- every other poll ends at the heavy block
    obtain ⟨e, he⟩ := heavyBlock_refused
    have hstuck : (pollOnce (.blank 1) (.serving heavyChain)).exec s₁ = s₁ := by
      have hfetch := pollOnce_fetches (.blank 1) hremote hserves hs₁ hf (Nat.lt_succ_self 1)
      have hrefused := fetchBlocks_refused (.blank 1) hs₁.rows ((hserves.atFetch 1).ok hsecond)
        (hf.linkBroken_eq_false hremote hsecond) he [] 0
      unfold Prog.exec
      rw [hfetch]
      exact congrArg Prod.snd hrefused
    intro n
    rw [hexec, iterate_eq_self (fun _ => hstuck)]
    rintro ⟨chain, hchain, -, hlen⟩
    have heq : chain = [merged] :=
      List.ext_getElem? fun k => congrFun (hchain.rows.unique hs₁.rows rfl) k
    rw [heq, hlength] at hlen
    simp at hlen

end LightWalletd
