import LightWalletd.Analysis.PollStep

/-!
# Polling one chain

What a poll does when the node serves the blocks of one chain: a cache that has the first
blocks of it fetches the next ones, and every one of them links.
-/

set_option autoImplicit false

namespace LightWalletd

open Stateful

/-- A chain of full blocks: block `k` has height `k` and names the hash of the one below. -/
structure RemoteChain (remote : List BlockInfo) : Prop where
  height : ∀ k (block : BlockInfo), remote[k]? = some block → block.header.height = k
  linked : ∀ k (low high : BlockInfo), remote[k]? = some low → remote[k + 1]? = some high →
    high.header.previous = low.header.hash
  short : remote.length ≤ u32Max + 1

/-- The answer for height `k` of a node with the chain `remote`: its block there, or an error
that is no lost connection. -/
def AnswersAt (remote : List BlockInfo) (k : ℕ) (answer : Except LightWalletError BlockInfo) :
    Prop :=
  match remote[k]? with
  | some block => answer = .ok block
  | none => ∃ e, answer = .error e ∧ e.isConnection = false

/-- The node answers every call from `remote`, whose last block is its last confirmed one. -/
structure Node.Serves (node : Node) (remote : List BlockInfo) : Prop where
  lastConfirmedBlock : ∀ block, remote.getLast? = some block →
    node.lastConfirmedBlock = .ok (remote.length - 1, .ok block.header.hash)
  atCachedTip : ∀ k, AnswersAt remote k (node.atCachedTip k)
  atFetch : ∀ k, AnswersAt remote k (node.atFetch k)
  atWalk : ∀ k, AnswersAt remote k (node.atWalk k)

/-- The answer at a height of the chain is its block. -/
theorem AnswersAt.ok {remote : List BlockInfo} {k : ℕ} {block : BlockInfo}
    {answer : Except LightWalletError BlockInfo} (h : AnswersAt remote k answer)
    (hblock : remote[k]? = some block) : answer = .ok block := by
  unfold AnswersAt at h
  rwa [hblock] at h

/-- Above the chain the answer is an error, and not one of the connection. -/
theorem AnswersAt.missing {remote : List BlockInfo} {k : ℕ}
    {answer : Except LightWalletError BlockInfo} (h : AnswersAt remote k answer)
    (hblock : remote[k]? = none) : ∃ e, answer = .error e ∧ e.isConnection = false := by
  unfold AnswersAt at h
  rwa [hblock] at h

/-- An answer with a block has the block of the chain. -/
theorem AnswersAt.of_ok {remote : List BlockInfo} {k : ℕ} {block : BlockInfo}
    {answer : Except LightWalletError BlockInfo} (h : AnswersAt remote k answer)
    (hok : answer = .ok block) : remote[k]? = some block := by
  cases hblock : remote[k]? with
  | none =>
    obtain ⟨e, he, -⟩ := h.missing hblock
    rw [hok] at he
    cases he
  | some block' =>
    rw [h.ok hblock] at hok
    cases hok
    rfl

/-- The block of an answer is at its height. -/
theorem AnswersAt.height {remote : List BlockInfo} (hremote : RemoteChain remote) {k : ℕ}
    {block : BlockInfo} {answer : Except LightWalletError BlockInfo}
    (h : AnswersAt remote k answer) (hok : answer = .ok block) : block.header.height = k :=
  hremote.height k block (h.of_ok hok)

/-- At a cached height that it has, the node reports the hash of its block. -/
theorem Node.Serves.remoteHash {node : Node} {remote : List BlockInfo} (hnode : node.Serves remote)
    {t : ℕ} {block top : BlockInfo} (hblock : remote[t]? = some block)
    (htop : remote[remote.length - 1]? = some top) (hash : Bytes32) :
    remoteHashAtCachedTip node (some (t, hash)) (remote.length - 1) top.header.hash =
      .ok (some block.header.hash) := by
  unfold remoteHashAtCachedTip
  by_cases heq : t = remote.length - 1
  · rw [heq, htop] at hblock
    simp only [if_pos heq, Option.some.inj hblock]
  · simp only [if_neg heq, (hnode.atCachedTip _).ok hblock]

/-- Above its tip the node reports none. -/
theorem Node.Serves.remoteHash_above {node : Node} {remote : List BlockInfo}
    (hnode : node.Serves remote) {t : ℕ} (hne : remote ≠ []) (ht : remote.length ≤ t)
    (hash remoteHash : Bytes32) :
    remoteHashAtCachedTip node (some (t, hash)) (remote.length - 1) remoteHash = .ok none := by
  obtain ⟨e, he, hconn⟩ := (hnode.atCachedTip t).missing (List.getElem?_eq_none ht)
  have hpos := List.length_pos_iff.mpr hne
  unfold remoteHashAtCachedTip
  simp only [if_neg (show t ≠ remote.length - 1 by omega), he, hconn, Bool.false_eq_true, if_false]

/-- A walk meets no broken connection. -/
theorem Node.Serves.not_isConnection {node : Node} {remote : List BlockInfo}
    (hnode : node.Serves remote) (h : ℕ) (e : LightWalletError) (he : node.atWalk h = .error e) :
    e.isConnection = false := by
  have hat := hnode.atWalk h
  cases hblock : remote[h]? with
  | none =>
    obtain ⟨e', he', hconn⟩ := hat.missing hblock
    rw [he] at he'
    cases he'
    exact hconn
  | some block =>
    rw [hat.ok hblock] at he
    cases he

/-- A node that serves a remote chain serves blocks at their heights. -/
theorem Node.Serves.atHeights {node : Node} {remote : List BlockInfo} (hnode : node.Serves remote)
    (hremote : RemoteChain remote) (hne : remote ≠ []) : node.AtHeights where
  lastConfirmedBlock := by
    intro h hash hconf
    have hlast := List.getLast?_eq_some_getLast hne
    rw [hnode.lastConfirmedBlock _ hlast] at hconf
    cases hconf
    have := hremote.short
    omega
  atCachedTip := fun h _ hok => (hnode.atCachedTip h).height hremote hok
  atFetch := fun h _ hok => (hnode.atFetch h).height hremote hok
  atWalk := fun h _ hok => (hnode.atWalk h).height hremote hok

/-- Every block of `remote` passes the block processor. -/
def Processable (p : Poller) (remote : List BlockInfo) : Prop :=
  ∀ block ∈ remote, ∃ c, processBlock p.darkfi block = .ok c

/-- The cached chain has the first blocks of `remote`. -/
def Follows (chain : List CompactBlock) (remote : List BlockInfo) : Prop :=
  ∀ k, k < chain.length → SameBlock chain remote k

section Fetch

variable {chain : List CompactBlock} {remote : List BlockInfo} {s : Cache} {p : Poller}
  {node : Node}

/-- No blocks follow every chain. -/
theorem Follows.nil (remote : List BlockInfo) : Follows [] remote :=
  fun k hk => absurd hk (Nat.not_lt_zero k)

/-- A chain and its prefixes have the same blocks below the prefix's end. -/
theorem SameBlock.of_prefix {chain' : List CompactBlock} {k : ℕ} (hpre : chain' <+: chain)
    (hk : k < chain'.length) : SameBlock chain' remote k ↔ SameBlock chain remote k := by
  obtain ⟨rest, rfl⟩ := hpre
  unfold SameBlock
  rw [List.getElem?_append_left hk]

/-- One more block of the chain. -/
theorem Follows.concat (hf : Follows chain remote) {block : BlockInfo} {c : CompactBlock}
    (hblock : remote[chain.length]? = some block) (hhash : block.header.hash = c.hash) :
    Follows (chain ++ [c]) remote := by
  intro k hk
  rw [List.length_append, List.length_singleton] at hk
  by_cases heq : k = chain.length
  · subst heq
    exact ⟨c, block, List.getElem?_concat_length, hblock, hhash⟩
  · rw [← SameBlock.of_prefix (List.prefix_append chain [c]) (by omega)]
    exact hf k (by omega)

/-- The next block of the chain it follows links to the cached chain. -/
theorem Follows.linkBroken_eq_false (hf : Follows chain remote) (hremote : RemoteChain remote)
    {block : BlockInfo} (hblock : remote[chain.length]? = some block) :
    linkBroken (chainMap chain) chain.length block = false := by
  unfold linkBroken
  by_cases h0 : chain.length = 0
  · rw [if_pos h0]
  · obtain ⟨cached, low, hcached, hlow, hhash⟩ := hf (chain.length - 1) (by omega)
    have hlink := hremote.linked (chain.length - 1) low block hlow
      (by rwa [show chain.length - 1 + 1 = chain.length by omega])
    rw [if_neg h0]
    unfold chainMap
    rw [hcached]
    simp [hlink, hhash]

/-- Fetching from a chain of which the cache has the first blocks adds the next ones. -/
theorem fetchBlocks_follows (hremote : RemoteChain remote) (hnode : node.Serves remote)
    (hproc : Processable p remote) (n processed : ℕ) (hs : ChainState chain s)
    (hf : Follows chain remote) (hlen : chain.length + n ≤ remote.length) :
    ∃ chain' s' r, (fetchBlocks p node (List.range' chain.length n) processed).run s = (.ok r, s') ∧
      ChainState chain' s' ∧ Follows chain' remote ∧ chain'.length = chain.length + n := by
  induction n generalizing chain s processed with
  | zero => exact ⟨chain, s, processed, rfl, hs, hf, rfl⟩
  | succ n ih =>
    have hlt : chain.length < remote.length := by omega
    have hblock : remote[chain.length]? = some remote[chain.length] :=
      List.getElem?_eq_getElem hlt
    obtain ⟨c, hc⟩ := hproc _ (List.getElem_mem hlt)
    have hshort := hremote.short
    obtain ⟨merged, s', hsame, hstate, hrun⟩ := fetchBlocks_extends p hs (by omega)
      ((hnode.atFetch _).ok hblock) (hremote.height _ _ hblock)
      (hf.linkBroken_eq_false hremote hblock) hc
      (List.range' (chain.length + 1) n) processed
    have hlength : (chain ++ [merged]).length = chain.length + 1 := by simp
    have hnext : Follows (chain ++ [merged]) remote :=
      hf.concat hblock (by rw [hsame.hash, (processBlock_ok hc).2.1])
    obtain ⟨chain', s'', r, hrest, hstate', hf', hlen'⟩ :=
      ih (wrappingAdd processed 1) hstate hnext (by omega)
    rw [hlength] at hrest
    refine ⟨chain', s'', r, ?_, hstate', hf', by omega⟩
    rw [List.range'_succ, hrun, hrest]

/-- The number of blocks cached after a poll that fetches: the genesis block first, then a
batch, of one block when the batch size is 0. -/
def fetchedLength (p : Poller) (cached remote : ℕ) : ℕ :=
  if cached = 0 then 1 else min (cached + max p.batchSize 1) remote

/-- A poll of a chain of which the cache has the first blocks, but not all, fetches. -/
theorem pollOnce_fetches (p : Poller) (hremote : RemoteChain remote) (hnode : node.Serves remote)
    (hs : ChainState chain s) (hf : Follows chain remote) (hlt : chain.length < remote.length) :
    (pollOnce p node).run s = (fetchBlocks p node (List.range' chain.length
      (fetchedLength p chain.length remote.length - chain.length)) 0).run s := by
  have hlast : remote.getLast? = some remote[remote.length - 1] := by
    rw [List.getLast?_eq_getElem?, List.getElem?_eq_getElem (by omega)]
  have hconf := hnode.lastConfirmedBlock _ hlast
  unfold fetchedLength
  cases htip : chainTip chain with
  | none =>
    have hnil := chainTip_eq_none_iff.mp htip
    subst hnil
    have hrun := pollOnce_run p node hs
    simp only [hconf, htip] at hrun
    rw [hrun, fetchRange, batchHeights_genesis]
    rfl
  | some tip =>
    obtain ⟨t, hash⟩ := tip
    obtain ⟨block, hblock, hlen, hhash⟩ := chainTip_eq_some_iff.mp htip
    obtain ⟨cached, info, hcached, hinfo, hsame⟩ := hf t (by omega)
    have hshort := hremote.short
    -- the node has the cached tip, and more
    have hat : remoteHashAtCachedTip node (some (t, hash)) (remote.length - 1)
        (remote[remote.length - 1]).header.hash = .ok (some hash) := by
      rw [hnode.remoteHash hinfo (List.getElem?_eq_getElem (by omega)), hsame]
      rw [hblock] at hcached
      cases hcached
      rw [hhash]
    have haction : classifyTips (some (t, hash)) (remote.length - 1)
        (remote[remote.length - 1]).header.hash
        ((chainMap chain (remote.length - 1)).map CompactBlock.hash) (some hash) =
        .fetch (saturatingAdd t 1) (remote.length - 1) := by
      unfold classifyTips
      simp only [if_neg (show ¬ remote.length - 1 < t by omega),
        if_neg (show t ≠ remote.length - 1 by omega), ne_eq, not_true_eq_false, if_false]
    have hnext : saturatingAdd t 1 = chain.length := by
      unfold saturatingAdd
      omega
    have hbatch : batchHeights p chain.length (remote.length - 1) = List.range' chain.length
        (min (chain.length + max p.batchSize 1) remote.length - chain.length) := by
      simp only [batchHeights, saturatingAdd]
      congr 1
      omega
    rw [pollOnce_acts p _ hs hconf htip hat haction, actOn, fetchRange, hnext, hbatch,
      if_neg (show chain.length ≠ 0 by omega)]

/-- Such a poll adds the next blocks, unless one of them is not processed. -/
theorem pollOnce_advances (hremote : RemoteChain remote) (hnode : node.Serves remote)
    (hproc : Processable p remote) (hs : ChainState chain s) (hf : Follows chain remote)
    (hlt : chain.length < remote.length) :
    ∃ chain' s' r, (pollOnce p node).run s = (.ok r, s') ∧ ChainState chain' s' ∧
      Follows chain' remote ∧ chain'.length = fetchedLength p chain.length remote.length := by
  have hbound : chain.length < fetchedLength p chain.length remote.length ∧
      fetchedLength p chain.length remote.length ≤ remote.length := by
    unfold fetchedLength
    split_ifs <;> omega
  obtain ⟨chain', s', r, hfetch, hstate, hf', hlen'⟩ := fetchBlocks_follows hremote hnode hproc
    (fetchedLength p chain.length remote.length - chain.length) 0 hs hf (by omega)
  rw [pollOnce_fetches p hremote hnode hs hf hlt]
  exact ⟨chain', s', r, hfetch, hstate, hf', by omega⟩

end Fetch

/-- The node with the chain `remote` serves it. -/
theorem Node.serving_serves {remote : List BlockInfo} (hremote : RemoteChain remote) :
    (Node.serving remote).Serves remote := by
  have hanswer : ∀ k, AnswersAt remote k
      (remote[k]?.elim (.error (.rpcError "block not found")) .ok) := by
    intro k
    unfold AnswersAt
    cases remote[k]? with
    | none => exact ⟨_, rfl, rfl⟩
    | some block => rfl
  refine ⟨fun block hblock => ?_, hanswer, hanswer, hanswer⟩
  unfold Node.serving
  simp only [hblock]
  rw [List.getLast?_eq_getElem?] at hblock
  rw [hremote.height _ _ hblock]

end LightWalletd
