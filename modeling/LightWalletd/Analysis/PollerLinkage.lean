import LightWalletd.Analysis.HintCodec
import LightWalletd.Analysis.ServedChain

/-!
# Chain linkage

Whatever the node answers, and however it changes its answers within a poll, the cached
blocks are those of the heights `0..=tip`, the tip hash is that of the block there, and
every block names the hash of the one below. The one poll that breaks this rewinds to the
last height.
-/

set_option autoImplicit false

namespace LightWalletd

open Stateful

/-- The caches that polls lead to from an empty one, each poll with its own answers. -/
inductive PollRun (allowed : Poller → Node → Cache → Prop) : Cache → Prop
  | empty (now : ℕ) (s : Cache) : Cache.new now .empty = .ok s → PollRun allowed s
  | poll (p : Poller) (node : Node) (s : Cache) : PollRun allowed s → allowed p node s →
      PollRun allowed ((pollOnce p node).exec s)

/-- The cached heights are `0..=tip`, linked, with the hash of the tip block as tip hash; or
there are no blocks and there is no tip. -/
def Linkage (s : Cache) : Prop :=
  ((∀ h, s.db.blocks.compactBlocks.get h = none) ∧ s.db.blocks.readTip = .ok none) ∨
    ∃ tip block, s.db.blocks.readTip = .ok (some (tip, block.hash)) ∧
      s.db.blocks.compactBlocks.get tip = some (.value block) ∧
      (∀ h, (s.db.blocks.compactBlocks.get h).isSome ↔ h ≤ tip) ∧
      ∀ h < tip, ∃ low high, s.db.blocks.compactBlocks.get h = some (.value low) ∧
        s.db.blocks.compactBlocks.get (h + 1) = some (.value high) ∧ high.prevHash = low.hash

section State

variable {chain : List CompactBlock} {s : Cache}

/-- In a chain state every block is linked to the one below. -/
theorem ChainState.linkage (hs : ChainState chain s) : Linkage s := by
  cases htip : chainTip chain with
  | none =>
    rw [chainTip_eq_none_iff.mp htip] at hs
    exact Or.inl ⟨fun h => by rw [hs.rows.compactBlocks]; rfl, hs.readTip⟩
  | some tip =>
    obtain ⟨t, hash⟩ := tip
    obtain ⟨block, hblock, hlen, rfl⟩ := chainTip_eq_some_iff.mp htip
    refine Or.inr ⟨t, block, by rw [hs.readTip, htip], ?_, fun h => ?_, fun h hlt => ?_⟩
    · rw [hs.rows.compactBlocks, chainMap, hblock]
      rfl
    · rw [hs.rows.compactBlocks, Option.isSome_map, chainMap_isSome]
      omega
    · have hlow : h + 1 < chain.length := by omega
      refine ⟨chain[h], chain[h + 1], ?_, ?_, List.isChain_iff_getElem.mp hs.linked h hlow⟩
      · rw [hs.rows.compactBlocks, chainMap, List.getElem?_eq_getElem (by omega)]
        rfl
      · rw [hs.rows.compactBlocks, chainMap, List.getElem?_eq_getElem hlow]
        rfl

/-- A walk that agrees at its start rewinds there. -/
theorem walkTarget_of_agreesAt {m : BlockMap} {node : Node} {h : ℕ} (hagree : AgreesAt m node h)
    (walked : ℕ) : walkTarget m node h walked = .ok h := by
  have hag := agreement_eq_true_iff.mpr hagree
  cases h with
  | zero => rw [walkTarget, hag]; rfl
  | succ h => rw [walkTarget, hag]

/-- A poll that rewinds to the last height deletes every block and keeps the tip. -/
theorem not_linkage_of_rewindsToLastHeight (p : Poller) {node : Node} (hnode : node.AtHeights)
    (hs : ChainState chain s) (hlast : RewindsToLastHeight node s) :
    ¬ Linkage ((pollOnce p node).exec s) := by
  obtain ⟨remoteHeight, remoteHash, hash, other, block, hconf, hread, hat, hne, hblock, heq⟩ := hlast
  have htip : chainTip chain = some (u32Max, hash) := by
    have hread' := hs.readTip
    rw [hread] at hread'
    injection hread' with hread'
    exact hread'.symm
  obtain ⟨cached, hcached, hlen, hhash⟩ := chainTip_eq_some_iff.mp htip
  have hremote := hnode.lastConfirmedBlock _ _ hconf
  have haction : classifyTips (some (u32Max, hash)) remoteHeight remoteHash
      ((chainMap chain remoteHeight).map CompactBlock.hash) (some other) = .reorgFrom u32Max := by
    unfold classifyTips
    simp only [if_neg hne]
    by_cases hlt : remoteHeight < u32Max
    · rw [if_pos hlt]
    · have hsame : u32Max = remoteHeight := by omega
      unfold remoteHashAtCachedTip at hat
      simp only [if_pos hsame, Except.ok.injEq, Option.some.injEq] at hat
      rw [if_neg hlt, if_pos hsame, if_neg (fun h => hne (by rw [← hat, h]))]
  have htarget : walkTarget (chainMap chain) node u32Max 0 = .ok u32Max :=
    walkTarget_of_agreesAt ⟨cached, block, hcached, hblock, heq.trans hhash.symm⟩ 0
  have hrun := pollOnce_acts p _ hs hconf htip hat haction
  have hwalk := walkBack_run node hs.rows u32Max 0
  rw [htarget] at hwalk
  simp only [] at hwalk
  have hblocks : ((pollOnce p node).exec s).db.blocks = s.db.blocks.rewound u32Max := by
    rw [← rewindToHeight_blocks hs.sound]
    unfold Prog.exec
    rw [hrun, actOn, rewindToCommonAncestor, hwalk, Prog.run_bind]
    rcases (rewindToHeight u32Max).run s with ⟨_ | _, t⟩ <;> rfl
  have hgone : ∀ h, (s.db.blocks.rewound u32Max).compactBlocks.get h = none := by
    intro h
    have hdel : ∀ h, (s.db.blocks.deleteWhere fun k =>
        decide (wrappingAdd u32Max 1 ≤ k)).compactBlocks.get h = none := by
      intro h
      rw [BlockRows.deleteWhere_compactBlocks, OrderedMap.get_filter]
      simp [wrappingAdd]
    unfold BlockRows.rewound BlockRows.rewoundTip
    rw [hdel u32Max]
    simp only []
    split_ifs <;> exact hdel h
  have htip' : (s.db.blocks.rewound u32Max).readTip = .ok (some (u32Max, hash)) := by
    rw [BlockRows.rewound_readTip hs.sound, hgone, hread]
    simp only [if_neg (show u32Max ≠ 0 by decide)]
  rw [Linkage, hblocks]
  rintro (⟨-, hnone⟩ | ⟨t, block', -, hrow, -⟩)
  · rw [htip'] at hnone
    cases hnone
  · rw [hgone] at hrow
    cases hrow

end State

/-- Every run whose polls do not rewind to the last height keeps the chain linked. -/
theorem polled_linkage {s : Cache}
    (hs : PollRun (fun _ node s => node.AtHeights ∧ ¬ RewindsToLastHeight node s) s) :
    Linkage s := by
  have hchain : ∃ chain, ChainState chain s := by
    induction hs with
    | empty now s hnew => exact ⟨[], .of_new hnew⟩
    | poll p node s _ hallowed ih =>
      obtain ⟨chain, hs⟩ := ih
      obtain ⟨chain', hs', -⟩ := pollOnce_exec (p := p) (Q := fun _ => True) hallowed.1
        (fun _ _ _ _ _ _ _ => trivial) hs (fun _ _ => trivial) hallowed.2
      exact ⟨chain', hs'⟩
  obtain ⟨chain, hs⟩ := hchain
  exact hs.linkage

/-! ## A chain up to the last height -/

/-- Parameters that parse nothing, enough for blocks without transactions. -/
def Darkfi.blank : Darkfi where
  moneyContractId := Bytes32.fill 1
  daoContractId := Bytes32.fill 2
  moneyFunction := fun _ => none
  daoFunction := fun _ => none
  daoFunctionCode := fun _ => 0
  feeParams := fun _ => .error "unknown"
  transferParams := fun _ => .error "unknown"
  genesisMintParams := fun _ => .error "unknown"
  powRewardParams := fun _ => .error "unknown"
  tokenMintParams := fun _ => .error "unknown"
  burnParams := fun _ => .error "unknown"
  authTokenMintParams := fun _ => .error "unknown"
  authTokenFreezeParams := fun _ => .error "unknown"
  daoMintParams := fun _ => .error "unknown"
  daoProposeParams := fun _ => .error "unknown"
  daoVoteParams := fun _ => .error "unknown"
  daoExecParams := fun _ => .error "unknown"
  daoAuthMoneyTransferParams := fun _ => .error "unknown"

/-- A poller for blocks without transactions. -/
def Poller.blank (batchSize : ℕ) : Poller := ⟨.blank, batchSize, fun _ => 0⟩

/-- Three blocks. -/
def shortChain : List BlockInfo := [.bare 0 0 1, .bare 1 1 2, .bare 2 2 3]

/-- The short chain is one the node can serve. -/
theorem shortChain_remoteChain : RemoteChain shortChain := by
  refine ⟨fun k block hblock => ?_, fun k low high hlow hhigh => ?_, by decide⟩
  · rcases k with _ | _ | _ | k <;> cases hblock <;> rfl
  · rcases k with _ | _ | _ | k <;> cases hlow <;> cases hhigh <;> rfl

/-- The first poll caches the genesis block, the second one the two blocks on it. -/
theorem polled_linkage_two_polls :
    let s := (pollOnce (.blank 5) (.serving shortChain)).exec
      ((pollOnce (.blank 5) (.serving shortChain)).exec .initial)
    Linkage s ∧ s.db.blocks.readTip = .ok (some (2, Bytes32.fill 3)) := by
  have hnode : (Node.serving shortChain).AtHeights :=
    (Node.serving_serves shortChain_remoteChain).atHeights shortChain_remoteChain
      (List.cons_ne_nil _ _)
  have hempty : Cache.initial.db.blocks.readTip = .ok none := by decide +kernel
  have hgenesis : ((pollOnce (.blank 5) (.serving shortChain)).exec .initial).db.blocks.readTip =
      .ok (some (0, Bytes32.fill 1)) := by decide +kernel
  refine ⟨polled_linkage (.poll _ _ _ (.poll _ _ _ (.empty 0 _ new_initial) ⟨hnode, ?_⟩)
    ⟨hnode, ?_⟩), by decide +kernel⟩
  · rintro ⟨_, _, _, _, _, -, hread, -⟩
    rw [hempty] at hread
    cases hread
  · rintro ⟨_, _, _, _, _, -, hread, -⟩
    rw [hgenesis] at hread
    cases hread

/-- A hash for every height. -/
def heightHash (k : ℕ) : Bytes32 := ⟨leBytes 32 k, length_leBytes 32 k⟩

/-- Block `k` of a chain of blocks without transactions. -/
def numberedBlock (k : ℕ) : BlockInfo :=
  ⟨⟨k, if k = 0 then Bytes32.fill 255 else heightHash (k - 1), 0, heightHash k⟩, []⟩

/-- The first `n` numbered blocks. Irreducible, since `n` gets as large as `2 ^ 32`. -/
@[irreducible] def numberedChain (n : ℕ) : List BlockInfo := (List.range n).map numberedBlock

/-- A block of the numbered chain. -/
theorem getElem?_numberedChain {n k : ℕ} (hk : k < n) :
    (numberedChain n)[k]? = some (numberedBlock k) := by
  unfold numberedChain
  rw [List.getElem?_map, List.getElem?_range hk]
  rfl

/-- The numbered chain is one the node can serve. -/
theorem numberedChain_remoteChain {n : ℕ} (hn : n ≤ u32Max + 1) : RemoteChain (numberedChain n) := by
  have hblock : ∀ k block, (numberedChain n)[k]? = some block → block = numberedBlock k := by
    intro k block hblock
    have hk : k < n := by
      have := (List.getElem?_eq_some_iff.mp hblock).1
      unfold numberedChain at this
      rwa [List.length_map, List.length_range] at this
    rw [getElem?_numberedChain hk] at hblock
    exact (Option.some.inj hblock).symm
  refine ⟨fun k block h => ?_, fun k low high hlow hhigh => ?_, ?_⟩
  · rw [hblock k block h]
    rfl
  · rw [hblock k low hlow, hblock (k + 1) high hhigh]
    unfold numberedBlock
    rw [if_neg (Nat.succ_ne_zero k), Nat.add_sub_cancel]
  · unfold numberedChain
    rwa [List.length_map, List.length_range]

/-- The node that serves the numbered chain up to the last height. -/
def fullNode : Node := .serving (numberedChain (u32Max + 1))

/-- The cache after two polls of the full node, the second in one batch. -/
def fullCache : Cache :=
  (pollOnce (.blank u32Max) fullNode).exec ((pollOnce (.blank u32Max) fullNode).exec .initial)

/-- Two polls of a numbered chain that fits one batch cache all of it. -/
theorem two_polls_numberedChain {n : ℕ} (hpos : 1 < n) (hn : n ≤ u32Max + 1) :
    ∃ chain, ChainState chain ((pollOnce (.blank u32Max) (.serving (numberedChain n))).exec
        ((pollOnce (.blank u32Max) (.serving (numberedChain n))).exec .initial)) ∧
      Follows chain (numberedChain n) ∧ chain.length = n := by
  have hremote := numberedChain_remoteChain hn
  have hnode := Node.serving_serves hremote
  have hlength : (numberedChain n).length = n := by
    unfold numberedChain
    rw [List.length_map, List.length_range]
  have hproc : Processable (.blank u32Max) (numberedChain n) := by
    intro block hblock
    unfold numberedChain at hblock
    obtain ⟨k, -, rfl⟩ := List.mem_map.mp hblock
    exact ⟨_, rfl⟩
  have hinit : ChainState [] Cache.initial := .of_new new_initial
  obtain ⟨chain₁, s₁, r₁, hrun₁, hs₁, hf₁, hlen₁⟩ := pollOnce_advances hremote hnode hproc hinit
    (Follows.nil _) (by rw [hlength]; exact Nat.lt_of_succ_lt hpos)
  have hone : chain₁.length = 1 := hlen₁
  obtain ⟨chain₂, s₂, r₂, hrun₂, hs₂, hf₂, hlen₂⟩ := pollOnce_advances hremote hnode hproc hs₁ hf₁
    (by rw [hlength, hone]; exact hpos)
  refine ⟨chain₂, ?_, hf₂, ?_⟩
  · unfold Prog.exec
    rw [hrun₁, hrun₂]
    exact hs₂
  · rw [hlen₂, hone, hlength]
    unfold fetchedLength
    rw [if_neg Nat.one_ne_zero]
    have hbatch : max (Poller.blank u32Max).batchSize 1 = u32Max := by decide
    omega

/-- The node with other answers to the tip query. -/
def Node.withTip (node : Node) (height : ℕ) (hash : Bytes32) : Node :=
  { node with lastConfirmedBlock := .ok (height, .ok hash) }

/-- Changing the tip of a node leaves its blocks at their heights. -/
theorem Node.AtHeights.withTip {node : Node} (hnode : node.AtHeights) {height : ℕ}
    (hmax : height ≤ u32Max) (hash : Bytes32) : (node.withTip height hash).AtHeights := by
  refine ⟨fun h hash' hconf => ?_, hnode.atCachedTip, hnode.atFetch, hnode.atWalk⟩
  have heq := (Prod.mk.inj (Except.ok.inj hconf)).1
  omega

/-- A node that names another tip of the last height, but still has the cached block there. -/
theorem not_linkage_of_withTip (p : Poller) {node : Node} {chain : List CompactBlock} {s : Cache}
    {cached : CompactBlock} {block : BlockInfo} {other : Bytes32} (hnode : node.AtHeights)
    (hs : ChainState chain s) (hcached : chain[u32Max]? = some cached)
    (hwalk : node.atWalk u32Max = .ok block) (hhash : block.header.hash = cached.hash)
    (hne : other ≠ cached.hash) :
    ¬ Linkage ((pollOnce p (node.withTip u32Max other)).exec s) := by
  have hlt := (List.getElem?_eq_some_iff.mp hcached).1
  have hshort := hs.short
  refine not_linkage_of_rewindsToLastHeight p (hnode.withTip le_rfl other) hs
    ⟨u32Max, other, cached.hash, other, block, rfl, ?_, ?_, hne, hwalk, hhash⟩
  · rw [hs.readTip, chainTip_of_last hcached (by omega)]
  · unfold remoteHashAtCachedTip
    simp only [if_true]

/-- A full chain is cached, then the node names another tip of the last height. -/
theorem poll_at_last_height_breaks_linkage :
    PollRun (fun _ node _ => node.AtHeights)
        ((pollOnce (.blank u32Max) (fullNode.withTip u32Max (Bytes32.fill 255))).exec fullCache) ∧
      ¬ Linkage
        ((pollOnce (.blank u32Max) (fullNode.withTip u32Max (Bytes32.fill 255))).exec fullCache) := by
  have hremote : RemoteChain (numberedChain (u32Max + 1)) := numberedChain_remoteChain le_rfl
  have hserves : fullNode.Serves (numberedChain (u32Max + 1)) := Node.serving_serves hremote
  have hself : (numberedChain (u32Max + 1))[u32Max]? = some (numberedBlock u32Max) :=
    getElem?_numberedChain (Nat.lt_succ_self _)
  have hheights : fullNode.AtHeights := hserves.atHeights hremote fun hnil => by
    rw [hnil] at hself
    cases hself
  refine ⟨.poll _ _ _ (.poll _ _ _ (.poll _ _ _ (.empty 0 _ new_initial) hheights) hheights)
    (hheights.withTip le_rfl _), ?_⟩
  obtain ⟨chain, hs, hf, hlen⟩ := two_polls_numberedChain (show 1 < u32Max + 1 by decide) le_rfl
  obtain ⟨cached, block, hcached, hblock, hhash⟩ := hf u32Max (by omega)
  rw [hself] at hblock
  obtain rfl := Option.some.inj hblock
  refine not_linkage_of_withTip _ hheights hs hcached ((hserves.atWalk u32Max).ok hself) hhash ?_
  rw [← hhash]
  show Bytes32.fill 255 ≠ heightHash u32Max
  decide

end LightWalletd
