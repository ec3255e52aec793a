import LightWalletd.Analysis.PrunedCache

/-!
# Pruning and the Money tree

A prune deletes the rows of old blocks and leaves the trees alone, so the Money tree still
has their coins. The polls after it leave the tree right exactly when none of them inserts
the genesis block again or the other pruned blocks had no coins.
-/

set_option autoImplicit false

namespace LightWalletd

open Stateful

/-! ## Pruning a polled cache -/

section Prune

variable {d : Darkfi} {remote : List BlockInfo} {chain : List CompactBlock} {s : Cache} {t : ℕ}
  {hash : Bytes32}

/-- The polls that build a cache from a fixed chain. -/
def FixedPoll (d : Darkfi) (remote : List BlockInfo) (p : Poller) (node : Node) (_ : Cache) : Prop :=
  p.darkfi = d ∧ node.AnswersFrom remote

/-- A run under stricter rules is one under looser rules. -/
theorem PollRun.mono {allowed allowed' : Poller → Node → Cache → Prop}
    (h : ∀ p node s, allowed p node s → allowed' p node s) (hs : PollRun allowed s) :
    PollRun allowed' s := by
  induction hs with
  | empty now s hnew => exact .empty now s hnew
  | poll p node s _ hpoll ih => exact .poll p node s ih (h p node s hpoll)

/-- A cache polled from a fixed chain holds processed blocks of it, each at its height. -/
theorem PollRun.processedAt (hremote : RemoteChain remote)
    (hs : PollRun (FixedPoll d remote) s) : ∃ chain, ChainState chain s ∧
      ∀ k c, chainMap chain k = some c → ProcessedAt d remote k c := by
  have hrun : PollRun (EarlierPoll d (· ∈ remote) remote) s :=
    hs.mono fun p node s ⟨hd, hnode⟩ => ⟨hd, remote, hremote, rfl, fun _ hb => hb, hnode⟩
  obtain ⟨chain, hstate⟩ := hrun.polledState
  refine ⟨chain, hstate.state, fun k c hc => ?_⟩
  obtain ⟨block, c₀, hblock, hprocess, hsame⟩ := hstate.processed c (List.mem_of_getElem? hc)
  obtain ⟨j, hj⟩ := List.mem_iff_getElem?.mp hblock
  have hjk : j = k := by
    rw [← hstate.state.rows.height k c hc, hsame.height, (processBlock_ok hprocess).1,
      hremote.height j block hj]
  subst hjk
  exact ⟨block, c₀, hj, hprocess, hsame⟩

/-- The coins of a chain of processed blocks are those of the full ones. -/
theorem coinsOf_processed (hlen : chain.length = t + 1)
    (hproc : ∀ k c, chainMap chain k = some c → ProcessedAt d remote k c) :
    coinsOf (chainMap chain) = fun k => if k ≤ t then remoteCoins d remote k else [] := by
  funext k
  by_cases hk : k ≤ t
  · obtain ⟨c, hc⟩ := Option.isSome_iff_exists.mp
      (chainMap_isSome.mpr (show k < chain.length by omega))
    rw [if_pos hk, ← (hproc k c hc).allCoins]
    unfold coinsOf
    rw [hc]
    rfl
  · rw [if_neg hk]
    refine coinsOf_eq_nil (Option.not_isSome_iff_eq_none.mp fun hsome => ?_)
    have := chainMap_isSome.mp hsome
    omega

/-- A window that covers the cache deletes nothing. -/
theorem pruneWithRetention_exec_of_le {retention : ℕ}
    (hread : s.db.blocks.readTip = .ok (some (t, hash))) (hle : t ≤ retention) :
    (pruneWithRetention retention).exec s = s := by
  have hget : getTip.run s = (.ok (some (t, hash)), s) := by
    rw [getTip_run, hread]
  unfold Prog.exec pruneWithRetention
  rw [Prog.bind_eq, Prog.run_bind_of_ok hget]
  simp only [if_pos hle]
  rfl

/-- `prune_with_retention` cuts the rows below the window. -/
theorem pruneWithRetention_exec {retention : ℕ}
    (hread : s.db.blocks.readTip = .ok (some (t, hash))) (hlt : retention < t) :
    (pruneWithRetention retention).exec s = s.setBlocks
      (s.db.blocks.deleteWhere fun h => decide (h < t - retention)) := by
  have hget : getTip.run s = (.ok (some (t, hash)), s) := by
    rw [getTip_run, hread]
  unfold Prog.exec pruneWithRetention
  rw [Prog.bind_eq, Prog.run_bind_of_ok hget]
  simp only [if_neg (show ¬ t ≤ retention by omega), Prog.bind_eq]
  rw [Prog.run_bind_of_ok (pruneBelowHeight_run _ s)]
  rfl

/-- A polled cache as a cache without a hole. -/
theorem ChainState.sparse (hs : ChainState chain s) (htip : chainTip chain = some (t, hash))
    (hproc : ∀ k c, chainMap chain k = some c → ProcessedAt d remote k c) :
    SparseState d remote 0 t (chainMap chain) s := by
  obtain ⟨block, hblock, hlen, rfl⟩ := chainTip_eq_some_iff.mp htip
  refine ⟨hs.toTreeState, fun k => ?_, hproc, Nat.zero_le t, ⟨block, hblock, ?_⟩, ?_⟩
  · rw [chainMap_isSome]
    omega
  · rw [hs.readTip, htip]
  · rw [hs.treeHeight, htip]
    rfl

/-- A polled cache after a prune. -/
theorem ChainState.pruned (hs : ChainState chain s) (htip : chainTip chain = some (t, hash))
    (hproc : ∀ k c, chainMap chain k = some c → ProcessedAt d remote k c) {low : ℕ}
    (hpos : 0 < low) (hle : low ≤ t) :
    ∃ m, PrunedState d remote low t m
      (s.setBlocks (s.db.blocks.deleteWhere fun h => decide (h < low))) := by
  obtain ⟨block, hblock, hlen, rfl⟩ := chainTip_eq_some_iff.mp htip
  have hsound := hs.sound
  have hrows := hs.rows.of_filter (p := fun h => !decide (h < low))
    (BlockRows.deleteWhere_compactBlocks _ _) (hsound.deleteWhere_blockHashes _)
    (hsound.deleteWhere_nullifiers _) (hsound.deleteWhere_coins _)
  have hlive : s.tipTree.height = some t := by
    rw [hs.treeHeight, htip]
    rfl
  have htree := hs.treeAt hlive
  rw [coinsOf_processed hlen hproc] at htree
  have hget : ∀ k, (if (!decide (k < low)) = true then chainMap chain k else none) =
      if low ≤ k then chainMap chain k else none := by
    intro k
    by_cases hk : low ≤ k
    · simp [hk, show ¬ k < low by omega]
    · simp [hk, show k < low by omega]
  refine ⟨_, hrows, fun k => ?_, fun k c hc => ?_, ?_, hpos, hle, ⟨block, ?_, ?_⟩,
    ⟨htree.le_max, htree.live, htree.tipMerkleTree, htree.tipMerkleHeight, htree.snapshots,
      htree.above⟩, hs.format⟩
  · rw [hget]
    by_cases hk : low ≤ k
    · rw [if_pos hk, chainMap_isSome]
      omega
    · rw [if_neg hk]
      simp [hk]
  · rw [hget] at hc
    split_ifs at hc
    exact hproc k c hc
  · exact ⟨chain[0], hproc 0 _ (List.getElem?_eq_getElem (by omega))⟩
  · rw [hget, if_pos hle]
    exact hblock
  · have hread := hs.readTip
    rw [htip] at hread
    rw [setBlocks_blocks, BlockRows.deleteWhere_tipHeight, BlockRows.deleteWhere_tipHash]
    rcases hs.tip with ⟨h1, -, -⟩ | ⟨t', hash', h1, h2, -⟩
    · unfold BlockRows.readTip at hread
      rw [h1] at hread
      cases hread
    · unfold BlockRows.readTip at hread
      rw [h1, h2] at hread
      cases hread
      exact ⟨h1, h2⟩

end Prune

/-! ## The theorem -/

/-- The tree at the tip and every snapshot have the coins of the blocks of `remote` up to their
height, and every interval snapshot of `before` is there unchanged. -/
structure TreeIntact (d : Darkfi) (remote : List BlockInfo) (before s : Cache) : Prop where
  tipTree : ∃ t hash tree, s.db.blocks.readTip = .ok (some (t, hash)) ∧
    getTipTreeState.run s = (.ok (some (t, .value tree)), s) ∧ s.tipTree = ⟨some t, tree, false⟩ ∧
    tree.leafBytes = Base.zero.repr :: coinsBelow (remoteCoins d remote) (t + 1)
  snapshots : ∀ k row, s.db.trees.merkleSnapshots.get k = some row → ∃ tree, row = .value tree ∧
    tree.leafBytes = Base.zero.repr :: coinsBelow (remoteCoins d remote) (k + 1)
  intervals : ∀ k row, k % merkleSnapshotInterval = 0 →
    before.db.trees.merkleSnapshots.get k = some row → s.db.trees.merkleSnapshots.get k = some row

section Intact

variable {d : Darkfi} {remote : List BlockInfo} {before s : Cache} {c : ℕ → List Bytes32} {t : ℕ}
  {hash : Bytes32}

/-- A tree of the right coins. -/
theorem Cache.TreeAt.intact (hat : s.TreeAt c t) (hread : s.db.blocks.readTip = .ok (some (t, hash)))
    (hc : ∀ k ≤ t, c k = remoteCoins d remote k)
    (hbefore : ∀ k row, before.db.trees.merkleSnapshots.get k = some row →
      row = .value (treeTo (remoteCoins d remote) k))
    (hkeeps : KeepsIntervals before s) : TreeIntact d remote before s := by
  have htree : ∀ k ≤ t, treeTo c k = treeTo (remoteCoins d remote) k :=
    fun k hk => treeTo_congr fun j hj => hc j (hj.trans hk)
  have hleaves : ∀ k, (treeTo (remoteCoins d remote) k).leafBytes =
      Base.zero.repr :: coinsBelow (remoteCoins d remote) (k + 1) :=
    fun k => leafBytes_treeTo fun j _ => canonical_remoteCoins d remote j
  refine ⟨⟨t, hash, _, hread, ?_, hat.live, ?_⟩, fun k row hrow => ?_, fun k row hint hrow => ?_⟩
  · rw [getTipTreeState_run, hat.tipMerkleHeight, hat.tipMerkleTree]
  · rw [htree t le_rfl, hleaves]
  · obtain ⟨hk, hval⟩ := hat.snapshots k row hrow
    exact ⟨_, hval, by rw [htree k hk, hleaves]⟩
  · obtain ⟨row', hrow'⟩ := Option.isSome_iff_exists.mp (hkeeps k hint (by rw [hrow]; rfl))
    obtain ⟨hk, hval⟩ := hat.snapshots k row' hrow'
    rw [hrow', hval, hbefore k row hrow, htree k hk]

/-- A tree that leaves out the coins of some blocks is right only if there were none. -/
theorem TreeIntact.coins_eq (h : TreeIntact d remote before s) (hat : s.TreeAt c t)
    (hcan : ∀ k, Canonical (c k)) (hc : ∀ k ≤ t, c k = remoteCoins d remote k ∨ c k = []) :
    ∀ k ≤ t, c k = remoteCoins d remote k := by
  obtain ⟨t', hash', tree, -, -, hlive, hleaves⟩ := h.tipTree
  rw [hat.live] at hlive
  cases hlive
  rw [leafBytes_treeTo fun k _ => hcan k] at hleaves
  have heq := (List.cons.inj hleaves).2
  intro k hk
  exact eq_of_coinsBelow_eq (fun j hj => hc j (by omega)) heq k (by omega)

/-- The tree of a cache with a hole is right exactly when the hole had no coins. -/
theorem SparseState.intact_iff {low : ℕ} {m : BlockMap} (hs : SparseState d remote low t m s)
    (hbefore : ∀ k row, before.db.trees.merkleSnapshots.get k = some row →
      row = .value (treeTo (remoteCoins d remote) k))
    (hkeeps : KeepsIntervals before s) :
    TreeIntact d remote before s ↔ ∀ k, 1 ≤ k → k < low → remoteCoins d remote k = [] := by
  have hat := hs.treeAt hs.treeHeight
  have hcached : ∀ k ≤ t, k = 0 ∨ low ≤ k → coinsOf m k = remoteCoins d remote k := by
    intro k hk hin
    obtain ⟨c, hc⟩ := Option.isSome_iff_exists.mp ((hs.cached k).mpr ⟨hin, hk⟩)
    rw [← (hs.processed k c hc).allCoins]
    unfold coinsOf
    rw [hc]
    rfl
  have hhole : ∀ k, 1 ≤ k → k < low → coinsOf m k = [] := by
    intro k hpos hlow
    refine coinsOf_eq_nil (Option.not_isSome_iff_eq_none.mp fun hsome => ?_)
    have := ((hs.cached k).mp hsome).1
    omega
  constructor
  · intro h k hpos hlow
    have hle := hs.low_le
    rw [← h.coins_eq hat hs.canonical_coinsOf (fun j hj => ?_) k (by omega), hhole k hpos hlow]
    by_cases hin : j = 0 ∨ low ≤ j
    · exact Or.inl (hcached j hj hin)
    · exact Or.inr (hhole j (by omega) (by omega))
  · intro hnil
    obtain ⟨top, -, hread⟩ := hs.readTip
    refine hat.intact hread (fun k hk => ?_) hbefore hkeeps
    by_cases hin : k = 0 ∨ low ≤ k
    · exact hcached k hk hin
    · rw [hhole k (by omega) (by omega), hnil k (by omega) (by omega)]

end Intact

/-- A cache polled from a fixed chain, pruned, then polled while that chain grows: its trees
are right exactly when no poll inserts the pruned genesis block again or the other pruned
blocks had no coins. -/
theorem pruned_polls_keep_tree_iff {d : Darkfi} {remote remote' : List BlockInfo} {s : Cache} {t : ℕ}
    {hash : Bytes32} {polls : List (Poller × Node)} (retention : ℕ) (hremote : RemoteChain remote)
    (hs : PollRun (FixedPoll d remote) s) (htip : s.db.blocks.readTip = .ok (some (t, hash)))
    (hpolls : GrowingPolls d remote polls remote') :
    TreeIntact d remote' s (runPolls polls ((pruneWithRetention retention).exec s)) ↔
      (∀ q ∈ polls, ¬ Backfills q.2) ∨
        ∀ k, 1 ≤ k → k < t - retention → remoteCoins d remote k = [] := by
  obtain ⟨chain, hstate, hproc⟩ := hs.processedAt hremote
  have hchain : chainTip chain = some (t, hash) := by
    have hread := hstate.readTip
    rw [htip] at hread
    exact (Except.ok.inj hread).symm
  obtain ⟨_, -, hlen, -⟩ := chainTip_eq_some_iff.mp hchain
  have hsparse := hstate.sparse hchain hproc
  have hgrows := hpolls.grows
  -- the coins up to the tip do not depend on how far the chain has grown
  have hcoins : ∀ k ≤ t, remoteCoins d remote' k = remoteCoins d remote k := by
    intro k hk
    obtain ⟨c, hc⟩ := Option.isSome_iff_exists.mp
      (chainMap_isSome.mpr (show k < chain.length by omega))
    exact remoteCoins_grown d hgrows (hproc k c hc).lt
  have hbefore : ∀ k row, s.db.trees.merkleSnapshots.get k = some row →
      row = .value (treeTo (remoteCoins d remote') k) := by
    intro k row hrow
    obtain ⟨hk, hval⟩ := (hsparse.treeAt hsparse.treeHeight).snapshots k row hrow
    rw [hval, coinsOf_processed hlen hproc]
    congr 1
    refine treeTo_congr fun j hj => ?_
    rw [if_pos (by omega), hcoins j (by omega)]
  by_cases hle : t ≤ retention
  · rw [pruneWithRetention_exec_of_le htip hle]
    obtain ⟨t', m', hs', hkeeps⟩ := hsparse.runPolls hpolls
    refine iff_of_true ((hs'.intact_iff hbefore hkeeps).mpr fun k _ hk => ?_)
      (Or.inr fun k _ hk => ?_)
    · exact absurd hk (Nat.not_lt_zero k)
    · omega
  · rw [pruneWithRetention_exec htip (by omega)]
    obtain ⟨m, hpruned⟩ := hstate.pruned hchain hproc (show 0 < t - retention by omega)
      (Nat.sub_le t retention)
    by_cases hidle : ∀ q ∈ polls, ¬ Backfills q.2
    · refine iff_of_true ?_ (Or.inl hidle)
      rw [hpruned.runPolls_idle hidle]
      obtain ⟨top, -, hread⟩ := hpruned.readTip
      refine hpruned.tree.intact hread (fun k hk => ?_) hbefore (KeepsIntervals.refl s)
      rw [if_pos hk, hcoins k hk]
    · have hback : ∃ q ∈ polls, Backfills q.2 := by
        simpa only [not_forall, not_not, exists_prop] using hidle
      obtain ⟨t', m', hs', hkeeps⟩ := hpruned.runPolls_backfills hpolls hback
      rw [hs'.intact_iff hbefore hkeeps, or_iff_right hidle]
      refine forall_congr' fun k => forall_congr' fun _ => forall_congr' fun hk => ?_
      rw [hcoins k (by omega)]

/-- A Money contract with one function, a reward whose coin is the given byte. -/
def Darkfi.rewards : Darkfi :=
  { Darkfi.blank with
    moneyFunction := fun _ => some .poWRewardV1
    powRewardParams := fun bytes => match Base.fromBytes (Bytes32.fill (bytes.headD 0)) with
      | some coin => .ok ⟨⟨coin, [], [], Base.zero, false⟩⟩
      | none => .error "not a coin" }

/-- Block `k` of a chain whose blocks each have one coin. -/
def rewardBlock (k : ℕ) : BlockInfo :=
  ⟨⟨k, heightHash (k - 1), 0, heightHash k⟩,
    [⟨heightHash k, [⟨Darkfi.rewards.moneyContractId, [0, UInt8.ofNat k]⟩]⟩]⟩

/-- The first four blocks of that chain. -/
def rewardChain : List BlockInfo := (List.range 4).map rewardBlock

/-- A poller for that chain. -/
def Poller.rewards : Poller := ⟨.rewards, 5, fun _ => 0⟩

/-- The four blocks, polled. -/
def rewardCache : Cache :=
  (pollOnce .rewards (.serving rewardChain)).exec
    ((pollOnce .rewards (.serving rewardChain)).exec .initial)

/-- The chain of rewards is one a node can serve. -/
theorem rewardChain_remoteChain : RemoteChain rewardChain := by
  refine ⟨fun k block hblock => ?_, fun k low high hlow hhigh => ?_, by decide⟩
  · match k with
    | 0 => cases hblock; rfl
    | 1 => cases hblock; rfl
    | 2 => cases hblock; rfl
    | 3 => cases hblock; rfl
    | k + 4 => cases hblock
  · match k with
    | 0 => cases hlow; cases hhigh; rfl
    | 1 => cases hlow; cases hhigh; rfl
    | 2 => cases hlow; cases hhigh; rfl
    | k + 3 => cases hhigh

/-- A node that serves it answers up to its end. -/
theorem rewardChain_answersEnd : (Node.serving rewardChain).AnswersEnd rewardChain := by
  refine ⟨(Node.serving_serves rewardChain_remoteChain).answersFrom (List.cons_ne_nil _ _),
    fun h hash hconf => ?_⟩
  cases hconf
  rfl

/-- The cache of rewards is reached by polls. -/
theorem rewardCache_polled : PollRun (FixedPoll .rewards rewardChain) rewardCache := by
  have hpoll : ∀ s, FixedPoll .rewards rewardChain .rewards (.serving rewardChain) s :=
    fun _ => ⟨rfl, rewardChain_answersEnd.toAnswersFrom⟩
  exact .poll _ _ _ (.poll _ _ _ (.empty 0 _ new_initial) (hpoll _)) (hpoll _)

/-- Its tip is the last block. -/
theorem rewardCache_readTip : rewardCache.db.blocks.readTip = .ok (some (3, heightHash 3)) := by
  decide +kernel

/-- One more poll of the same chain. -/
theorem rewardChain_growingPolls :
    GrowingPolls .rewards rewardChain [(.rewards, .serving rewardChain)] rewardChain :=
  .cons List.prefix_rfl rewardChain_remoteChain rfl rewardChain_answersEnd (.nil _)

/-- With only the genesis block pruned, the poll that inserts it again does no harm. -/
theorem pruned_polls_keep_tree_genesis :
    TreeIntact .rewards rewardChain rewardCache
      (runPolls [(.rewards, .serving rewardChain)] ((pruneWithRetention 2).exec rewardCache)) :=
  (pruned_polls_keep_tree_iff 2 rewardChain_remoteChain rewardCache_polled rewardCache_readTip
    rewardChain_growingPolls).mpr (Or.inr fun k hpos hlt => by omega)

/-- With block 1 pruned too, its coin is gone from the tree after the next poll. -/
theorem poll_after_prune_loses_coin :
    RemoteChain rewardChain ∧ PollRun (FixedPoll .rewards rewardChain) rewardCache ∧
      GrowingPolls .rewards rewardChain [(.rewards, .serving rewardChain)] rewardChain ∧
      (runPolls [(.rewards, .serving rewardChain)]
        ((pruneWithRetention 1).exec rewardCache)).tipTree.tree.leafBytes =
        [Bytes32.fill 0, Bytes32.fill 0, Bytes32.fill 2, Bytes32.fill 3] ∧
      ¬ TreeIntact .rewards rewardChain rewardCache
        (runPolls [(.rewards, .serving rewardChain)] ((pruneWithRetention 1).exec rewardCache)) := by
  have hleaves : (runPolls [(.rewards, .serving rewardChain)]
      ((pruneWithRetention 1).exec rewardCache)).tipTree.tree.leafBytes =
      [Bytes32.fill 0, Bytes32.fill 0, Bytes32.fill 2, Bytes32.fill 3] := by
    decide +kernel
  have htip : (runPolls [(.rewards, .serving rewardChain)]
      ((pruneWithRetention 1).exec rewardCache)).db.blocks.readTip =
      .ok (some (3, heightHash 3)) := by
    decide +kernel
  refine ⟨rewardChain_remoteChain, rewardCache_polled, rewardChain_growingPolls, hleaves, fun h => ?_⟩
  obtain ⟨t, hash, tree, hread, -, hlive, htree⟩ := h.tipTree
  rw [htip] at hread
  cases hread
  rw [hlive] at hleaves
  have hlength := congrArg List.length (hleaves.symm.trans htree)
  have hcoins : (Base.zero.repr :: coinsBelow (remoteCoins .rewards rewardChain) 4).length = 5 := by
    decide +kernel
  rw [hcoins] at hlength
  cases hlength

end LightWalletd
