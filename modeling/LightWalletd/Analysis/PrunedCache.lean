import LightWalletd.Analysis.PollerConvergence

/-!
# Pruned caches

A cache of the blocks `0..=tip` of a chain from which the blocks below `low` were pruned is in
one of two states. Before its next poll it has no genesis block and the trees of all blocks
(`PrunedState`). The poll that fetches the genesis block inserts it below the tip: all
snapshots go, and the rebuilt tree has the coins of the blocks that are there
(`SparseState`). Later polls only add the next blocks.
-/

set_option autoImplicit false

namespace LightWalletd

open Stateful

/-- The coins of block `k` of `remote`, as the block processor finds them. -/
def remoteCoins (d : Darkfi) (remote : List BlockInfo) (k : ℕ) : List Bytes32 :=
  match remote[k]?.map (processBlock d) with
  | some (.ok c) => c.allCoins
  | _ => []

/-- The cached block is block `k` of `remote`, processed, apart from its clues. -/
def ProcessedAt (d : Darkfi) (remote : List BlockInfo) (k : ℕ) (c : CompactBlock) : Prop :=
  ∃ (block : BlockInfo) (c₀ : CompactBlock), remote[k]? = some block ∧
    processBlock d block = .ok c₀ ∧ c.SameBeside c₀

/-- Every interval height with a snapshot in `s` has one in `s'`. -/
def KeepsIntervals (s s' : Cache) : Prop :=
  ∀ k, k % merkleSnapshotInterval = 0 → (s.db.trees.merkleSnapshots.get k).isSome →
    (s'.db.trees.merkleSnapshots.get k).isSome

/-- Changing nothing keeps the intervals. -/
theorem KeepsIntervals.refl (s : Cache) : KeepsIntervals s s := fun _ _ h => h

/-- Two steps that keep the intervals keep them together. -/
theorem KeepsIntervals.trans {s s' s'' : Cache} (h : KeepsIntervals s s')
    (h' : KeepsIntervals s' s'') : KeepsIntervals s s'' :=
  fun k hint hk => h' k hint (h k hint hk)

/-- A step that leaves the snapshots keeps the intervals. -/
theorem KeepsIntervals.of_snapshots {s s' : Cache}
    (h : s'.db.trees.merkleSnapshots = s.db.trees.merkleSnapshots) : KeepsIntervals s s' := by
  intro k _ hk
  rwa [h]

/-- The node answers from `remote`, and names its last block as the last confirmed one. -/
structure Node.AnswersEnd (node : Node) (remote : List BlockInfo) : Prop
    extends node.AnswersFrom remote where
  last : ∀ h hash, node.lastConfirmedBlock = .ok (h, hash) → h + 1 = remote.length

/-- Polls of a chain that is `remote` before the first of them and grows to `remote'`. -/
inductive GrowingPolls (d : Darkfi) : List BlockInfo → List (Poller × Node) → List BlockInfo → Prop
  | nil (remote : List BlockInfo) : GrowingPolls d remote [] remote
  | cons {remote grown remote' : List BlockInfo} {p : Poller} {node : Node}
      {polls : List (Poller × Node)} : remote <+: grown → RemoteChain grown → p.darkfi = d →
      node.AnswersEnd grown → GrowingPolls d grown polls remote' →
      GrowingPolls d remote ((p, node) :: polls) remote'

/-- The state after the given polls. -/
def runPolls (polls : List (Poller × Node)) (s : Cache) : Cache :=
  polls.foldl (fun s q => (pollOnce q.1 q.2).exec s) s

/-! ## Processed blocks of a chain -/

section Processed

variable {d : Darkfi} {remote remote' : List BlockInfo} {k : ℕ} {c : CompactBlock}

/-- A processed height is a height of the remote chain. -/
theorem ProcessedAt.lt (h : ProcessedAt d remote k c) : k < remote.length := by
  obtain ⟨block, _, hblock, -⟩ := h
  exact (List.getElem?_eq_some_iff.mp hblock).1

/-- A block of a chain stays as the chain grows. -/
theorem getElem?_grown (hpre : remote <+: remote') (hk : k < remote.length) :
    remote'[k]? = remote[k]? := by
  obtain ⟨rest, rfl⟩ := hpre
  exact List.getElem?_append_left hk

/-- A block processed from a chain is processed from the longer one. -/
theorem ProcessedAt.mono (h : ProcessedAt d remote k c) (hpre : remote <+: remote') :
    ProcessedAt d remote' k c := by
  have hlt := h.lt
  obtain ⟨block, c₀, hblock, hprocess, hsame⟩ := h
  exact ⟨block, c₀, (getElem?_grown hpre hlt).trans hblock, hprocess, hsame⟩

/-- A processed block has the hash of its own block. -/
theorem ProcessedAt.hash {block : BlockInfo} (h : ProcessedAt d remote k c)
    (hblock : remote[k]? = some block) : block.header.hash = c.hash := by
  obtain ⟨block', c₀, hblock', hprocess, hsame⟩ := h
  rw [hblock] at hblock'
  cases hblock'
  rw [hsame.hash, (processBlock_ok hprocess).2.1]

/-- A processed block has the coins of its height. -/
theorem ProcessedAt.allCoins (h : ProcessedAt d remote k c) :
    c.allCoins = remoteCoins d remote k := by
  obtain ⟨block, c₀, hblock, hprocess, hsame⟩ := h
  unfold remoteCoins
  rw [hblock, Option.map_some, hprocess]
  exact hsame.allCoins

/-- A processed block may be added to processed blocks. -/
theorem processedAt_update {m : BlockMap} {h : ℕ} {b : CompactBlock}
    (hm : ∀ k c, m k = some c → ProcessedAt d remote k c) (hb : ProcessedAt d remote h b) :
    ∀ k c, Function.update m h (some b) k = some c → ProcessedAt d remote k c := by
  intro k c hc
  by_cases heq : k = h
  · rw [heq, Function.update_self] at hc
    cases hc
    exact heq ▸ hb
  · rw [Function.update_of_ne heq] at hc
    exact hm k c hc

/-- The coins of a height stay as the chain grows. -/
theorem remoteCoins_grown (d : Darkfi) (hpre : remote <+: remote') (hk : k < remote.length) :
    remoteCoins d remote' k = remoteCoins d remote k := by
  unfold remoteCoins
  rw [getElem?_grown hpre hk]

/-- The coins of a height are canonical. -/
theorem canonical_remoteCoins (d : Darkfi) (remote : List BlockInfo) (k : ℕ) :
    Canonical (remoteCoins d remote k) := by
  unfold remoteCoins
  cases hblock : remote[k]? with
  | none => exact fun coin hcoin => by cases hcoin
  | some block =>
    rw [Option.map_some]
    cases hprocess : processBlock d block with
    | error e => exact fun coin hcoin => by cases hcoin
    | ok c => exact (processBlock_ok hprocess).2.2.2.2

end Processed

/-! ## Inserting the next block -/

/-- An append at the next height leaves the snapshots of interval heights alone. -/
theorem insertMergedBlock_keepsIntervals {block : CompactBlock} {s : Cache} {t : ℕ} {hash : Bytes32}
    (hread : s.db.blocks.readTip = .ok (some (t, hash)))
    (hlive : s.tipTree.needsRebuild block.height = false) (hge : t ≤ block.height)
    (hcan : Canonical block.allCoins) : KeepsIntervals s ((insertMergedBlock block).exec s) := by
  have hrun := insertMergedBlock_run block hread
  simp only [if_neg (show ¬ block.height < t by omega)] at hrun
  have hadvance : (advanceTip block).run (s.setBlocks (s.db.blocks.store block)) =
      (appendCoinsToTipTree block.height block.allCoins).run
        (s.setBlocks ((s.db.blocks.store block).setTip block.height block.hash)) := rfl
  intro k hint hk
  unfold Prog.exec
  rw [hrun, hadvance, appendCoinsToTipTree_run, setBlocks_tipTree, hlive, if_neg Bool.false_ne_true,
    appendNodes_run _ _ hcan]
  show ((dropPrevious _ block.height (s.db.trees.merkleSnapshots.insert block.height _)).get
    k).isSome
  rw [get_dropPrevious, if_neg (fun hc => hc.2.2 hint), OrderedMap.get_insert]
  split_ifs
  · rfl
  · exact hk

/-- The tree of a state with the live tree at `t`. -/
theorem TreeState.treeAt {m : BlockMap} {s : Cache} {t : ℕ} (hs : TreeState m s)
    (hlive : s.tipTree.height = some t) : s.TreeAt (coinsOf m) t := by
  rcases hs.tree with ⟨hfresh, -⟩ | ⟨H, hat⟩
  · rw [hfresh] at hlive
    cases hlive
  · rw [hat.live] at hlive
    cases hlive
    exact hat

/-! ## Caches with a hole -/

/-- A cache that is what its blocks make of it, where these are the genesis block and the
blocks from `low` to the tip `t` of `remote`. -/
structure SparseState (d : Darkfi) (remote : List BlockInfo) (low t : ℕ) (m : BlockMap)
    (s : Cache) : Prop extends TreeState m s where
  cached : ∀ k, (m k).isSome ↔ (k = 0 ∨ low ≤ k) ∧ k ≤ t
  processed : ∀ k c, m k = some c → ProcessedAt d remote k c
  low_le : low ≤ t
  readTip : ∃ c, m t = some c ∧ s.db.blocks.readTip = .ok (some (t, c.hash))
  treeHeight : s.tipTree.height = some t

section Sparse

variable {d : Darkfi} {remote remote' : List BlockInfo} {low t : ℕ} {m : BlockMap} {s : Cache}

/-- A sparse state of a chain is one of the longer chain. -/
theorem SparseState.mono (hs : SparseState d remote low t m s) (hpre : remote <+: remote') :
    SparseState d remote' low t m s :=
  { hs with processed := fun k c hc => (hs.processed k c hc).mono hpre }

/-- The next block extends the chain. -/
theorem SparseState.append (now : ℕ) {block : BlockInfo} {c : CompactBlock}
    (hs : SparseState d remote low t m s) (hremote : RemoteChain remote)
    (hblock : remote[t + 1]? = some block) (hprocess : processBlock d block = .ok c) :
    ∃ m' s', (insertCompactBlock now c).run s = (.ok (), s') ∧
      SparseState d remote low (t + 1) m' s' ∧ KeepsIntervals s s' := by
  obtain ⟨hheight, hhash, -, -, hcan⟩ := processBlock_ok hprocess
  have hnext : c.height = t + 1 := hheight.trans (hremote.height _ _ hblock)
  have hmax : t + 1 ≤ u32Max := by
    have hlt := (List.getElem?_eq_some_iff.mp hblock).1
    have hshort := hremote.short
    omega
  -- the clues are merged first, which leaves everything else alone
  obtain ⟨merged, s₁, hclues, hsame, hbeside⟩ := applyOmrClueHints_run now c s
  have hs₁ := hs.toTreeState.congr hbeside
  have hblocks : s₁.db.blocks = s.db.blocks := congrArg Prod.fst hbeside
  have htrees : s₁.db.trees = s.db.trees := congrArg (fun p => p.2.1) hbeside
  have hlive : s₁.tipTree = s.tipTree := congrArg (fun p => p.2.2.2) hbeside
  have hat : merged.height = t + 1 := hsame.height.trans hnext
  have hcanMerged : Canonical merged.allCoins := by
    rw [hsame.allCoins]
    exact hcan
  have hfree : ∀ k, t < k → m k = none := by
    intro k hk
    refine Option.not_isSome_iff_eq_none.mp fun hsome => ?_
    have := ((hs.cached k).mp hsome).2
    omega
  obtain ⟨top, htop, hread⟩ := hs.readTip
  rw [← hblocks] at hread
  obtain ⟨s', hrun, hstate, hrows, hheight'⟩ := insertMerged_advance hs₁ hread hcanMerged
    (by omega) (fun old hold => by rw [hfree _ (by omega)] at hold; cases hold)
    (fun hlast => coinsOf_eq_nil (hfree _ (by omega)))
    (fun tip htip => by cases htip; omega) (fun k hk => hfree k (by omega))
    (fun h0 => absurd h0 (by omega))
  have hneeds : s₁.tipTree.needsRebuild merged.height = false := by
    have htree := hs.treeAt hs.treeHeight
    have hle := htree.le_max
    rw [hlive, htree.live, hat]
    unfold LiveTipTree.needsRebuild saturatingAdd
    simp only [Bool.false_or, decide_eq_false_iff_not]
    omega
  have hkeeps := insertMergedBlock_keepsIntervals hread hneeds (by omega) hcanMerged
  unfold Prog.exec at hkeeps
  rw [hrun] at hkeeps
  refine ⟨_, s', (Prog.run_bind_of_ok hclues _).trans hrun, ⟨hstate, fun k => ?_, fun k c' hc' => ?_,
    by have := hs.low_le; omega, ⟨merged, ?_, ?_⟩, by rw [hheight', hat]⟩,
    (KeepsIntervals.of_snapshots (by rw [htrees])).trans hkeeps⟩
  · by_cases heq : k = merged.height
    · have hlow := hs.low_le
      rw [heq, Function.update_self]
      simp only [Option.isSome_some, true_iff]
      omega
    · rw [Function.update_of_ne heq, hs.cached]
      omega
  · exact processedAt_update hs.processed (hat ▸ ⟨block, c, hblock, hprocess, hsame⟩) k c' hc'
  · rw [← hat, Function.update_self]
  · rw [hrows, ← hat]
    exact BlockRows.readTip_setTip _ _

/-- Fetching from the tip on extends the chain. -/
theorem SparseState.fetchBlocks {p : Poller} {node : Node} (hremote : RemoteChain remote)
    (hnode : node.AnswersFrom remote) (n processed : ℕ)
    (hs : SparseState p.darkfi remote low t m s) :
    ∃ t' m', SparseState p.darkfi remote low t' m'
        ((fetchBlocks p node (List.range' (t + 1) n) processed).exec s) ∧
      KeepsIntervals s ((fetchBlocks p node (List.range' (t + 1) n) processed).exec s) := by
  induction n generalizing t m s processed with
  | zero => exact ⟨t, m, hs, .refl s⟩
  | succ n ih =>
    rw [List.range'_succ]
    cases hfetch : node.atFetch (t + 1) with
    | error e =>
      unfold Prog.exec
      rw [fetchBlocks_missing p hfetch]
      exact ⟨t, m, hs, .refl s⟩
    | ok block =>
      have hblock := hnode.atFetch _ _ hfetch
      have hlink : linkBroken m (t + 1) block = false := by
        obtain ⟨top, htop, -⟩ := hs.readTip
        have htop' := hs.processed t top htop
        obtain ⟨below, hbelow⟩ : ∃ below, remote[t]? = some below :=
          ⟨_, List.getElem?_eq_getElem htop'.lt⟩
        have hprevious : block.header.previous = top.hash :=
          (hremote.linked t _ _ hbelow hblock).trans (htop'.hash hbelow)
        unfold linkBroken
        rw [if_neg (Nat.succ_ne_zero t), Nat.add_sub_cancel, htop]
        simp [hprevious]
      cases hprocess : processBlock p.darkfi block with
      | error e =>
        unfold Prog.exec
        rw [fetchBlocks_refused p hs.rows hfetch hlink hprocess]
        exact ⟨t, m, hs, .refl s⟩
      | ok c =>
        obtain ⟨m₁, s₁, hinsert, hs₁, hkeeps₁⟩ :=
          hs.append (p.now (t + 1)) hremote hblock hprocess
        obtain ⟨t', m', hs', hkeeps'⟩ := ih (wrappingAdd processed 1) hs₁
        unfold Prog.exec at hs' hkeeps' ⊢
        rw [fetchBlocks_inserts p hs.rows hfetch hlink hprocess hinsert]
        exact ⟨t', m', hs', hkeeps₁.trans hkeeps'⟩

/-- A poll that finds its genesis block extends the chain or leaves it alone. -/
theorem SparseState.poll {p : Poller} {node : Node} (hremote : RemoteChain remote)
    (hnode : node.AnswersEnd remote) (hs : SparseState p.darkfi remote low t m s) :
    ∃ t' m', SparseState p.darkfi remote low t' m' ((pollOnce p node).exec s) ∧
      KeepsIntervals s ((pollOnce p node).exec s) := by
  obtain ⟨top, htop, hread⟩ := hs.readTip
  have hrun := pollOnce_rows_run p node hs.rows hread
  have hkeep : ∀ r, (pollOnce p node).run s = (r, s) →
      ∃ t' m', SparseState p.darkfi remote low t' m' ((pollOnce p node).exec s) ∧
        KeepsIntervals s ((pollOnce p node).exec s) := by
    intro r hr
    unfold Prog.exec
    rw [hr]
    exact ⟨t, m, hs, .refl s⟩
  rcases hconf : node.lastConfirmedBlock with e | ⟨remoteHeight, e | remoteHash⟩
  · rw [hconf] at hrun
    exact hkeep _ hrun
  · rw [hconf] at hrun
    exact hkeep _ hrun
  · have hfirst : (m 0).isNone = false := by
      rw [← Option.not_isSome, (hs.cached 0).mpr ⟨Or.inl rfl, Nat.zero_le t⟩]
      rfl
    simp only [hconf, hfirst, Bool.false_eq_true, if_false] at hrun
    have hlast := hnode.last _ _ hconf
    obtain ⟨last, hlastBlock, hlastHash⟩ := hnode.lastConfirmedBlock _ _ hconf
    have hprocessed := hs.processed t top htop
    have hlt := hprocessed.lt
    have hshort := hremote.short
    cases hat : remoteHashAtCachedTip node (some (t, top.hash)) remoteHeight remoteHash with
    | error e =>
      rw [hat] at hrun
      exact hkeep _ hrun
    | ok atCachedTip =>
      simp only [hat] at hrun
      unfold remoteHashAtCachedTip at hat
      by_cases heq : t = remoteHeight
      · -- the node has nothing above the cached tip
        subst heq
        have hsame : top.hash = remoteHash := by
          rw [← hprocessed.hash hlastBlock]
          exact (Except.ok.inj hlastHash).symm
        have hidle : classifyTips (some (t, top.hash)) t remoteHash
            ((m t).map CompactBlock.hash) atCachedTip = .idle := by
          unfold classifyTips
          simp only [if_neg (lt_irrefl t), if_true, if_pos hsame]
        rw [hidle] at hrun
        exact hkeep _ hrun
      · -- the node is ahead, on the chain of the cached tip
        have hfetch : classifyTips (some (t, top.hash)) remoteHeight remoteHash
            ((m remoteHeight).map CompactBlock.hash) atCachedTip =
            .fetch (t + 1) remoteHeight := by
          have hnext : saturatingAdd t 1 = t + 1 := by
            unfold saturatingAdd
            omega
          unfold classifyTips
          simp only [if_neg (show ¬ remoteHeight < t by omega), if_neg heq, hnext]
          cases atCachedTip with
          | none => rfl
          | some hash =>
            -- the node's block at the cached tip is the cached one
            have hself : hash = top.hash := by
              simp only [if_neg heq] at hat
              cases hans : node.atCachedTip t with
              | error e =>
                rw [hans] at hat
                simp only [] at hat
                split_ifs at hat
                cases hat
              | ok block =>
                rw [hans] at hat
                cases hat
                exact hprocessed.hash (hnode.atCachedTip _ _ hans)
            simp only [hself, ne_eq, not_true_eq_false, if_false]
        rw [hfetch] at hrun
        have hfetched := hs.fetchBlocks hremote hnode.toAnswersFrom
          (min (saturatingAdd (t + 1) (p.batchSize - 1)) remoteHeight + 1 - (t + 1)) 0
        unfold Prog.exec at hfetched ⊢
        rw [hrun]
        exact hfetched

/-- Polls over a growing chain go from a sparse state to a sparse state, and keep the intervals. -/
theorem SparseState.runPolls {polls : List (Poller × Node)}
    (hpolls : GrowingPolls d remote polls remote') (hs : SparseState d remote low t m s) :
    ∃ t' m', SparseState d remote' low t' m' (runPolls polls s) ∧
      KeepsIntervals s (runPolls polls s) := by
  induction hpolls generalizing t m s with
  | nil remote => exact ⟨t, m, hs, .refl s⟩
  | cons hgrows hremote hd hnode _ ih =>
    subst hd
    obtain ⟨t₁, m₁, hs₁, hkeeps₁⟩ := (hs.mono hgrows).poll hremote hnode
    obtain ⟨t', m', hs', hkeeps'⟩ := ih hs₁
    exact ⟨t', m', hs', hkeeps₁.trans hkeeps'⟩

end Sparse

/-! ## Pruned caches -/

/-- The node answers the tip query of a poll and delivers the genesis block. -/
def Backfills (node : Node) : Prop :=
  (∃ height hash, node.lastConfirmedBlock = .ok (height, .ok hash)) ∧
    ∃ block, node.atFetch 0 = .ok block

/-- A cache of the blocks from `low` to the tip `t` of `remote`, with the trees of all its
blocks up to `t`. -/
structure PrunedState (d : Darkfi) (remote : List BlockInfo) (low t : ℕ) (m : BlockMap)
    (s : Cache) : Prop where
  rows : s.db.blocks.Holds m
  cached : ∀ k, (m k).isSome ↔ low ≤ k ∧ k ≤ t
  processed : ∀ k c, m k = some c → ProcessedAt d remote k c
  genesis : ∃ c, ProcessedAt d remote 0 c
  low_pos : 0 < low
  low_le : low ≤ t
  tip : ∃ c, m t = some c ∧ s.db.blocks.tipHeight = some (.value t) ∧
    s.db.blocks.tipHash = some (.value c.hash)
  tree : s.TreeAt (fun k => if k ≤ t then remoteCoins d remote k else []) t
  format : s.db.Current

section Pruned

variable {d : Darkfi} {remote remote' : List BlockInfo} {low t : ℕ} {m : BlockMap} {s : Cache}

/-- The tip of a pruned state is a height of the remote chain. -/
theorem PrunedState.lt (hs : PrunedState d remote low t m s) : t < remote.length := by
  obtain ⟨c, hc, -⟩ := hs.tip
  exact (hs.processed t c hc).lt

/-- A pruned state of a chain is one of the longer chain. -/
theorem PrunedState.mono (hs : PrunedState d remote low t m s) (hpre : remote <+: remote') :
    PrunedState d remote' low t m s := by
  have hcoins : (fun k => if k ≤ t then remoteCoins d remote' k else []) =
      fun k => if k ≤ t then remoteCoins d remote k else [] := by
    funext k
    by_cases hk : k ≤ t
    · rw [if_pos hk, if_pos hk, remoteCoins_grown d hpre (hk.trans_lt hs.lt)]
    · rw [if_neg hk, if_neg hk]
  exact { hs with
    processed := fun k c hc => (hs.processed k c hc).mono hpre
    genesis := hs.genesis.imp fun c hc => hc.mono hpre
    tree := by
      rw [hcoins]
      exact hs.tree }

/-- The tip of a pruned state is its last block. -/
theorem PrunedState.readTip (hs : PrunedState d remote low t m s) :
    ∃ c, m t = some c ∧ s.db.blocks.readTip = .ok (some (t, c.hash)) := by
  obtain ⟨c, hc, h1, h2⟩ := hs.tip
  refine ⟨c, hc, ?_⟩
  unfold BlockRows.readTip
  rw [h1, h2]
  rfl

/-- A pruned state has lost its genesis block. -/
theorem PrunedState.missing (hs : PrunedState d remote low t m s) : m 0 = none := by
  refine Option.not_isSome_iff_eq_none.mp fun hsome => ?_
  have hlow := ((hs.cached 0).mp hsome).1
  have hpos := hs.low_pos
  omega

/-- Without its genesis block, a cache fetches that one or nothing. -/
theorem PrunedState.pollOnce_run (p : Poller) (node : Node) (hs : PrunedState d remote low t m s) :
    (pollOnce p node).run s = match node.lastConfirmedBlock with
      | .error e => (.error e, s)
      | .ok (_, .error e) => (.error (.rpcError ("invalid tip hash from darkfid: " ++ e)), s)
      | .ok (_, .ok _) => (fetchBlocks p node [0] 0).run s := by
  obtain ⟨_, -, hread⟩ := hs.readTip
  rw [pollOnce_rows_run p node hs.rows hread]
  rcases node.lastConfirmedBlock with e | ⟨remoteHeight, e | remoteHash⟩
  · rfl
  · rfl
  · simp only [hs.missing, Option.isNone_none, if_true]
    rw [fetchRange, batchHeights_genesis]

/-- A poll that does not backfill leaves a pruned state alone. -/
theorem PrunedState.poll_idle (p : Poller) {node : Node} (hs : PrunedState d remote low t m s)
    (hnode : ¬ Backfills node) : (pollOnce p node).exec s = s := by
  have hrun := hs.pollOnce_run p node
  unfold Prog.exec
  rw [hrun]
  rcases hconf : node.lastConfirmedBlock with e | ⟨remoteHeight, e | remoteHash⟩
  · rfl
  · rfl
  · cases hfetch : node.atFetch 0 with
    | error e => exact congrArg Prod.snd (fetchBlocks_missing p hfetch [] 0)
    | ok block => exact absurd ⟨⟨_, _, hconf⟩, _, hfetch⟩ hnode

/-- The poll that inserts the genesis block rebuilds the trees from what is left. -/
theorem PrunedState.poll_backfills {p : Poller} {node : Node} (hremote : RemoteChain remote)
    (hnode : node.AnswersFrom remote) (hs : PrunedState p.darkfi remote low t m s)
    (hback : Backfills node) :
    ∃ m', SparseState p.darkfi remote low t m' ((pollOnce p node).exec s) ∧
      KeepsIntervals s ((pollOnce p node).exec s) := by
  obtain ⟨⟨height, hash, hconf⟩, block, hfetch⟩ := hback
  have hblock := hnode.atFetch 0 block hfetch
  obtain ⟨_, block', c, hblock', hprocess, -⟩ := hs.genesis
  rw [hblock] at hblock'
  cases hblock'
  obtain ⟨hheight, -, -, -, hcan⟩ := processBlock_ok hprocess
  have hzero : c.height = 0 := hheight.trans (hremote.height _ _ hblock)
  obtain ⟨merged, s₁, hclues, hsame, hbeside⟩ := applyOmrClueHints_run (p.now 0) c s
  have hblocks : s₁.db.blocks = s.db.blocks := congrArg Prod.fst hbeside
  have htrees : s₁.db.trees = s.db.trees := congrArg (fun p => p.2.1) hbeside
  have hserver : s₁.db.server = s.db.server := congrArg (fun p => p.2.2.1) hbeside
  have hat : merged.height = 0 := hsame.height.trans hzero
  have hlow := hs.low_pos
  have hle := hs.low_le
  obtain ⟨top, htop, h1, h2⟩ := hs.tip
  have hcanRows : ∀ k b, m k = some b → Canonical b.allCoins := by
    intro k b hb
    rw [(hs.processed k b hb).allCoins]
    exact canonical_remoteCoins _ _ _
  have hcanMerged : Canonical merged.allCoins := by
    rw [hsame.allCoins]
    exact hcan
  obtain ⟨s', hrun, hstate, hrows, hlive, hinterval⟩ := insertMerged_backfill (s := s₁)
    (hblocks ▸ hs.rows) hcanRows hcanMerged
    (fun old hold => by rw [hat, hs.missing] at hold; cases hold)
    (by rw [hblocks]; exact h1) (by rw [hblocks]; exact h2) hs.tree.le_max
    (fun k hk => ((hs.cached k).mp hk).2) (by omega) (fun k hk => by omega)
    (by unfold Db.Current; rw [hserver]; exact hs.format)
  have hinsert : (insertCompactBlock (p.now 0) c).run s = (.ok (), s') :=
    (Prog.run_bind_of_ok hclues _).trans hrun
  have hexec : (pollOnce p node).exec s = s' := by
    have hpoll := hs.pollOnce_run p node
    rw [hconf] at hpoll
    unfold Prog.exec
    rw [hpoll]
    exact congrArg Prod.snd (fetchBlocks_inserts p hs.rows hfetch rfl hprocess hinsert [] 0)
  rw [hexec]
  refine ⟨_, ⟨hstate, fun k => ?_, fun k c' hc' => ?_, hle, ?_, hlive⟩, fun k hint hk => ?_⟩
  · by_cases heq : k = merged.height
    · rw [heq, Function.update_self]
      simp only [Option.isSome_some, true_iff]
      omega
    · rw [Function.update_of_ne heq, hs.cached]
      omega
  · exact processedAt_update hs.processed (hat ▸ ⟨block, c, hblock, hprocess, hsame⟩) k c' hc'
  · refine ⟨top, ?_, ?_⟩
    · rw [Function.update_of_ne (by omega), htop]
    · show s'.db.blocks.readTip = _
      rw [hrows, hblocks]
      unfold BlockRows.readTip BlockRows.store
      simp only [h1, h2]
      rfl
  · obtain ⟨row, hrow⟩ := Option.isSome_iff_exists.mp hk
    refine hinterval k (hs.tree.snapshots k row hrow).1 hint (Or.inl (by omega))

/-- Polls that do not get to the genesis block leave a pruned cache alone. -/
theorem PrunedState.runPolls_idle {polls : List (Poller × Node)} (hs : PrunedState d remote low t m s)
    (hidle : ∀ q ∈ polls, ¬ Backfills q.2) : runPolls polls s = s := by
  induction polls with
  | nil => rfl
  | cons q polls ih =>
    obtain ⟨hq, hrest⟩ := List.forall_mem_cons.mp hidle
    unfold runPolls at ih ⊢
    rw [List.foldl_cons, hs.poll_idle q.1 hq, ih hrest]

/-- Polls of which one gets to the genesis block. -/
theorem PrunedState.runPolls_backfills {polls : List (Poller × Node)}
    (hpolls : GrowingPolls d remote polls remote') (hs : PrunedState d remote low t m s)
    (hback : ∃ q ∈ polls, Backfills q.2) :
    ∃ t' m', SparseState d remote' low t' m' (runPolls polls s) ∧
      KeepsIntervals s (runPolls polls s) := by
  induction hpolls with
  | nil remote =>
    obtain ⟨q, hq, -⟩ := hback
    cases hq
  | @cons remote grown remote' p node polls hgrows hremote hd hnode hpolls ih =>
    subst hd
    have hs' := hs.mono hgrows
    have hcons : runPolls ((p, node) :: polls) s = runPolls polls ((pollOnce p node).exec s) := rfl
    by_cases hfirst : Backfills node
    · obtain ⟨m₁, hs₁, hkeeps₁⟩ := hs'.poll_backfills hremote hnode.toAnswersFrom hfirst
      obtain ⟨t', m', hs', hkeeps'⟩ := hs₁.runPolls hpolls
      rw [hcons]
      exact ⟨t', m', hs', hkeeps₁.trans hkeeps'⟩
    · rw [hcons, hs'.poll_idle p hfirst]
      refine ih hs' ?_
      obtain ⟨q, hq, hqback⟩ := hback
      rcases List.mem_cons.mp hq with rfl | hq
      · exact absurd hqback hfirst
      · exact ⟨q, hq, hqback⟩

/-- Polls over growing chains end over a longer one. -/
theorem GrowingPolls.grows {polls : List (Poller × Node)} (h : GrowingPolls d remote polls remote') :
    remote <+: remote' := by
  induction h with
  | nil remote => exact List.prefix_rfl
  | cons hgrows _ _ _ _ ih => exact hgrows.trans ih

end Pruned

end LightWalletd
