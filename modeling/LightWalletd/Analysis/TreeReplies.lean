import Mathlib.Order.Monotone.Basic
import LightWalletd.Analysis.TipTreeInvariant
import LightWalletd.Analysis.WriterSteps
import LightWalletd.Model.TreeHandlers

/-!
# Tree replies beside a poller

A tree request reads while the poller inserts and rewinds. The tip tree and its height are
read one after the other, and so are a tree and the hash of its block. The reply is the tree
of a chain that the cache held, with its hash, when the height fits the tree that is read
after it and no other hash takes the place of that of the tree's block.
-/

set_option autoImplicit false

namespace LightWalletd

open Stateful

/-! ## What a request replies -/

section Requests

variable (w : Wire)

/-- The hash that a reply has for a height: none when the row is missing or malformed. -/
def Cache.hashBytes (s : Cache) (height : ℕ) : Bytes :=
  match s.db.blocks.blockHashes.get height with
  | some (.value hash) => hash.1
  | _ => []

/-- A hash is read at one moment. -/
theorem blockHashVec_observe (height : ℕ) (seen : ℕ → Cache) :
    (blockHashVec height).observe seen = .ok ((seen 0).hashBytes height) := by
  unfold blockHashVec getBlockHash Cache.hashBytes Tree.get Prog.get
  simp only [blockHashes, Prog.bind_eq, Prog.bind, Prog.attempt, Prog.mapError, Prog.observe]
  rcases (seen 0).db.blocks.blockHashes.get height with _ | hash | bytes <;> rfl

/-- The tip tree is read in two moments: its height, then its data. -/
theorem getTipTreeState_observe (seen : ℕ → Cache) :
    getTipTreeState.observe seen = .ok (match (seen 0).db.trees.tipMerkleHeight with
      | some (.value height) =>
        (seen 1).db.trees.tipMerkleTree.map fun treeData => (height, treeData)
      | _ => none) := by
  unfold getTipTreeState Cell.get Prog.get
  simp only [metaTipMerkleHeight, metaTipMerkleTree, Prog.bind_eq, Prog.bind, Prog.observe]
  rcases (seen 0).db.trees.tipMerkleHeight with _ | height | bytes
  · rfl
  · simp only [Prog.observe]
    cases (seen 1).db.trees.tipMerkleTree <;> rfl
  · rfl

/-- Both reads are made where there is a tip tree. -/
theorem getTipTreeState_reads {seen : ℕ → Cache} {r : ℕ × Stored MerkleTree}
    (h : getTipTreeState.observe seen = .ok (some r)) : getTipTreeState.reads seen = 2 := by
  rw [getTipTreeState_observe] at h
  unfold getTipTreeState Cell.get Prog.get
  simp only [metaTipMerkleHeight, metaTipMerkleTree, Prog.bind_eq, Prog.bind, Prog.reads]
  rcases hheight : (seen 0).db.trees.tipMerkleHeight with _ | height | bytes
  · rw [hheight] at h
    cases h
  · simp only [Prog.reads]
    cases (seen 1).db.trees.tipMerkleTree <;> rfl
  · rw [hheight] at h
    cases h

/-- The request is for the tip that it reads first. -/
def AsksTip (seen : ℕ → Cache) (height : ℕ) : Prop :=
  ∃ tip, getTip.observe seen = .ok tip ∧ height = (tip.map Prod.fst).getD 0

/-- The reads behind a reply of `get_tree_state`: at the tip the height and the tree under the
tip keys, elsewhere a snapshot, and then the block hash; or nothing is indexed. -/
theorem getTreeState_observe_ok {height : ℕ} {seen : ℕ → Cache} {reply : Proto.TreeState}
    (h : (getTreeState w height).observe seen = .ok reply) :
    (AsksTip seen height ∧
      ((seen (getTip.reads seen)).db.trees.tipMerkleHeight = some (.value height) ∧
          (∃ tree, (seen (getTip.reads seen + 1)).db.trees.tipMerkleTree = some tree ∧
            reply = persistedTreeState w height (w.treeBytes tree)
              ((seen (getTip.reads seen + 2)).hashBytes height)) ∨
        height = 0 ∧ (getTipTreeState.observe fun n => seen (n + getTip.reads seen)) = .ok none ∧
          reply.height = 0 ∧ reply.treeData = w.serialize MerkleTree.new ∧ reply.blockHash = [])) ∨
    (¬ AsksTip seen height ∧
      ∃ tree, (seen (getTip.reads seen)).db.trees.merkleSnapshots.get height = some tree ∧
        reply = persistedTreeState w height (w.treeBytes tree)
          ((seen (getTip.reads seen + 1)).hashBytes height)) := by
  unfold getTreeState at h
  rw [Prog.bind_eq, Prog.observe_bind, Prog.observe_mapError, Prog.reads_mapError] at h
  cases htip : getTip.observe seen with
  | error e =>
    rw [htip] at h
    cases h
  | ok cachedTip =>
    rw [htip] at h
    set r := getTip.reads seen
    simp only [Except.mapError] at h
    by_cases hask : height = (cachedTip.map Prod.fst).getD 0
    · refine Or.inl ⟨⟨cachedTip, htip, hask⟩, ?_⟩
      rw [if_pos hask, Prog.bind_eq, Prog.observe_bind, Prog.observe_mapError,
        Prog.reads_mapError] at h
      cases hkeys : getTipTreeState.observe fun n => seen (n + r) with
      | error e =>
        rw [hkeys] at h
        cases h
      | ok keys =>
        rw [hkeys] at h
        cases keys with
        | none =>
          simp only [Except.mapError] at h
          by_cases h0 : (cachedTip.map Prod.fst).getD 0 = 0
          · rw [if_pos h0] at h
            cases h
            exact Or.inr ⟨hask.trans h0, rfl, rfl, rfl, rfl⟩
          · rw [if_neg h0] at h
            cases h
        | some keys =>
          obtain ⟨treeHeight, treeData⟩ := keys
          simp only [Except.mapError] at h
          by_cases hfit : treeHeight = (cachedTip.map Prod.fst).getD 0
          · rw [← hask] at hfit
            subst hfit
            rw [if_pos hask, Prog.bind_eq, Prog.observe_bind, blockHashVec_observe,
              getTipTreeState_reads hkeys] at h
            cases h
            rw [getTipTreeState_observe] at hkeys
            refine Or.inl ?_
            rcases hheight : (seen (0 + r)).db.trees.tipMerkleHeight with _ | H | bytes <;>
              simp only [hheight] at hkeys
            · cases hkeys
            · obtain ⟨tree, htree, heq⟩ := Option.map_eq_some_iff.mp (Except.ok.inj hkeys)
              cases heq
              rw [Nat.zero_add] at hheight
              exact ⟨hheight, treeData, by rw [← htree, Nat.add_comm], by
                rw [Nat.zero_add, Nat.add_comm]⟩
            · cases hkeys
          · rw [if_neg hfit] at h
            cases h
    · refine Or.inr ⟨?_, ?_⟩
      · rintro ⟨tip, htip', hask'⟩
        rw [htip] at htip'
        cases htip'
        exact hask hask'
      · rw [if_neg hask, Prog.bind_eq, Prog.observe_bind, Prog.observe_mapError,
          Prog.reads_mapError] at h
        have hsnapshot : (merkleSnapshot height).observe (fun n => seen (n + r)) =
            .ok ((seen (0 + r)).db.trees.merkleSnapshots.get height) := rfl
        have hreads : (merkleSnapshot height).reads (fun n => seen (n + r)) = 1 := rfl
        rw [hsnapshot, hreads, Nat.zero_add] at h
        cases hrow : (seen r).db.trees.merkleSnapshots.get height with
        | none =>
          rw [hrow] at h
          simp only [Except.mapError, Prog.bind_eq, Prog.observe_bind] at h
          split at h <;> cases h
        | some tree =>
          rw [hrow] at h
          simp only [Except.mapError, Prog.bind_eq, Prog.observe_bind, blockHashVec_observe] at h
          cases h
          refine ⟨tree, rfl, ?_⟩
          rw [Nat.zero_add, Nat.add_comm]

/-- The first chunks are the first bytes. -/
theorem flatten_chunks (bytes : Bytes) (k : ℕ) :
    ((List.range k).map fun i => (bytes.drop (i * chunkSize)).take
      (min (i * chunkSize + chunkSize) bytes.length - i * chunkSize)).flatten =
      bytes.take (k * chunkSize) := by
  induction k with
  | zero => simp
  | succ k ih =>
    rw [List.range_succ, List.map_append, List.flatten_append, ih, Nat.succ_mul, List.take_add]
    congr 1
    show (_ ++ []) = _
    rw [List.append_nil]
    apply List.take_eq_take_iff.mpr
    rw [List.length_drop]
    omega

/-- The chunks of a stream add up to the tree. -/
theorem treeChunks_flatten (bytes : Bytes) : (treeChunks bytes).flatten = bytes := by
  unfold treeChunks
  by_cases hempty : bytes.isEmpty = true
  · simp [List.isEmpty_iff.mp hempty]
  · simp only [if_neg hempty]
    rw [flatten_chunks]
    apply List.take_of_length_le
    have hpos : 0 < chunkSize := by decide
    have hround := Nat.div_add_mod (bytes.length + chunkSize - 1) chunkSize
    have hlt := Nat.mod_lt (bytes.length + chunkSize - 1) hpos
    rw [Nat.mul_comm] at hround
    omega

/-- A stream has a message. -/
theorem treeChunks_ne_nil (bytes : Bytes) : treeChunks bytes ≠ [] := by
  unfold treeChunks
  by_cases hempty : bytes.isEmpty = true
  · simp [hempty]
  · have hpos : 0 < bytes.length := List.length_pos_iff.mpr fun hnil => hempty (by rw [hnil]; rfl)
    have htotal : 0 < (bytes.length + chunkSize - 1) / chunkSize := by
      apply Nat.div_pos
      · omega
      · decide
    simp only [if_neg hempty, ne_eq, List.map_eq_nil_iff, List.range_eq_nil]
    omega

/-- The snapshot that a checkpoint request takes. -/
def Cache.checkpoint (s : Cache) (preferred : ℕ) : Option (ℕ × Stored MerkleTree) :=
  s.db.trees.merkleSnapshots.lastUpTo (if preferred = 0 then u32Max else preferred)

/-- The two reads behind a stream of `get_checkpoint_snapshot`: the snapshot, then the hash. -/
theorem getCheckpointSnapshot_observe_ok {allowed : Bool} {preferred : ℕ} {seen : ℕ → Cache}
    {messages : List Proto.CheckpointSnapshot}
    (h : (getCheckpointSnapshot w allowed preferred).observe seen = .ok messages) :
    ∃ height tree, (seen 0).checkpoint preferred = some (height, tree) ∧ messages ≠ [] ∧
      (∀ m ∈ messages, m.height = height ∧ m.blockHash = (seen 1).hashBytes height) ∧
      messages.flatMap Proto.CheckpointSnapshot.treeData = w.treeBytes tree := by
  have hfound : ∀ k : Option (ℕ × Stored MerkleTree) → Handler (List Proto.CheckpointSnapshot),
      (if preferred = 0 then (latestSnapshot.mapError cacheStatus).bind k
        else ((greatestSnapshotAtOrBelow preferred).mapError cacheStatus).bind k) =
      (Prog.get fun s => s.checkpoint preferred).bind k := by
    intro k
    unfold Cache.checkpoint
    by_cases h0 : preferred = 0
    · rw [if_pos h0, if_pos h0]
      rfl
    · rw [if_neg h0, if_neg h0]
      rfl
  unfold getCheckpointSnapshot at h
  cases allowed with
  | false => cases h
  | true =>
    simp only [Bool.not_true, Bool.false_eq_true, if_false, Prog.bind_eq, hfound] at h
    rw [Prog.get, Prog.bind, Prog.observe, Prog.bind] at h
    cases hrow : (seen 0).checkpoint preferred with
    | none =>
      rw [hrow] at h
      cases h
    | some found =>
      obtain ⟨height, tree⟩ := found
      rw [hrow] at h
      simp only [Prog.observe_bind, blockHashVec_observe] at h
      cases h
      refine ⟨height, tree, rfl, fun hnil => ?_, fun m hm => ?_, ?_⟩
      · exact treeChunks_ne_nil _ (List.map_eq_nil_iff.mp hnil)
      · obtain ⟨chunk, -, rfl⟩ := List.mem_map.mp hm
        exact ⟨rfl, rfl⟩
      · rw [List.flatMap_map]
        show List.flatMap id (treeChunks _) = _
        rw [List.flatMap_id, treeChunks_flatten]

end Requests

/-! ## What the poller does meanwhile -/

/-- Calls of the poller on a chain, given by its block hashes: the next block, with coins as the
block processor makes them, or a rewind to one of the heights, but the last of all. -/
inductive PollerCalls : List Bytes32 → List (CacheM Unit) → Prop
  | done (hashes : List Bytes32) : PollerCalls hashes []
  | insert {hashes : List Bytes32} {calls : List (CacheM Unit)} (now : ℕ) (block : CompactBlock) :
      block.CanonicalCoins → block.height = hashes.length → hashes.length ≤ u32Max →
      (∀ low ∈ hashes.getLast?, block.prevHash = low) →
      PollerCalls (hashes ++ [block.hash]) calls →
      PollerCalls hashes (insertCompactBlock now block :: calls)
  | rewind {hashes : List Bytes32} {calls : List (CacheM Unit)} (height : ℕ) :
      height < hashes.length → height < u32Max → PollerCalls (hashes.take (height + 1)) calls →
      PollerCalls hashes (rewindToHeight height :: calls)

/-- Neighbouring states are related by `R` on a chain that one of the caches `held` has. -/
def HeldBy (R : List CompactBlock → Cache → Cache → Prop) (held : List Cache) (s s' : Cache) :
    Prop :=
  ∃ cache ∈ held, ∃ chain, ChainState chain cache ∧ R chain s s'

/-- Neighbouring states are pieces of a chain that one of the caches `held` has. -/
def HeldStep (held : List Cache) (s s' : Cache) : Prop :=
  ∃ cache ∈ held, ∃ chain, ChainState chain cache ∧ TreeStep chain s s'

/-- The commands of the poller stay in `R`, on the longer of the two chains. -/
structure WriterRules (R : List CompactBlock → Cache → Cache → Prop) : Prop where
  rest : ∀ chain s, ChainState chain s → R chain s s
  insert : ∀ chain s now block, ChainState chain s → block.CanonicalCoins →
    block.height = chain.length → chain.length ≤ u32Max →
    (∀ low ∈ chain.getLast?, block.prevHash = low.hash) →
    ∃ merged s', merged.SameBeside block ∧ (insertCompactBlock now block).run s = (.ok (), s') ∧
      ChainState (chain ++ [merged]) s' ∧
      (insertCompactBlock now block).Guarantees (R (chain ++ [merged])) s
  rewind : ∀ chain s height, ChainState chain s → height < chain.length → height < u32Max →
    (rewindToHeight height).Guarantees (R chain) s

section Timeline

variable {R : List CompactBlock → Cache → Cache → Prop}

/-- Caches held in a part of the run were held in the run. -/
theorem HeldBy.mono {held held' : List Cache} {s s' : Cache} (h : HeldBy R held s s')
    (hsub : held ⊆ held') : HeldBy R held' s s' := by
  obtain ⟨cache, hmem, hchain⟩ := h
  exact ⟨cache, hsub hmem, hchain⟩

/-- The cache it starts from is held. -/
theorem self_mem_boundaries (calls : List (CacheM Unit)) (s : Cache) :
    s ∈ Prog.boundaries calls s := by
  cases calls <;> exact List.mem_cons_self

/-- One call and what follows it. -/
theorem heldBy_cons {call : CacheM Unit} {calls : List (CacheM Unit)} {s : Cache}
    (hcall : call.Guarantees (HeldBy R (Prog.boundaries (call :: calls) s)) s)
    (hrest : (Prog.timeline calls (call.exec s)).IsChain
      (HeldBy R (Prog.boundaries calls (call.exec s)))) :
    (Prog.timeline (call :: calls) s).IsChain (HeldBy R (Prog.boundaries (call :: calls) s)) := by
  have hsub : Prog.boundaries calls (call.exec s) ⊆ Prog.boundaries (call :: calls) s :=
    List.subset_cons_self _ _
  refine Prog.isChain_append_changes hcall (call.getLast?_changes s) ?_
  exact hrest.imp fun _ _ h => h.mono hsub

/-- Every step of the calls is one on a chain that the cache has before or after the call. -/
theorem PollerCalls.heldBy (hR : WriterRules R) {hashes : List Bytes32}
    {calls : List (CacheM Unit)} (hcalls : PollerCalls hashes calls) {chain : List CompactBlock}
    {s : Cache} (hs : ChainState chain s) (hhashes : chain.map CompactBlock.hash = hashes) :
    (Prog.timeline calls s).IsChain (HeldBy R (Prog.boundaries calls s)) ∧
      HeldBy R (Prog.boundaries calls s) (Prog.execAll calls s) (Prog.execAll calls s) := by
  induction hcalls generalizing chain s with
  | done hashes =>
    exact ⟨List.isChain_singleton s, s, List.mem_singleton_self s, chain, hs, hR.rest chain s hs⟩
  | @insert hashes calls now block hcan hheight hmax hlink _ ih =>
    have hlen : chain.length = hashes.length := by rw [← hhashes, List.length_map]
    obtain ⟨merged, s', hsame, hrun, hstate, hsteps⟩ := hR.insert chain s now block hs hcan
      (by omega) (by omega) fun low hlow => by
        apply hlink
        rw [← hhashes, List.getLast?_map, hlow]
        rfl
    have hexec : (insertCompactBlock now block).exec s = s' := by
      unfold Prog.exec
      rw [hrun]
    have hnext := ih hstate (by rw [List.map_append, hhashes, ← hsame.hash]; rfl)
    rw [← hexec] at hnext hstate
    -- the chain of the call is the one after it
    have hheld : (insertCompactBlock now block).exec s ∈
        Prog.boundaries (insertCompactBlock now block :: calls) s :=
      List.mem_cons_of_mem _ (self_mem_boundaries _ _)
    exact ⟨heldBy_cons (hsteps.mono fun t t' h => ⟨_, hheld, _, hstate, h⟩) hnext.1,
      hnext.2.mono (List.subset_cons_self _ _)⟩
  | @rewind hashes calls height hlt hmax _ ih =>
    have hlen : chain.length = hashes.length := by rw [← hhashes, List.length_map]
    obtain ⟨s', hrun, hstate⟩ := hs.rewind (by omega) hmax
    have hexec : (rewindToHeight height).exec s = s' := by
      unfold Prog.exec
      rw [hrun]
    have hsteps := hR.rewind chain s height hs (by omega) hmax
    have hnext := ih hstate (by rw [List.map_take, hhashes])
    rw [← hexec] at hnext
    -- the chain of the call is the one before it
    have hheld : s ∈ Prog.boundaries (rewindToHeight height :: calls) s := self_mem_boundaries _ _
    exact ⟨heldBy_cons (hsteps.mono fun t t' h => ⟨s, hheld, chain, hs, h⟩) hnext.1,
      hnext.2.mono (List.subset_cons_self _ _)⟩

/-- All neighbouring moments of the timeline are related. -/
theorem PollerCalls.heldBy_stateAt (hR : WriterRules R) {calls : List (CacheM Unit)}
    (hcalls : PollerCalls [] calls) {now : ℕ} {s₀ : Cache} (hnew : Cache.new now .empty = .ok s₀)
    (n : ℕ) :
    HeldBy R (Prog.boundaries calls s₀) (Prog.stateAt calls s₀ n) (Prog.stateAt calls s₀ (n + 1)) := by
  obtain ⟨hsteps, hlast⟩ := hcalls.heldBy hR (.of_new hnew) rfl
  exact Prog.stateAt_rel hsteps hlast n

/-- Every write of the poller steps so. -/
theorem treeStep_rules : WriterRules TreeStep where
  rest _ _ hs := hs.within.steady.step hs.fits hs.within.steady
  insert _ _ now _ hs hcan hheight hmax hlink :=
    insertCompactBlock_steps now hs hcan hheight hmax hlink
  rewind _ _ _ hs hlt hmax := rewindToHeight_steps hs hlt hmax

end Timeline

/-! ## Right replies -/

/-- The reads of a request, in order, at moments of the timeline of the poller. -/
structure Schedule where
  moment : ℕ → ℕ
  monotone : Monotone moment

/-- `treeData` is the tree of the blocks that the cache `held` has up to `height`, and
`blockHash`, when there is one, the hash that it has for `height`. Before the first block the
tree has no leaf at all. -/
structure RightReply (w : Wire) (held : Cache) (height : ℕ) (treeData blockHash : Bytes) : Prop where
  tree : ∃ tree, treeData = w.serialize tree ∧
    ((held.db.blocks.compactBlocks.get height).isSome ∧
        tree.leafBytes = Base.zero.repr :: held.cachedCoins (fun h => decide (h ≤ height)) ∨
      held.db.blocks.compactBlocks = .empty ∧ tree = MerkleTree.new)
  hash : blockHash = [] ∨
    ∃ hash, held.db.blocks.blockHashes.get height = some (.value hash) ∧ blockHash = hash.1

/-- `s'` has for `height` no other hash than `s`. -/
def KeepsHash (height : ℕ) (s s' : Cache) : Prop :=
  s'.db.blocks.blockHashes.get height = none ∨
    s'.db.blocks.blockHashes.get height = s.db.blocks.blockHashes.get height

section Replies

variable {w : Wire} {held : List Cache} {s s' e : Cache} {height : ℕ}

/-- A hash that is read is one a held cache has, or empty. -/
theorem hashBytes_right {chain : List CompactBlock} {cache : Cache} (hs : Within chain s)
    (hc : ChainState chain cache) (hkeep : KeepsHash height s e) :
    e.hashBytes height = [] ∨ ∃ hash, cache.db.blocks.blockHashes.get height = some (.value hash) ∧
      e.hashBytes height = hash.1 := by
  unfold Cache.hashBytes
  cases hrow : e.db.blocks.blockHashes.get height with
  | none => exact Or.inl rfl
  | some row =>
    rw [KeepsHash, hrow] at hkeep
    obtain ⟨block, hblock, rfl⟩ := hs.blockHashes height row (hkeep.resolve_left nofun).symm
    refine Or.inr ⟨block.hash, ?_, rfl⟩
    rw [hc.rows.blockHashes, chainMap, hblock]
    rfl

/-- A tree of a chain, with a hash that the cache kept, is a right reply. -/
theorem rightReply_of_treeTo {chain : List CompactBlock} {cache : Cache} (hs : Within chain s)
    (hc : ChainState chain cache) (hlt : height < chain.length) (hkeep : KeepsHash height s e) :
    RightReply w cache height (w.serialize (treeTo (chainCoins chain) height))
      (e.hashBytes height) := by
  refine ⟨⟨_, rfl, Or.inl ⟨?_, ?_⟩⟩, hashBytes_right hs hc hkeep⟩
  · rw [hc.rows.compactBlocks, Option.isSome_map, chainMap_isSome]
    exact hlt
  · rw [hc.rows.cachedCoins]
    exact leafBytes_treeTo fun k _ => hc.canonical_coinsOf k

/-- A tip tree is right at the height that is stored after the next step. -/
theorem rightReply_of_tip (hstep : HeldStep held s s') {tree : Stored MerkleTree}
    (htree : s.db.trees.tipMerkleTree = some tree)
    (hheight : s'.db.trees.tipMerkleHeight = some (.value height)) (hkeep : KeepsHash height s e) :
    ∃ cache ∈ held, RightReply w cache height (w.treeBytes tree) (e.hashBytes height) := by
  obtain ⟨cache, hmem, chain, hc, hstep⟩ := hstep
  rcases hstep.fits with hnone | ⟨H, hH, heq⟩
  · rw [htree] at hnone
    cases hnone
  · rw [htree, hheight] at heq
    cases heq
    exact ⟨cache, hmem, rightReply_of_treeTo hstep.before hc hH hkeep⟩

/-- A snapshot is right at its height. -/
theorem rightReply_of_snapshot (hstep : HeldStep held s s') {tree : Stored MerkleTree}
    (hrow : s.db.trees.merkleSnapshots.get height = some tree) (hkeep : KeepsHash height s e) :
    ∃ cache ∈ held, RightReply w cache height (w.treeBytes tree) (e.hashBytes height) := by
  obtain ⟨cache, hmem, chain, hc, hstep⟩ := hstep
  obtain ⟨hlt, rfl⟩ := hstep.before.snapshots height tree hrow
  exact ⟨cache, hmem, rightReply_of_treeTo hstep.before hc hlt hkeep⟩

end Replies

/-- What the poller leaves in place while `get_tree_state` reads: its first step after the tree
is read stores no other height than the one read before, and no other hash replaces that of
the block of the tree. -/
structure CalmForTree (state : ℕ → Cache) (moment : ℕ → ℕ) (height : ℕ) : Prop where
  tip : AsksTip (fun n => state (moment n)) height →
    let r := getTip.reads fun n => state (moment n)
    (state (moment (r + 1) + 1)).db.trees.tipMerkleHeight =
        (state (moment r)).db.trees.tipMerkleHeight ∧
      KeepsHash height (state (moment (r + 1))) (state (moment (r + 2)))
  snapshot : ¬ AsksTip (fun n => state (moment n)) height →
    let r := getTip.reads fun n => state (moment n)
    KeepsHash height (state (moment r)) (state (moment (r + 1)))

/-- What the poller leaves in place while `get_checkpoint_snapshot` reads. -/
def CalmForCheckpoint (state : ℕ → Cache) (moment : ℕ → ℕ) (preferred : ℕ) : Prop :=
  ∀ r ∈ (state (moment 0)).checkpoint preferred, KeepsHash r.1 (state (moment 0)) (state (moment 1))

/-- Beside any calls of the poller from an empty cache on, a request that nothing of this
disturbs is answered with the tree of a chain that the cache held between two calls. -/
theorem tree_replies_right (w : Wire) {now : ℕ} {s₀ : Cache} {calls : List (CacheM Unit)}
    (hnew : Cache.new now .empty = .ok s₀) (hcalls : PollerCalls [] calls) (sched : Schedule) :
    let state := Prog.stateAt calls s₀
    let seen := fun n => state (sched.moment n)
    (∀ height reply, (getTreeState w height).observe seen = .ok reply →
      CalmForTree state sched.moment height → ∃ held ∈ Prog.boundaries calls s₀,
        RightReply w held reply.height reply.treeData reply.blockHash) ∧
    ∀ allowed preferred messages,
      (getCheckpointSnapshot w allowed preferred).observe seen = .ok messages →
      CalmForCheckpoint state sched.moment preferred →
        ∃ held ∈ Prog.boundaries calls s₀, ∃ height blockHash,
          (∀ m ∈ messages, m.height = height ∧ m.blockHash = blockHash) ∧
          RightReply w held height (messages.flatMap Proto.CheckpointSnapshot.treeData) blockHash := by
  intro state seen
  have hstep : ∀ n, HeldStep (Prog.boundaries calls s₀) (state n) (state (n + 1)) :=
    hcalls.heldBy_stateAt treeStep_rules hnew
  refine ⟨fun height reply hreply hcalm => ?_, fun allowed preferred messages hreply hcalm => ?_⟩
  · rcases getTreeState_observe_ok w hreply with ⟨hask, ⟨hheight, tree, htree, rfl⟩ |
        ⟨-, -, -, htree, hhash⟩⟩ | ⟨hask, tree, htree, rfl⟩
    · obtain ⟨hsame, hkeep⟩ := hcalm.tip hask
      exact rightReply_of_tip (hstep _) htree (hsame.trans hheight) hkeep
    · -- nothing was indexed: the answer of the empty cache
      refine ⟨s₀, self_mem_boundaries calls s₀, ⟨_, htree, Or.inr ⟨?_, rfl⟩⟩, Or.inl hhash⟩
      rw [(new_empty hnew).1]
      rfl
    · exact rightReply_of_snapshot (hstep _) htree (hcalm.snapshot hask)
  · obtain ⟨height, tree, hfound, -, hmessages, htree⟩ := getCheckpointSnapshot_observe_ok w hreply
    obtain ⟨hrow, -, -⟩ := (OrderedMap.lastUpTo_eq_some_iff _ _ _ _).mp hfound
    obtain ⟨held, hmem, hright⟩ := rightReply_of_snapshot (w := w) (hstep _) hrow (hcalm _ hfound)
    exact ⟨held, hmem, height, _, hmessages, by rw [htree]; exact hright⟩

/-! ## Two inserts -/

/-- Trees written as their leaves, and a hash of nothing. -/
def Wire.plain : Wire := ⟨fun tree => tree.leafBytes.flatMap Subtype.val, fun _ => Bytes32.fill 0⟩

/-- The plain wire format has 32 bytes for each leaf. -/
theorem Wire.length_plain (tree : MerkleTree) :
    (Wire.plain.serialize tree).length = 32 * tree.leafBytes.length := by
  show (tree.leafBytes.flatMap Subtype.val).length = _
  induction tree.leafBytes with
  | nil => rfl
  | cons leaf leaves ih =>
    rw [List.flatMap_cons, List.length_append, ih, leaf.2, List.length_cons]
    omega

/-- A genesis block and the next one, each with one coin. -/
def twoInserts : List (CacheM Unit) :=
  [insertCompactBlock 0 (.sample 0 1 [1] []),
    insertCompactBlock 0 { CompactBlock.sample 1 2 [2] [] with prevHash := Bytes32.fill 1 }]

/-- The two inserts are the poller's. -/
theorem twoInserts_calls : PollerCalls [] twoInserts := by
  refine .insert 0 _ (by decide +kernel) rfl (by decide) nofun ?_
  refine .insert 0 _ (by decide +kernel) rfl (by decide) ?_ (.done _)
  intro low hlow
  cases hlow
  rfl

/-- All reads fall between the two inserts, but those from number `n` on after the tree of the
second one is written. -/
def Schedule.splitAt (n : ℕ) : Schedule where
  moment k := if k < n then 11 else 19
  monotone := by
    intro j k hjk
    by_cases hk : k < n
    · simp only [if_pos hk, if_pos (hjk.trans_lt hk), le_refl]
    · simp only [if_neg hk]
      split_ifs <;> decide

/-- The states that a request sees on this schedule. -/
def Schedule.seen (sched : Schedule) (n : ℕ) : Cache :=
  Prog.stateAt twoInserts .initial (sched.moment n)

/-- The tree of the genesis block, with its hash. -/
def genesisReply : Proto.TreeState :=
  persistedTreeState .plain 0 (Wire.plain.serialize (tipTreeOf [Bytes32.fill 1])) (Bytes32.fill 1).1

/-- Only the block hash is read beside the second insert. -/
theorem tree_replies_right_genesis : ∃ held ∈ Prog.boundaries twoInserts .initial,
    RightReply .plain held 0 genesisReply.treeData genesisReply.blockHash := by
  have hreply : (getTreeState .plain 0).observe (Schedule.splitAt 4).seen = .ok genesisReply := by
    decide +kernel
  refine (tree_replies_right .plain new_initial twoInserts_calls (.splitAt 4)).1 0 _ hreply
    ⟨fun _ => ?_, fun _ => ?_⟩
  · unfold KeepsHash
    decide +kernel
  · unfold KeepsHash
    decide +kernel

/-- The tree of both blocks, as that of the genesis block. -/
def tornReply : Proto.TreeState :=
  persistedTreeState .plain 0
    (Wire.plain.serialize (tipTreeOf [Bytes32.fill 1, Bytes32.fill 2])) (Bytes32.fill 1).1

/-- The height is read before the second insert, and the tree after that wrote it. -/
theorem torn_tree_reply : Cache.new 0 .empty = .ok .initial ∧ PollerCalls [] twoInserts ∧
    (getTreeState .plain 0).observe (Schedule.splitAt 3).seen = .ok tornReply ∧
    ∀ held ∈ Prog.boundaries twoInserts .initial,
      ¬ RightReply .plain held 0 tornReply.treeData tornReply.blockHash := by
  refine ⟨new_initial, twoInserts_calls, by decide +kernel, fun held hheld hright => ?_⟩
  have hlength : tornReply.treeData.length = 96 := by decide +kernel
  have hcoins : ∀ held ∈ Prog.boundaries twoInserts .initial,
      (held.cachedCoins fun h => decide (h ≤ 0)).length ≤ 1 := by
    decide +kernel
  obtain ⟨tree, htree, ⟨-, hleaves⟩ | ⟨-, rfl⟩⟩ := hright.tree
  · have hone := hcoins held hheld
    rw [htree, Wire.length_plain, hleaves, List.length_cons] at hlength
    omega
  · rw [htree] at hlength
    cases hlength

end LightWalletd
