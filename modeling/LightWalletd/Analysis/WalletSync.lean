import LightWalletd.Analysis.PaddedBuckets
import LightWalletd.Analysis.PollerLinkage
import LightWalletd.Analysis.QuiescentReplies
import LightWalletd.Analysis.RangeStreams

/-!
# A wallet that walks the buckets

A wallet fetches a chain in buckets of one size. Between two calls of the poller no bucket is
refused, the streams of all buckets are the blocks from the first bucket on, each once and in order,
and their coins make the tree of a checkpoint the one at the tip.
-/

set_option autoImplicit false

namespace LightWalletd

open Stateful PowersOfTwo

/-- After any calls of the poller the cache holds a chain, on which more calls may follow. -/
theorem PollerCalls.exec_chainState {hashes : List Bytes32} {calls : List (CacheM Unit)}
    (hcalls : PollerCalls hashes calls) {chain : List CompactBlock} {s : Cache}
    (hs : ChainState chain s) (hhashes : chain.map CompactBlock.hash = hashes) :
    ∃ chain', ChainState chain' (Prog.execAll calls s) ∧ ∀ more,
      PollerCalls (chain'.map CompactBlock.hash) more → PollerCalls hashes (calls ++ more) := by
  induction hcalls generalizing chain s with
  | done hashes => exact ⟨chain, hs, fun more hmore => hhashes ▸ hmore⟩
  | insert now block hcan hheight hmax hlink hrest ih =>
    obtain rfl := hhashes
    have hlen : (chain.map CompactBlock.hash).length = chain.length := List.length_map _
    have hlow : ∀ low ∈ chain.getLast?, block.prevHash = low.hash := by
      intro low hlow
      exact hlink low.hash (by rw [List.getLast?_map, Option.mem_def.mp hlow]; rfl)
    obtain ⟨merged, s', hbeside, hrun, hstate⟩ :=
      hs.append now hcan (hheight.trans hlen) (hlen ▸ hmax) hlow
    unfold Prog.execAll Prog.exec
    rw [hrun]
    obtain ⟨chain', hstate', hmore⟩ := ih hstate (by simp [hbeside.hash])
    exact ⟨chain', hstate', fun more h => .insert now block hcan hheight hmax hlink (hmore more h)⟩
  | rewind height hlt hmax hrest ih =>
    obtain rfl := hhashes
    obtain ⟨s', hrun, hstate⟩ := hs.rewind (by simpa using hlt) hmax
    unfold Prog.execAll Prog.exec
    rw [hrun]
    obtain ⟨chain', hstate', hmore⟩ := ih hstate List.map_take
    exact ⟨chain', hstate', fun more h => .rewind height hlt hmax (hmore more h)⟩

/-! ## Streams at rest -/

section AtRest

variable {T : Type} {messages : CompactBlock → List T} {chain : List CompactBlock} {s : Cache}

/-- The block that a stream over a chain has behind it when it comes to height `k`. -/
def streamedLast (chain : List CompactBlock) (start k : ℕ) : Option CompactBlock :=
  if k = start then none else chain[k - 1]?

/-- At rest a height has the block of the chain, or none. -/
theorem getCompactBlock_attempt_run (hs : ChainState chain s) (k : ℕ) :
    ((getCompactBlock k).attempt.mapError cacheStatus).run s = (.ok (.ok chain[k]?), s) := by
  apply Prog.run_mapError_of_ok
  rw [Prog.run_attempt, getCompactBlock_run hs.rows]
  rfl

/-- Neighbours of a chain are successors. -/
theorem ChainState.successor (hs : ChainState chain s) {k : ℕ} {low high : CompactBlock}
    (hlow : chain[k]? = some low) (hhigh : chain[k + 1]? = some high) : low.Successor high := by
  refine ⟨?_, HashChains.Linked.getElem? hs.linked hlow hhigh⟩
  have hlt : k + 1 < chain.length := (List.getElem?_eq_some_iff.mp hhigh).1
  have hshort := hs.short
  rw [hs.rows.height (k + 1) high hhigh, hs.rows.height k low hlow]
  unfold saturatingAdd
  omega

/-- At rest no block breaks the stream. -/
theorem continuesStream_chain (hs : ChainState chain s) {start k : ℕ} (hk : start ≤ k)
    {block : CompactBlock} (hblock : chain[k]? = some block) :
    continuesStream start (streamedLast chain start k) block = .ok () := by
  unfold streamedLast
  by_cases hfirst : k = start
  · rw [if_pos hfirst]
    have hheight : block.height = start := (hs.rows.height k block hblock).trans hfirst
    unfold continuesStream
    exact if_neg (not_not.mpr hheight)
  · rw [if_neg hfirst]
    obtain ⟨j, rfl⟩ : ∃ j, k = j + 1 := ⟨k - 1, by omega⟩
    have hlt : j + 1 < chain.length := (List.getElem?_eq_some_iff.mp hblock).1
    have hlow : chain[j]? = some chain[j] := List.getElem?_eq_getElem (by omega)
    rw [Nat.add_sub_cancel, hlow]
    exact checkSuccessor_eq_ok_iff.mpr (hs.successor hlow hblock)

/-- At rest a stream sends the messages of its blocks and finishes. -/
theorem streamBlocks_run (messages : CompactBlock → List T) (hs : ChainState chain s)
    {start k n : ℕ} (hk : start ≤ k) (hn : k + n ≤ chain.length) (sent : List T) :
    (streamBlocks (fun _ => true) messages start (List.range' k n)
      (streamedLast chain start k) sent).run s =
        (.ok ⟨sent ++ ((chain.drop k).take n).flatMap messages, .finished⟩, s) := by
  induction n generalizing k sent with
  | zero =>
    rw [List.take_zero, List.flatMap_nil, List.append_nil]
    rfl
  | succ n ih =>
    have hlt : k < chain.length := by omega
    have hblock : chain[k]? = some chain[k] := List.getElem?_eq_getElem hlt
    have hnext : streamedLast chain start (k + 1) = some chain[k] := by
      unfold streamedLast
      rw [if_neg (by omega), Nat.add_sub_cancel, hblock]
    have hrest := @ih (k + 1) (by omega) (by omega) (sent ++ messages chain[k])
    rw [hnext] at hrest
    rw [List.range'_succ, streamBlocks, Prog.bind_eq,
      Prog.run_bind_of_ok (getCompactBlock_attempt_run hs k), hblock]
    dsimp only
    rw [continuesStream_chain hs hk hblock, sendStream_of_takes fun _ => rfl]
    dsimp only
    rw [hrest, List.drop_eq_getElem_cons hlt, List.take_succ_cons, List.flatMap_cons,
      List.append_assoc]

/-- A padded range of a chain that the server takes is streamed in full. -/
theorem streamPadded_run (hs : ChainState chain s) {start last : ℕ} (hne : chain ≠ [])
    (hrule : paddedRangeRejection start last (chain.length - 1) maxBlocksPerRequest = some none)
    (horder : start ≤ last) (hlast : last < chain.length) :
    (streamPadded (fun _ => true) true messages start last).run s =
      (.ok ⟨((chain.drop start).take (last + 1 - start)).flatMap messages, .finished⟩, s) := by
  have htip : (getTip.mapError cacheStatus).run s = (.ok (chainTip chain), s) := by
    apply Prog.run_mapError_of_ok
    rw [getTip_run, hs.readTip]
  obtain ⟨⟨tip, hash⟩, hchain⟩ := Option.ne_none_iff_exists'.mp (mt chainTip_eq_none_iff.mp hne)
  obtain ⟨-, -, hlen, -⟩ := chainTip_eq_some_iff.mp hchain
  have hrange : (requirePaddedBlockRange start last).run s = (.ok (start, last), s) := by
    unfold requirePaddedBlockRange
    rw [Prog.bind_eq, Prog.run_bind_of_ok htip, hchain]
    dsimp only
    rw [show tip = chain.length - 1 by omega, hrule]
    rfl
  have hallowed : (liftStatus (checkRpcRateLimit true)).run s = (.ok (), s) := rfl
  unfold streamPadded streamRange
  rw [Prog.bind_eq, Prog.run_bind_of_ok hallowed, Prog.bind_eq, Prog.run_bind_of_ok hrange]
  have hfirst : streamedLast chain start start = none := if_pos rfl
  have hstream := streamBlocks_run messages hs le_rfl
    (show start + (last + 1 - start) ≤ chain.length by omega) []
  rw [hfirst] at hstream
  exact hstream

end AtRest

/-! ## Buckets -/

section Buckets

variable {bucket tip : ℕ}

/-- The buckets of one size from number `first` on, the last one cut at the tip. -/
def bucketRanges (bucket first tip : ℕ) : List (ℕ × ℕ) :=
  (List.range' first (tip / bucket + 1 - first)).map fun k =>
    (k * bucket, min (k * bucket + (bucket - 1)) tip)

/-- No bucket is refused. -/
theorem paddedRangeRejection_bucketRange (htip : tip ≤ u32Max) (hpow : bucket.isPowerOfTwo)
    (hmin : minPaddedRangeSpan ≤ bucket) (hmax : bucket ≤ maxBucket) {k : ℕ}
    (hk : k * bucket ≤ tip) :
    paddedRangeRejection (k * bucket) (min (k * bucket + (bucket - 1)) tip) tip
      maxBlocksPerRequest = some none := by
  have hpos : 0 < bucket := Nat.pos_of_isPowerOfTwo hpow
  by_cases hfull : k * bucket + (bucket - 1) ≤ tip
  · rw [min_eq_left hfull]
    exact paddedRangeRejection_bucket (by omega) hfull hpow hmin hmax (by omega)
  · rw [min_eq_right (by omega)]
    obtain ⟨reason, hreason, hiff⟩ :=
      paddedRangeRejection_spec (k * bucket) tip maxBlocksPerRequest htip
    have hle : maxBucket ≤ maxBlocksPerRequest := by decide
    have hdvd : bucketAlign (tip - k * bucket + 1) ∣ k * bucket :=
      (bucketAlign_dvd hpow hmin (by omega)).trans (Nat.dvd_mul_left bucket k)
    rw [hreason, hiff.mpr ⟨hk, le_rfl, by omega, Or.inr ⟨hdvd, by omega⟩⟩]

/-- Pieces of one size are the list from the first of them on. -/
theorem flatMap_pieces {α : Type} (xs : List α) (b first n : ℕ) :
    ((List.range' first n).flatMap fun k => (xs.drop (k * b)).take b) =
      (xs.drop (first * b)).take (n * b) := by
  induction n generalizing first with
  | zero =>
    rw [Nat.zero_mul, List.take_zero]
    rfl
  | succ n ih =>
    rw [List.range'_succ, List.flatMap_cons, ih, Nat.add_mul n, Nat.one_mul, Nat.add_comm (n * b),
      List.take_add, List.drop_drop, Nat.add_mul first, Nat.one_mul]

/-- Buckets one after the other give the whole list from the first one on. -/
theorem flatMap_bucketRanges {α : Type} {xs : List α} (hlen : xs.length = tip + 1)
    (hpos : 0 < bucket) (first : ℕ) :
    ((bucketRanges bucket first tip).flatMap fun range =>
      (xs.drop range.1).take (range.2 + 1 - range.1)) = xs.drop (first * bucket) := by
  have hpiece : ∀ k, ((xs.drop (k * bucket)).take
      (min (k * bucket + (bucket - 1)) tip + 1 - k * bucket)) = (xs.drop (k * bucket)).take bucket := by
    intro k
    rw [List.take_eq_take_iff, List.length_drop, hlen]
    omega
  have hcover : tip < (tip / bucket + 1) * bucket := by
    rw [Nat.mul_comm]
    exact Nat.lt_mul_div_succ tip hpos
  unfold bucketRanges
  rw [List.flatMap_map]
  simp only [hpiece]
  rw [flatMap_pieces, List.take_of_length_le]
  rw [List.length_drop, hlen, Nat.sub_mul]
  omega

/-- The requests for all buckets, one after the other. -/
def walkBuckets {T : Type} (request : ℕ → ℕ → Handler (Streamed T)) (bucket first tip : ℕ) :
    Handler (List (Streamed T)) :=
  Prog.mapEach (fun range => request range.1 range.2) (bucketRanges bucket first tip)

/-- The walk gives the blocks of the chain in order, bucket after bucket. -/
theorem walkBuckets_run {T : Type} (messages : CompactBlock → List T) {chain : List CompactBlock}
    {s : Cache} (hs : ChainState chain s) (hlen : chain.length = tip + 1)
    (hpow : bucket.isPowerOfTwo) (hmin : minPaddedRangeSpan ≤ bucket) (hmax : bucket ≤ maxBucket)
    (first : ℕ) :
    ∃ replies, (walkBuckets (streamPadded (fun _ => true) true messages) bucket first tip).run s =
        (.ok replies, s) ∧
      (∀ reply ∈ replies, reply.ending = .finished) ∧
      replies.flatMap Streamed.messages = (chain.drop (first * bucket)).flatMap messages := by
  have hpos : 0 < bucket := Nat.pos_of_isPowerOfTwo hpow
  have hshort := hs.short
  have hne : chain ≠ [] := List.ne_nil_of_length_eq_add_one hlen
  have htip : chain.length - 1 = tip := by omega
  refine ⟨(bucketRanges bucket first tip).map fun range => ⟨((chain.drop range.1).take
    (range.2 + 1 - range.1)).flatMap messages, .finished⟩, Prog.run_mapEach ?_, ?_, ?_⟩
  · intro range hrange
    obtain ⟨k, hk, rfl⟩ := List.mem_map.mp hrange
    rw [List.mem_range'_1] at hk
    have hle : k * bucket ≤ tip :=
      (Nat.mul_le_mul_right bucket (show k ≤ tip / bucket by omega)).trans (Nat.div_mul_le_self _ _)
    refine streamPadded_run hs hne ?_ (by omega) (by omega)
    rw [htip]
    exact paddedRangeRejection_bucketRange (by omega) hpow hmin hmax hle
  · intro reply hreply
    obtain ⟨range, -, rfl⟩ := List.mem_map.mp hreply
    rfl
  · rw [← flatMap_bucketRanges hlen hpos first, List.flatMap_map, List.flatMap_assoc]

end Buckets

/-- At rest, no bucket of a walk is refused, and the streams of a walk are the messages of all
blocks from the first bucket on. -/
theorem bucket_walk_complete {now : ℕ} {s₀ : Cache} {calls : List (CacheM Unit)}
    (hnew : Cache.new now .empty = .ok s₀) (hcalls : PollerCalls [] calls) {bucket : ℕ}
    (hpow : bucket.isPowerOfTwo) (hmin : minPaddedRangeSpan ≤ bucket) (hmax : bucket ≤ maxBucket) :
    let s := Prog.execAll calls s₀
    ∃ chain, ChainState chain s ∧ ∀ (T : Type) (messages : CompactBlock → List T) (first tip : ℕ),
      chain.length = tip + 1 →
      ∃ replies, (walkBuckets (streamPadded (fun _ => true) true messages) bucket first tip).run s =
          (.ok replies, s) ∧
        (∀ reply ∈ replies, reply.ending = .finished) ∧
        replies.flatMap Streamed.messages = (chain.drop (first * bucket)).flatMap messages := by
  obtain ⟨chain, hchain, -⟩ := hcalls.exec_chainState (.of_stack (.of_new hnew) .nil) rfl
  exact ⟨chain, hchain, fun T messages first tip hlen =>
    walkBuckets_run messages hchain hlen hpow hmin hmax first⟩

/-! ## From a checkpoint to the tip -/

section Checkpoint

variable {w : Wire} {chain : List CompactBlock} {s : Cache}

/-- The coins below a height, block by block. -/
theorem coinsBelow_chainCoins (chain : List CompactBlock) (n : ℕ) :
    coinsBelow (chainCoins chain) n = (chain.take n).flatMap CompactBlock.allCoins := by
  induction n with
  | zero => rfl
  | succ n ih =>
    rw [coinsBelow_succ, ih, List.take_add_one, List.flatMap_append]
    unfold chainCoins coinsOf chainMap
    cases chain[n]? <;> simp

/-- The blocks above a height are the last ones of the chain. -/
theorem filter_drop_chain (hs : ChainState chain s) {h j : ℕ} (hj : j ≤ h + 1) :
    (chain.drop j).filter (fun block => decide (h < block.height)) = chain.drop (h + 1) := by
  have hheight : ∀ (k : ℕ) (block : CompactBlock), chain[k]? = some block → block.height = k :=
    hs.rows.height
  have hsplit : chain.drop j = (chain.drop j).take (h + 1 - j) ++ chain.drop (h + 1) := by
    conv_lhs => rw [← List.take_append_drop (h + 1 - j) (chain.drop j)]
    rw [List.drop_drop, Nat.add_sub_cancel' hj]
  rw [hsplit, List.filter_append, List.filter_eq_nil_iff.mpr, List.filter_eq_self.mpr,
    List.nil_append]
  · intro block hblock
    obtain ⟨i, hi⟩ := List.getElem?_of_mem hblock
    rw [List.getElem?_drop] at hi
    rw [hheight _ block hi, decide_eq_true_eq]
    omega
  · intro block hblock
    obtain ⟨i, hi⟩ := List.getElem?_of_mem hblock
    rw [List.getElem?_take] at hi
    split_ifs at hi with hlt
    rw [List.getElem?_drop] at hi
    rw [hheight _ block hi, decide_eq_true_eq]
    omega

/-- The tree at the tip is there when it is asked for. -/
theorem getTreeState_tip_run (hs : ChainState chain s) {tip : ℕ} (hlen : chain.length = tip + 1) :
    ∃ reply, ((getTreeState w tip).run s).1 = .ok reply ∧
      reply.treeData = w.serialize (treeTo (chainCoins chain) tip) := by
  have hne : chain ≠ [] := List.ne_nil_of_length_eq_add_one hlen
  obtain ⟨H, hat⟩ : ∃ H, s.TreeAt (chainCoins chain) H := by
    rcases hs.tree with ⟨hlive, -, -⟩ | hat
    · have hheight := hs.treeHeight
      rw [hlive] at hheight
      exact absurd (chainTip_eq_none_iff.mp (Option.map_eq_none_iff.mp hheight.symm)) hne
    · exact hat
  obtain rfl : H = tip := by
    have := hs.stack.length_of_treeAt hat
    omega
  obtain ⟨⟨t, hash⟩, htip⟩ := Option.ne_none_iff_exists'.mp (mt chainTip_eq_none_iff.mp hne)
  obtain ⟨-, -, ht, -⟩ := chainTip_eq_some_iff.mp htip
  obtain rfl : t = H := by omega
  have hget : (getTip.mapError cacheStatus).run s = (.ok (some (t, hash)), s) := by
    apply Prog.run_mapError_of_ok
    rw [getTip_run, hs.readTip, htip]
  have hkeys : (getTipTreeState.mapError cacheStatus).run s =
      (.ok (some (t, .value (treeTo (chainCoins chain) t))), s) := by
    apply Prog.run_mapError_of_ok
    rw [readOnly_getTipTreeState.run_eq, getTipTreeState_observe, hat.tipMerkleHeight,
      hat.tipMerkleTree]
    rfl
  have hhash : (blockHashVec t).run s = (.ok (s.hashBytes t), s) := by
    rw [(readOnly_blockHashVec t).run_eq, blockHashVec_observe]
  refine ⟨persistedTreeState w t (w.serialize (treeTo (chainCoins chain) t)) (s.hashBytes t), ?_, rfl⟩
  unfold getTreeState
  rw [Prog.bind_eq, Prog.run_bind_of_ok hget]
  dsimp only [Option.map, Option.getD]
  rw [if_pos rfl, Prog.bind_eq, Prog.run_bind_of_ok hkeys]
  dsimp only
  rw [if_pos rfl, Prog.bind_eq, Prog.run_bind_of_ok hhash]
  rfl

/-- A compact block is sent with all its coins. -/
theorem coins_noteCommitmentUpdate (block : CompactBlock) :
    block.noteCommitmentUpdate.coins = block.allCoins.map Subtype.val := by
  unfold CompactBlock.noteCommitmentUpdate CompactBlock.allCoins
  rw [List.map_flatMap]
  simp only [List.map_map]
  rfl

/-- The coins above a height, as a walk from below it streams them. -/
theorem coins_above (hs : ChainState chain s) {h j : ℕ} (hj : j ≤ h + 1) :
    (((chain.drop j).flatMap fun block => [block.noteCommitmentUpdate]).filter
      fun m => decide (h < m.height)).flatMap Proto.NoteCommitmentUpdate.coins =
        ((chain.drop (h + 1)).flatMap CompactBlock.allCoins).map Subtype.val := by
  have hmap : ((chain.drop j).flatMap fun block => [block.noteCommitmentUpdate]) =
      (chain.drop j).map CompactBlock.noteCommitmentUpdate := List.map_eq_flatMap.symm
  rw [hmap, List.filter_map]
  show (((chain.drop j).filter fun block => decide (h < block.height)).map _).flatMap _ = _
  rw [filter_drop_chain hs hj, List.flatMap_map, List.map_flatMap]
  simp only [coins_noteCommitmentUpdate]

end Checkpoint

/-- At rest, the coins that a walk streams from above a checkpoint, appended to the leaves of the
checkpoint's tree, are the leaves of the tree at the tip. -/
theorem checkpoint_walk_tip_tree (w : Wire) {now : ℕ} {s₀ : Cache} {calls : List (CacheM Unit)}
    (hnew : Cache.new now .empty = .ok s₀) (hcalls : PollerCalls [] calls) {bucket : ℕ}
    (hpow : bucket.isPowerOfTwo) (hmin : minPaddedRangeSpan ≤ bucket) (hmax : bucket ≤ maxBucket) :
    let s := Prog.execAll calls s₀
    ∀ preferred snapshot, ((getCheckpointSnapshot w true preferred).run s).1 = .ok snapshot →
      ∃ height tip tree tree' reply, (∀ m ∈ snapshot, m.height = height) ∧
        snapshot.flatMap Proto.CheckpointSnapshot.treeData = w.serialize tree ∧
        ((getTip.run s).1.map fun tip => tip.map Prod.fst) = .ok (some tip) ∧
        ((getTreeState w tip).run s).1 = .ok reply ∧ reply.treeData = w.serialize tree' ∧
        ∀ first, first * bucket ≤ height + 1 →
          ∃ replies, (walkBuckets (getNoteCommitments (fun _ => true) true) bucket first tip).run s =
              (.ok replies, s) ∧
            tree'.leafBytes.map Subtype.val = tree.leafBytes.map Subtype.val ++
              ((replies.flatMap Streamed.messages).filter fun m => decide (height < m.height)).flatMap
                Proto.NoteCommitmentUpdate.coins := by
  intro s preferred snapshot hsnapshot
  obtain ⟨chain, hchain, -⟩ := hcalls.exec_chainState (.of_stack (.of_new hnew) .nil) rfl
  rw [(readOnly_getCheckpointSnapshot w true preferred).run_eq] at hsnapshot
  obtain ⟨height, row, hfound, -, hmessages, hdata⟩ := getCheckpointSnapshot_observe_ok w hsnapshot
  obtain ⟨hrow, -⟩ := hchain.stack.checkpoint hfound
  obtain ⟨-, rfl, hne⟩ := hchain.stack.snapshot hrow
  obtain ⟨tip, hlen⟩ : ∃ tip, chain.length = tip + 1 :=
    ⟨chain.length - 1, by have := List.length_pos_iff.mpr hne; omega⟩
  have hle : height ≤ tip := by
    rcases hchain.tree with ⟨-, htrees, -⟩ | ⟨H, hat⟩
    · rw [htrees] at hrow
      cases hrow
    · have := hchain.stack.length_of_treeAt hat
      have := (hat.snapshots height _ hrow).1
      omega
  have htip : ((getTip.run s).1.map fun tip => tip.map Prod.fst) = .ok (some tip) := by
    obtain ⟨⟨t, hash⟩, ht⟩ := Option.ne_none_iff_exists'.mp (mt chainTip_eq_none_iff.mp hne)
    obtain ⟨-, -, hlen', -⟩ := chainTip_eq_some_iff.mp ht
    obtain rfl : t = tip := by omega
    rw [getTip_run, hchain.readTip, ht]
    rfl
  obtain ⟨reply, hreply, htree⟩ := getTreeState_tip_run (w := w) hchain hlen
  refine ⟨height, tip, _, _, reply, fun m hm => (hmessages m hm).1, hdata, htip, hreply, htree,
    fun first hfirst => ?_⟩
  obtain ⟨replies, hwalk, -, hstreamed⟩ := walkBuckets_run
    (fun block => [block.noteCommitmentUpdate]) hchain hlen hpow hmin hmax first
  refine ⟨replies, hwalk, ?_⟩
  have hcan : ∀ k, Canonical (chainCoins chain k) := hchain.stack.canonical_coinsOf
  rw [hstreamed, coins_above hchain hfirst, leafBytes_treeTo fun k _ => hcan k,
    leafBytes_treeTo fun k _ => hcan k, ← List.map_append, List.cons_append, coinsBelow_chainCoins,
    coinsBelow_chainCoins, ← List.flatMap_append, ← hlen, List.take_length,
    List.take_append_drop]

/-! ## Three buckets, and three blocks -/

/-- Block `k` of a chain of blocks with one nullifier each. -/
def stackedBlock (k : ℕ) : CompactBlock where
  height := k
  hash := heightHash k
  prevHash := heightHash (k - 1)
  timestamp := 0
  txs := [⟨heightHash k, [], [heightHash k], 0⟩]
  daoCalls := []
  funcEvents := []

/-- The inserts of `n` such blocks from height `j` on. -/
def stackedCalls (j n : ℕ) : List (CacheM Unit) :=
  (List.range' j n).map fun k => insertCompactBlock 0 (stackedBlock k)

/-- The coins of a stacked block are canonical. -/
theorem canonicalCoins_stackedBlock (k : ℕ) : (stackedBlock k).CanonicalCoins :=
  fun _ hcoin => absurd hcoin List.not_mem_nil

/-- Each block names the hash of the one below. -/
theorem stackedCalls_calls {j n : ℕ} (hmax : j + n ≤ u32Max + 1) :
    PollerCalls ((List.range j).map heightHash) (stackedCalls j n) := by
  induction n generalizing j with
  | zero => exact .done _
  | succ n ih =>
    have hlength : ((List.range j).map heightHash).length = j := by simp
    have hrest := ih (j := j + 1) (by omega)
    rw [List.range_succ, List.map_append] at hrest
    refine .insert 0 (stackedBlock j) (canonicalCoins_stackedBlock j) hlength.symm
      (by rw [hlength]; omega) (fun low hlow => ?_) hrest
    rw [List.getLast?_map, List.getLast?_range] at hlow
    split_ifs at hlow
    · cases hlow
    · exact Option.some.inj hlow

/-- The inserts make a chain of as many blocks. -/
theorem stackedCalls_length {j n : ℕ} (hmax : j + n ≤ u32Max + 1) {chain : List CompactBlock}
    {s : Cache} (hs : ChainState chain s) (hlen : chain.length = j)
    (hlast : ∀ low ∈ chain.getLast?, low.hash = heightHash (j - 1)) :
    ∃ chain', ChainState chain' (Prog.execAll (stackedCalls j n) s) ∧ chain'.length = j + n := by
  induction n generalizing j chain s with
  | zero => exact ⟨chain, hs, hlen⟩
  | succ n ih =>
    obtain ⟨merged, s', hbeside, hrun, hstate⟩ := hs.append 0 (canonicalCoins_stackedBlock j)
      hlen.symm (by omega) fun low hlow => (hlast low hlow).symm
    obtain ⟨chain', hstate', hlen'⟩ := ih (j := j + 1) (by omega) hstate (by simp [hlen])
      fun low hlow => by
        rw [List.getLast?_concat] at hlow
        cases hlow
        exact hbeside.hash
    refine ⟨chain', ?_, by omega⟩
    have hexec : Prog.execAll (stackedCalls j (n + 1)) s =
        Prog.execAll (stackedCalls (j + 1) n) s' := by
      show Prog.execAll (stackedCalls (j + 1) n) ((insertCompactBlock 0 (stackedBlock j)).exec s) = _
      rw [Prog.exec, hrun]
    rw [hexec]
    exact hstate'

/-- A chain of 2500 blocks is fetched in two full buckets and a cut one. -/
theorem bucket_walk_complete_three :
    let s := Prog.execAll (stackedCalls 0 2500) .initial
    ∃ chain replies, ChainState chain s ∧
      (walkBuckets (getNullifiers (fun _ => true) true) 1024 0 2499).run s = (.ok replies, s) ∧
      bucketRanges 1024 0 2499 = [(0, 1023), (1024, 2047), (2048, 2499)] ∧
      replies.flatMap Streamed.messages = chain.flatMap fun block => [block.nullifierUpdate] := by
  intro s
  obtain ⟨chain, hchain, hwalk⟩ :=
    bucket_walk_complete new_initial (stackedCalls_calls (j := 0) (n := 2500) (by decide)) ⟨10, rfl⟩
      le_rfl (by decide)
  obtain ⟨chain', hchain', hlen'⟩ := stackedCalls_length (j := 0) (n := 2500) (by decide)
    (.of_stack (.of_new new_initial) .nil) rfl nofun
  have hlen : chain.length = 2499 + 1 := by
    have htips : chainTip chain = chainTip chain' :=
      Except.ok.inj (hchain.readTip.symm.trans hchain'.readTip)
    cases htip : chainTip chain' with
    | none =>
      rw [chainTip_eq_none_iff.mp htip] at hlen'
      cases hlen'
    | some tip =>
      obtain ⟨t, hash⟩ := tip
      obtain ⟨-, -, ht', -⟩ := chainTip_eq_some_iff.mp htip
      obtain ⟨-, -, ht, -⟩ := chainTip_eq_some_iff.mp (htips.trans htip)
      omega
  obtain ⟨replies, hrun, -, hmessages⟩ :=
    hwalk Proto.NullifierUpdate (fun block => [block.nullifierUpdate]) 0 2499 hlen
  exact ⟨chain, replies, hchain, hrun, by decide, hmessages⟩

/-- Three blocks, with a coin in the first two and two coins in the third. -/
def threeInserts : List (CacheM Unit) :=
  twoInserts ++
    [insertCompactBlock 0 { CompactBlock.sample 2 3 [3, 4] [] with prevHash := Bytes32.fill 2 }]

/-- The three inserts are the poller's. -/
theorem threeInserts_calls : PollerCalls [] threeInserts := by
  refine .insert 0 _ (by decide +kernel) rfl (by decide) nofun ?_
  refine .insert 0 _ (by decide +kernel) rfl (by decide) ?_ ?_
  · intro low hlow
    cases hlow
    rfl
  · refine .insert 0 _ (by decide +kernel) rfl (by decide) ?_ (.done _)
    intro low hlow
    cases hlow
    rfl

/-- The checkpoint is that of the genesis block, and the coins of the two blocks above are
streamed. -/
theorem checkpoint_walk_tip_tree_three : ∃ (snapshot : List Proto.CheckpointSnapshot) (height : ℕ)
    (tree tree' : MerkleTree) (replies : List (Streamed Proto.NoteCommitmentUpdate)),
    ((getCheckpointSnapshot .plain true 1).run (Prog.execAll threeInserts .initial)).1 =
      .ok snapshot ∧
    snapshot.flatMap Proto.CheckpointSnapshot.treeData = Wire.plain.serialize tree ∧
    (∀ m ∈ snapshot, m.height = height) ∧
    tree'.leafBytes.map Subtype.val = tree.leafBytes.map Subtype.val ++
      ((replies.flatMap Streamed.messages).filter fun m => decide (height < m.height)).flatMap
        Proto.NoteCommitmentUpdate.coins := by
  obtain ⟨snapshot, hsnapshot⟩ : ∃ snapshot,
      ((getCheckpointSnapshot .plain true 1).run (Prog.execAll threeInserts .initial)).1 =
        .ok snapshot := ⟨_, rfl⟩
  obtain ⟨height, tip, tree, tree', reply, hheight, hdata, -, -, -, hwalk⟩ :=
    checkpoint_walk_tip_tree .plain new_initial threeInserts_calls ⟨10, rfl⟩ le_rfl (by decide) 1
      snapshot hsnapshot
  obtain ⟨replies, -, hleaves⟩ := hwalk 0 (by omega)
  exact ⟨snapshot, height, tree, tree', replies, hsnapshot, hdata, hheight, hleaves⟩

end LightWalletd
