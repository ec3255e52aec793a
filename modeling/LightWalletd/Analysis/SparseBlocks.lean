import LightWalletd.Analysis.DigestWire
import LightWalletd.Analysis.WalletSync

/-!
# Blocks at single heights

A request for single heights reads its blocks in the order of the heights, each once. The check of
neighbours makes every run of heights without a gap a piece of one chain, although the poller may
write between any two reads; between two calls of the poller the reply is the blocks of the chain
that are asked for, whatever the order of the request.
-/

set_option autoImplicit false

namespace LightWalletd

open Stateful

/-! ## Distinct heights -/

section Heights

variable {heights : List ℕ}

/-- Every height asked for is among the distinct ones. -/
theorem mem_distinctHeights {h : ℕ} : h ∈ distinctHeights heights ↔ h ∈ heights := by
  unfold distinctHeights
  rw [mem_destutter, List.mem_insertionSort]

/-- The distinct heights increase. -/
theorem pairwise_distinctHeights (heights : List ℕ) :
    (distinctHeights heights).Pairwise (· < ·) :=
  pairwise_lt_destutter (heights.pairwise_insertionSort (· ≤ ·))

/-- Neighbours of a sorted list have neighbouring places. -/
theorem getElem?_of_consecutive {l : List ℕ} (hsorted : l.Pairwise (· < ·)) {a i n : ℕ}
    (hmem : ∀ j ≤ n, a + j ∈ l) (hi : l[i]? = some a) : ∀ j ≤ n, l[i + j]? = some (a + j) := by
  intro j
  induction j with
  | zero => exact fun _ => hi
  | succ j ih =>
    intro hj
    have hlow := ih (by omega)
    obtain ⟨k, hk⟩ := List.getElem?_of_mem (hmem (j + 1) hj)
    obtain ⟨hilt, hival⟩ := List.getElem?_eq_some_iff.mp hlow
    obtain ⟨hklt, hkval⟩ := List.getElem?_eq_some_iff.mp hk
    have hmono := List.pairwise_iff_getElem.mp hsorted
    have hik : i + j < k := by
      by_contra hle
      rcases Nat.lt_or_eq_of_le (Nat.le_of_not_lt hle) with hlt | rfl
      · have := hmono k (i + j) hklt hilt hlt
        omega
      · omega
    by_cases hnext : k = i + (j + 1)
    · rw [← hnext, hk]
    · have hmid := hmono (i + j) (i + (j + 1)) hilt (by omega) (by omega)
      have htop := hmono (i + (j + 1)) k (by omega) hklt (by omega)
      omega

end Heights

/-! ## Beside a poller -/

section Observed

variable {seen : ℕ → Cache} {held : List Cache}

/-- A block that is found was held when it was read. -/
theorem blockOrNotFound_observe {height : ℕ} {block : CompactBlock}
    (h : (blockOrNotFound height).observe seen = .ok block) :
    (seen 0).blockAt height = some block ∧ (blockOrNotFound height).reads seen = 1 := by
  obtain ⟨hobserve, hreads⟩ := getCompactBlock_observe height seen
  unfold blockOrNotFound at h ⊢
  obtain ⟨found, hfound, h⟩ := Prog.observe_bind_eq_ok h
  rw [Prog.bind_eq, Prog.reads_bind_of_ok hfound, Prog.reads_mapError, hreads]
  have hfound := Prog.observe_of_mapError_eq_ok hfound
  rw [hobserve] at hfound
  cases found with
  | none => cases h
  | some b =>
    cases h
    exact ⟨getCompactBlock_eq_some_iff.mp hfound, rfl⟩

/-- One read for each block. -/
theorem mapEach_blockOrNotFound_observe {heights : List ℕ} {blocks : List CompactBlock}
    (h : (Prog.mapEach blockOrNotFound heights).observe seen = .ok blocks) :
    ReadsBlocks seen heights blocks ∧ blocks.length = heights.length := by
  induction heights generalizing seen blocks with
  | nil =>
    cases h
    exact ⟨.nil _ _, rfl⟩
  | cons height heights ih =>
    rw [Prog.mapEach] at h
    obtain ⟨block, hblock, h⟩ := Prog.observe_bind_eq_ok h
    obtain ⟨rest, hrest, h⟩ := Prog.observe_bind_eq_ok h
    obtain ⟨hat, hreads⟩ := blockOrNotFound_observe hblock
    rw [hreads] at hrest
    cases h
    obtain ⟨hreads', hlength⟩ := ih hrest
    exact ⟨.cons hat hreads', congrArg (· + 1) hlength⟩

/-- The check passes exactly where neighbours are linked. -/
theorem checkAdjacentPairs_eq_ok_iff {blocks : List CompactBlock} :
    checkAdjacentPairs blocks = .ok () ↔
      blocks.IsChain fun low high => high.height = saturatingAdd low.height 1 → low.Successor high := by
  induction blocks with
  | nil => exact ⟨fun _ => .nil, fun _ => rfl⟩
  | cons low blocks ih =>
    cases blocks with
    | nil => exact ⟨fun _ => .singleton low, fun _ => rfl⟩
    | cons high blocks =>
      rw [List.isChain_cons_cons, ← ih, ← checkSuccessor_eq_ok_iff, checkAdjacentPairs]
      unfold checkAdjacentPair
      by_cases hnext : high.height = saturatingAdd low.height 1
      · rw [if_pos hnext]
        cases checkSuccessor low high with
        | error status =>
          refine ⟨fun h => ?_, fun h => ?_⟩
          · cases h
          · cases h.1 hnext
        | ok u =>
          cases u
          exact ⟨fun h => ⟨fun _ => rfl, h⟩, fun h => h.2⟩
      · rw [if_neg hnext]
        exact ⟨fun h => ⟨fun heq => absurd heq hnext, h⟩, fun h => h.2⟩

/-- The reply is the blocks that were read, and every run of their heights without a gap is a piece
of one chain. -/
structure SparseReply (held : List Cache) (heights : List ℕ) (blocks : List CompactBlock)
    (r : Streamed Proto.CompactBlock) : Prop where
  heights_eq : blocks.map CompactBlock.height = distinctHeights heights
  sent : r.messages <+: blocks.map CompactBlock.toProto
  finished : r.ending = .finished → r.messages = blocks.map CompactBlock.toProto
  runs : ∀ a n, (∀ j ≤ n, a + j ∈ heights) → ∃ cache ∈ held, ∃ piece, piece <:+: blocks ∧
    piece.length = n + 1 ∧ PieceOf cache a piece

/-- A block is held at its own height. -/
theorem SeesHeld.height_of_blockAt (hheld : SeesHeld held seen) {n height : ℕ}
    {block : CompactBlock} (hblock : (seen n).blockAt height = some block) :
    block.height = height ∧ height ≤ u32Max := by
  obtain ⟨cache, -, chain, hchain, hamong⟩ := hheld n
  have hcached := blockAt_of_among hamong hchain hblock
  rw [hchain.blockAt] at hcached
  have hlt : height < chain.length := (List.getElem?_eq_some_iff.mp hcached).1
  have hshort := hchain.short
  exact ⟨hchain.rows.height height block hcached, by omega⟩

/-- What the check of neighbours makes of the blocks that were read. -/
theorem sparseReply_of_reads (hheld : SeesHeld held seen) (hid : HashesIdentifyCached held)
    {heights : List ℕ} {blocks : List CompactBlock} {r : Streamed Proto.CompactBlock}
    (hreads : ReadsBlocks seen (distinctHeights heights) blocks)
    (hlength : blocks.length = (distinctHeights heights).length)
    (hpairs : checkAdjacentPairs blocks = .ok ())
    (hsent : r.messages <+: blocks.map CompactBlock.toProto)
    (hfinished : r.ending = .finished → r.messages = blocks.map CompactBlock.toProto) :
    SparseReply held heights blocks r := by
  have hat : ∀ i (hi : i < blocks.length), (distinctHeights heights)[i]? = some blocks[i].height ∧
      (seen i).blockAt blocks[i].height = some blocks[i] ∧ blocks[i].height ≤ u32Max := by
    intro i hi
    obtain ⟨height, hheight, hblock⟩ := hreads i blocks[i] (List.getElem?_eq_getElem hi)
    obtain ⟨rfl, hmax⟩ := hheld.height_of_blockAt hblock
    exact ⟨hheight, hblock, hmax⟩
  refine ⟨?_, hsent, hfinished, fun a n hrun => ?_⟩
  · apply List.ext_getElem (by rw [List.length_map, hlength])
    intro i hi _
    rw [List.length_map] at hi
    have hheight := (List.getElem?_eq_some_iff.mp (hat i hi).1).2
    rw [List.getElem_map, hheight]
  · obtain ⟨i, hi⟩ := List.getElem?_of_mem (mem_distinctHeights.mpr (hrun 0 (Nat.zero_le n)))
    have hplaces : ∀ j ≤ n, (distinctHeights heights)[i + j]? = some (a + j) :=
      getElem?_of_consecutive (pairwise_distinctHeights heights)
        (fun j hj => mem_distinctHeights.mpr (hrun j hj)) hi
    have hlast : i + n < blocks.length := by
      rw [hlength]
      exact (List.getElem?_eq_some_iff.mp (hplaces n le_rfl)).1
    have hheight : ∀ j (hj : i + j < blocks.length), j ≤ n → blocks[i + j].height = a + j := by
      intro j hj hle
      have hplace := (hat (i + j) hj).1
      rw [hplaces j hle] at hplace
      exact (Option.some.inj hplace).symm
    set piece := (blocks.drop i).take (n + 1) with hpiece
    have hpieceLength : piece.length = n + 1 := by
      rw [hpiece, List.length_take, List.length_drop]
      omega
    have hget : ∀ j (hj : j < piece.length) (hi : i + j < blocks.length),
        piece[j] = blocks[i + j] := by
      intro j hj hi
      simp only [hpiece, List.getElem_take, List.getElem_drop]
    -- the blocks of the run are read one after the other
    have hreadsPiece : ReadsBlocks (fun k => seen (k + i)) (List.range' a (n + 1)) piece := by
      intro j block hblock
      obtain ⟨hj, rfl⟩ := List.getElem?_eq_some_iff.mp hblock
      have hblockAt := (hat (i + j) (by omega)).2.1
      rw [hheight j (by omega) (by omega)] at hblockAt
      refine ⟨a + j, ?_, ?_⟩
      · rw [List.getElem?_range' (by omega), Nat.one_mul]
      · rw [hget j hj (by omega)]
        show (seen (j + i)).blockAt (a + j) = _
        rw [Nat.add_comm j i]
        exact hblockAt
    have hlinked : piece.IsChain CompactBlock.Successor := by
      rw [List.isChain_iff_getElem]
      intro j hj
      have hpair := List.isChain_iff_getElem.mp (checkAdjacentPairs_eq_ok_iff.mp hpairs) (i + j)
        (by omega)
      have hmax := (hat (i + (j + 1)) (by omega)).2.2
      rw [hget j (by omega) (by omega), hget (j + 1) hj (by omega)]
      refine hpair ?_
      have hlow := hheight j (by omega) (by omega)
      have hhigh := hheight (j + 1) (by omega) (by omega)
      rw [hhigh] at hmax
      rw [hlow]
      exact hhigh.trans (min_eq_left hmax).symm
    obtain ⟨cache, hmem, hpieceOf⟩ := pieceOf_of_reads (hheld.shift i) hid hreadsPiece hlinked
    refine ⟨cache, hmem, piece, ?_, hpieceLength, hpieceOf⟩
    exact (List.take_prefix _ _).isInfix.trans (List.drop_suffix _ _).isInfix

/-- The blocks are read one after the other, behind the checks of the request. -/
theorem readSparseBlocks_observe {allowed : Bool} {heights : List ℕ} {blocks : List CompactBlock}
    (h : (readSparseBlocks allowed heights).observe seen = .ok blocks) :
    ∃ k, ReadsBlocks (fun n => seen (n + k)) (distinctHeights heights) blocks ∧
      blocks.length = (distinctHeights heights).length := by
  unfold readSparseBlocks at h
  obtain ⟨-, -, h⟩ := Prog.observe_bind_eq_ok h
  by_cases hempty : heights.isEmpty = true
  · rw [if_pos hempty] at h
    cases h
  by_cases hmany : maxSparseHeights < heights.length
  · rw [if_neg hempty, if_pos hmany] at h
    cases h
  rw [if_neg hempty, if_neg hmany] at h
  exact ⟨_, mapEach_blockOrNotFound_observe h⟩

end Observed

/-- Beside any calls of the poller from an empty cache on, the reply to a request for single
heights is one block for each of them, in order, and every run of heights without a gap is a piece
of one chain that the cache held between two calls. -/
theorem sparse_blocks_runs {now : ℕ} {s₀ : Cache} {calls : List (CacheM Unit)}
    (hnew : Cache.new now .empty = .ok s₀) (hcalls : PollerCalls [] calls)
    (hid : HashesIdentifyCached (Prog.boundaries calls s₀)) (sched : Schedule)
    (takes : ℕ → Bool) (allowed : Bool) (heights : List ℕ) :
    let seen := fun n => Prog.stateAt calls s₀ (sched.moment n)
    ∀ r, (getCompactBlocksAtHeights takes allowed heights).observe seen = .ok r →
      ∃ blocks, SparseReply (Prog.boundaries calls s₀) heights blocks r := by
  intro seen r h
  have hheld : SeesHeld (Prog.boundaries calls s₀) seen := hcalls.seesHeld hnew sched.moment
  unfold getCompactBlocksAtHeights at h
  obtain ⟨blocks, hblocks, h⟩ := Prog.observe_bind_eq_ok h
  obtain ⟨k, hreads, hlength⟩ := readSparseBlocks_observe (Prog.observe_of_mapError_eq_ok hblocks)
  cases hpairs : checkAdjacentPairs blocks with
  | error status =>
    rw [hpairs] at h
    cases h
  | ok _ =>
    rw [hpairs] at h
    obtain ⟨taken, hsent, hpre, hall⟩ :=
      @sendStream_eq _ takes [] (blocks.map CompactBlock.toProto)
    rcases hstream : sendStream takes [] (blocks.map CompactBlock.toProto) with ⟨sent, _ | _⟩ <;>
      rw [hstream] at h hsent hall <;> cases h <;> cases hsent
    · exact ⟨blocks, sparseReply_of_reads (hheld.shift k) hid hreads hlength hpairs hpre
        fun h => by cases h⟩
    · exact ⟨blocks, sparseReply_of_reads (hheld.shift k) hid hreads hlength hpairs hpre
        fun _ => hall rfl⟩

/-- A repeated height over the reorg: two blocks, each once. -/
theorem sparse_blocks_runs_reorged : ∃ blocks, SparseReply (Prog.boundaries reorged .initial)
    [1, 0, 1] blocks ⟨[CompactBlock.toProto (.sample 0 1 [1] []), CompactBlock.toProto
      { CompactBlock.sample 1 3 [3] [] with prevHash := Bytes32.fill 1 }], .finished⟩ :=
  sparse_blocks_runs new_initial reorged_calls hashesIdentifyCached_reorged (.acrossReorg 1)
    (fun _ => true) true [1, 0, 1] _ (by decide +kernel)

/-! ## Between two calls -/

section AtRest

variable {chain : List CompactBlock} {s : Cache} {heights : List ℕ}

/-- The blocks of a chain at some heights. -/
def blocksAt (chain : List CompactBlock) (heights : List ℕ) : List CompactBlock :=
  chain.filter fun block => decide (block.height ∈ heights)

/-- At rest a height has the block of the chain. -/
theorem blockOrNotFound_run (hs : ChainState chain s) (h : ℕ) :
    (blockOrNotFound h).run s = (match chain[h]? with
      | some block => .ok block
      | none => .error ⟨.notFound, "Block not found at height " ++ toString h⟩, s) := by
  have hrun : ((getCompactBlock h).mapError cacheStatus).run s = (.ok chain[h]?, s) :=
    Prog.run_mapError_of_ok (getCompactBlock_run hs.rows h)
  unfold blockOrNotFound
  rw [Prog.bind_eq, Prog.run_bind_of_ok hrun]
  cases chain[h]? <;> rfl

/-- The heights of a chain are those below its length. -/
theorem map_height (hs : ChainState chain s) :
    chain.map CompactBlock.height = List.range chain.length := by
  apply List.ext_getElem (by simp)
  intro i hi _
  rw [List.length_map] at hi
  rw [List.getElem_map, List.getElem_range]
  exact hs.rows.height i chain[i] (List.getElem?_eq_getElem hi)

/-- The distinct heights are those of the blocks, if all of them have one. -/
theorem distinctHeights_eq (hs : ChainState chain s) (hcached : ∀ h ∈ heights, h < chain.length) :
    distinctHeights heights = (blocksAt chain heights).map CompactBlock.height := by
  have hfilter : (blocksAt chain heights).map CompactBlock.height =
      (List.range chain.length).filter fun h => decide (h ∈ heights) := by
    rw [← map_height hs, List.filter_map]
    rfl
  rw [hfilter]
  refine (pairwise_distinctHeights heights).eq_of_mem_iff
    (List.Pairwise.filter _ List.pairwise_lt_range) fun h => ?_
  rw [mem_distinctHeights, List.mem_filter, List.mem_range, decide_eq_true_eq]
  exact ⟨fun h' => ⟨hcached h h', h'⟩, fun h' => h'.2⟩

/-- At rest every height asked for has its block. -/
theorem mapEach_blockOrNotFound_run (hs : ChainState chain s) {blocks : List CompactBlock}
    (hblocks : ∀ block ∈ blocks, block ∈ chain) :
    (Prog.mapEach blockOrNotFound (blocks.map CompactBlock.height)).run s = (.ok blocks, s) := by
  induction blocks with
  | nil => rfl
  | cons block blocks ih =>
    have hfound : (blockOrNotFound block.height).run s = (.ok block, s) := by
      obtain ⟨i, hi⟩ := List.getElem?_of_mem (hblocks block List.mem_cons_self)
      rw [blockOrNotFound_run hs, hs.rows.height i block hi, hi]
    rw [List.map_cons, Prog.mapEach, Prog.run_bind_of_ok hfound,
      Prog.run_bind_of_ok (ih fun b hb => hblocks b (List.mem_cons_of_mem block hb))]
    rfl

/-- The first height without a block decides. -/
theorem mapEach_blockOrNotFound_missing (hs : ChainState chain s) {l : List ℕ}
    (hsorted : l.Pairwise (· < ·)) (hmissing : ∃ h ∈ l, chain.length ≤ h) :
    ∃ h ∈ l, chain.length ≤ h ∧ (∀ k ∈ l, chain.length ≤ k → h ≤ k) ∧
      (Prog.mapEach blockOrNotFound l).run s =
        (.error ⟨.notFound, "Block not found at height " ++ toString h⟩, s) := by
  induction l with
  | nil =>
    obtain ⟨h, hmem, -⟩ := hmissing
    cases hmem
  | cons a l ih =>
    obtain ⟨hhead, htail⟩ := List.pairwise_cons.mp hsorted
    by_cases ha : chain.length ≤ a
    · refine ⟨a, List.mem_cons_self, ha, fun k hk _ => ?_, ?_⟩
      · rcases List.mem_cons.mp hk with rfl | hk
        · exact le_rfl
        · exact (hhead k hk).le
      · rw [Prog.mapEach]
        apply Prog.run_bind_of_error
        rw [blockOrNotFound_run hs, List.getElem?_eq_none ha]
    · obtain ⟨h, hmem, hlong⟩ := hmissing
      have htailMissing : ∃ h ∈ l, chain.length ≤ h := by
        rcases List.mem_cons.mp hmem with rfl | hmem
        · exact absurd hlong ha
        · exact ⟨h, hmem, hlong⟩
      obtain ⟨h, hmem, hlong, hleast, hrun⟩ := ih htail htailMissing
      refine ⟨h, List.mem_cons_of_mem a hmem, hlong, fun k hk hklong => ?_, ?_⟩
      · rcases List.mem_cons.mp hk with rfl | hk
        · exact absurd hklong ha
        · exact hleast k hk hklong
      · have hlt : a < chain.length := Nat.lt_of_not_le ha
        have hfound : (blockOrNotFound a).run s = (.ok chain[a], s) := by
          rw [blockOrNotFound_run hs, List.getElem?_eq_getElem hlt]
        rw [Prog.mapEach, Prog.run_bind_of_ok hfound]
        exact Prog.run_bind_of_error hrun _

/-- The check of neighbours passes on a chain. -/
theorem checkAdjacentPairs_blocksAt (hs : ChainState chain s) (heights : List ℕ) :
    checkAdjacentPairs (blocksAt chain heights) = .ok () := by
  rw [checkAdjacentPairs_eq_ok_iff]
  have hsorted : chain.Pairwise fun low high => low.height < high.height := by
    have h : (chain.map CompactBlock.height).Pairwise (· < ·) := by
      rw [map_height hs]
      exact List.pairwise_lt_range
    exact List.pairwise_map.mp h
  refine (hsorted.filter _).isChain.imp_of_mem_imp ?_
  intro low high hlow hhigh hlt hnext
  obtain ⟨i, hi⟩ := List.getElem?_of_mem (List.mem_filter.mp hlow).1
  obtain ⟨j, hj⟩ := List.getElem?_of_mem (List.mem_filter.mp hhigh).1
  obtain rfl : j = i + 1 := by
    rw [hs.rows.height i low hi, hs.rows.height j high hj] at hnext hlt
    have hle : j ≤ i + 1 := hnext.trans_le (min_le_left _ _)
    omega
  exact hs.successor hi hj

/-- What is asked for is sent, or the first height that is missing is named. -/
theorem getCompactBlocksAtHeights_run (hs : ChainState chain s) (hne : heights ≠ [])
    (hmany : heights.length ≤ maxSparseHeights) :
    (∀ h ∈ heights, h < chain.length) ∧
        (getCompactBlocksAtHeights (fun _ => true) true heights).run s =
          (.ok ⟨(blocksAt chain heights).map CompactBlock.toProto, .finished⟩, s) ∨
      ∃ h, IsLeast {k | k ∈ heights ∧ chain.length ≤ k} h ∧
        (getCompactBlocksAtHeights (fun _ => true) true heights).run s =
          (.error (.other ⟨.notFound, "Block not found at height " ++ toString h⟩), s) := by
  have hread : (readSparseBlocks true heights).run s =
      (Prog.mapEach blockOrNotFound (distinctHeights heights)).run s := by
    have hallowed : (liftStatus (checkRpcRateLimit true)).run s = (.ok (), s) := rfl
    unfold readSparseBlocks
    rw [Prog.bind_eq, Prog.run_bind_of_ok hallowed, if_neg (by simpa using hne),
      if_neg (Nat.not_lt.mpr hmany)]
  unfold getCompactBlocksAtHeights
  by_cases hcached : ∀ h ∈ heights, h < chain.length
  · refine Or.inl ⟨hcached, ?_⟩
    have hblocks : (readSparseBlocks true heights).run s = (.ok (blocksAt chain heights), s) := by
      rw [hread, distinctHeights_eq hs hcached]
      exact mapEach_blockOrNotFound_run hs fun block hblock => (List.mem_filter.mp hblock).1
    rw [Prog.bind_eq, Prog.run_bind_of_ok (Prog.run_mapError_of_ok hblocks),
      checkAdjacentPairs_blocksAt hs, sendStream_of_takes fun _ => rfl]
    rfl
  · push Not at hcached
    obtain ⟨h₀, hmem₀, hlong₀⟩ := hcached
    obtain ⟨h, hmem, hlong, hleast, hrun⟩ := mapEach_blockOrNotFound_missing hs
      (pairwise_distinctHeights heights) ⟨h₀, mem_distinctHeights.mpr hmem₀, hlong₀⟩
    refine Or.inr ⟨h, ⟨⟨mem_distinctHeights.mp hmem, hlong⟩, fun k hk => ?_⟩, ?_⟩
    · exact hleast k (mem_distinctHeights.mpr hk.1) hk.2
    · rw [Prog.bind_eq]
      apply Prog.run_bind_of_error
      rw [Prog.run_mapError, hread, hrun]
      rfl

end AtRest

/-- After any calls of the poller a request for single heights gets the blocks of the chain at
them, in ascending order and once each, or the least height is named that has no block. -/
theorem sparse_blocks_at_rest {now : ℕ} {s₀ : Cache} {calls : List (CacheM Unit)}
    (hnew : Cache.new now .empty = .ok s₀) (hcalls : PollerCalls [] calls) :
    let s := Prog.execAll calls s₀
    ∃ chain, ChainState chain s ∧ ∀ heights : List ℕ, heights ≠ [] →
      heights.length ≤ maxSparseHeights →
      (∀ h ∈ heights, h < chain.length) ∧
          (getCompactBlocksAtHeights (fun _ => true) true heights).run s =
            (.ok ⟨(blocksAt chain heights).map CompactBlock.toProto, .finished⟩, s) ∨
        ∃ h, IsLeast {k | k ∈ heights ∧ chain.length ≤ k} h ∧
          (getCompactBlocksAtHeights (fun _ => true) true heights).run s =
            (.error (.other ⟨.notFound, "Block not found at height " ++ toString h⟩), s) := by
  obtain ⟨chain, hchain, -⟩ := hcalls.exec_chainState (.of_stack (.of_new hnew) .nil) rfl
  exact ⟨chain, hchain, fun heights hne hmany => getCompactBlocksAtHeights_run hchain hne hmany⟩

/-- The same after the reorg. -/
theorem sparse_blocks_at_rest_reorged : ∃ chain, ChainState chain (Prog.execAll reorged .initial) ∧
    ((getCompactBlocksAtHeights (fun _ => true) true [1, 0, 1]).run
      (Prog.execAll reorged .initial)).1 =
        .ok ⟨(blocksAt chain [1, 0, 1]).map CompactBlock.toProto, .finished⟩ := by
  obtain ⟨chain, hchain, hreply⟩ := sparse_blocks_at_rest new_initial reorged_calls
  refine ⟨chain, hchain, ?_⟩
  rcases hreply [1, 0, 1] (by decide) (by decide) with ⟨-, hrun⟩ | ⟨h, -, hrun⟩
  · rw [hrun]
  · have hok : ((getCompactBlocksAtHeights (fun _ => true) true [1, 0, 1]).run
        (Prog.execAll reorged .initial)).1.toOption.isSome = true := by decide +kernel
    rw [hrun] at hok
    cases hok

end LightWalletd
