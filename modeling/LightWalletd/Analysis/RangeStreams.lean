import LightWalletd.Analysis.ScanChain
import LightWalletd.Computation.HashChains
import LightWalletd.Model.RangeStreams

/-!
# Streams beside a poller

A stream reads its blocks one after the other while the poller inserts and rewinds. It goes on only
with a block that names the one before it. So the blocks below the last one that it read are those
of the chain this last one was read from, although they were read before, and perhaps from another
chain: the stream is a piece of one chain that the cache held.
-/

set_option autoImplicit false

namespace LightWalletd

open Stateful

/-! ## One round -/

/-- The block `high` comes right after `low`. -/
def CompactBlock.Successor (low high : CompactBlock) : Prop :=
  high.height = saturatingAdd low.height 1 ∧ high.prevHash = low.hash

/-- Whether a block follows another can be checked. -/
instance (low high : CompactBlock) : Decidable (low.Successor high) :=
  inferInstanceAs (Decidable (_ ∧ _))

/-- The check of a successor passes exactly on successors. -/
theorem checkSuccessor_eq_ok_iff {low high : CompactBlock} :
    checkSuccessor low high = .ok () ↔ low.Successor high := by
  unfold checkSuccessor CompactBlock.Successor
  constructor
  · intro h
    split_ifs at h with hbroken
    rw [not_or, not_not, not_not] at hbroken
    exact hbroken
  · intro h
    exact if_neg fun hbroken => hbroken.elim (fun hne => hne h.1) fun hne => hne h.2

/-- Blocks that come one after the other, behind the last block of a stream if it has one. -/
structure Continues (start : ℕ) (prev : Option CompactBlock) (blocks : List CompactBlock) :
    Prop where
  successors : (prev.toList ++ blocks).IsChain CompactBlock.Successor
  first : prev = none → ∀ block ∈ blocks.head?, block.height = start

section Rounds

variable {T : Type} {takes : ℕ → Bool} {messages : CompactBlock → List T} {start : ℕ}
  {seen : ℕ → Cache}

/-- A block that passes the check continues the stream. -/
theorem continuesStream_eq_ok {prev : Option CompactBlock} {block : CompactBlock}
    (h : continuesStream start prev block = .ok ()) : Continues start prev [block] := by
  cases prev with
  | none =>
    refine ⟨List.isChain_singleton block, fun _ b hb => ?_⟩
    cases hb
    by_contra hne
    unfold continuesStream at h
    rw [if_pos hne] at h
    cases h
  | some p =>
    refine ⟨?_, fun h => by cases h⟩
    exact .cons_cons (checkSuccessor_eq_ok_iff.mp h) (List.isChain_singleton block)

/-- A stream continued by one block and then by others. -/
theorem Continues.cons {prev : Option CompactBlock} {block : CompactBlock}
    {blocks : List CompactBlock} (hfirst : Continues start prev [block])
    (hrest : Continues start (some block) blocks) : Continues start prev (block :: blocks) := by
  refine ⟨?_, fun hprev b hb => hfirst.first hprev b hb⟩
  have hchain := hrest.successors
  cases prev with
  | none => exact hchain
  | some p => exact .cons_cons hfirst.successors.rel hchain

/-- What is sent of some messages is the first ones of them. -/
theorem sendStream_eq (sent ms : List T) : ∃ taken, (sendStream takes sent ms).1 = sent ++ taken ∧
    taken <+: ms ∧ ((sendStream takes sent ms).2 = true → taken = ms) := by
  induction ms generalizing sent with
  | nil => exact ⟨[], (List.append_nil sent).symm, List.nil_prefix, fun _ => rfl⟩
  | cons m ms ih =>
    unfold sendStream
    by_cases htakes : takes sent.length = true
    · obtain ⟨taken, hsent, hpre, hall⟩ := ih (sent ++ [m])
      rw [if_pos htakes]
      refine ⟨m :: taken, ?_, ?_, fun h => congrArg (m :: ·) (hall h)⟩
      · rw [hsent, List.append_assoc]
        rfl
      · exact List.cons_prefix_cons.mpr ⟨rfl, hpre⟩
    · rw [if_neg htakes]
      exact ⟨[], (List.append_nil sent).symm, List.nil_prefix, fun h => by cases h⟩

/-- A client that takes every message gets them all. -/
theorem sendStream_of_takes (htakes : ∀ n, takes n = true) (sent ms : List T) :
    sendStream takes sent ms = (sent ++ ms, true) := by
  induction ms generalizing sent with
  | nil => rw [List.append_nil]; rfl
  | cons m ms ih =>
    unfold sendStream
    rw [if_pos (htakes _), ih, List.append_assoc]
    rfl

/-- A lookup of a block is one read. -/
theorem getCompactBlock_observe (height : ℕ) (seen : ℕ → Cache) :
    (getCompactBlock height).observe seen = ((getCompactBlock height).run (seen 0)).1 ∧
      (getCompactBlock height).reads seen = 1 := by
  have hget : (compactBlocks.get height).observe seen =
      .ok ((seen 0).db.blocks.compactBlocks.get height) := rfl
  have hrun : (compactBlocks.get height).run (seen 0) =
      (.ok ((seen 0).db.blocks.compactBlocks.get height), seen 0) := rfl
  unfold getCompactBlock
  rw [Prog.bind_eq, Prog.observe_bind, Prog.run_bind, Prog.reads_bind_of_ok hget, hget, hrun]
  rcases (seen 0).db.blocks.compactBlocks.get height with _ | _ | _ <;> exact ⟨rfl, rfl⟩

/-- A block is read exactly where one is held. -/
theorem getCompactBlock_eq_some_iff {s : Cache} {height : ℕ} {block : CompactBlock} :
    ((getCompactBlock height).run s).1 = .ok (some block) ↔ s.blockAt height = some block := by
  have hrun : (compactBlocks.get height).run s = (.ok (s.db.blocks.compactBlocks.get height), s) :=
    rfl
  unfold getCompactBlock Cache.blockAt
  rw [Prog.bind_eq, Prog.run_bind, hrun]
  rcases s.db.blocks.compactBlocks.get height with _ | b | bytes <;> constructor <;> intro h <;>
    cases h <;> rfl

/-- A height is read at one moment. -/
theorem getCompactBlock_attempt_observe (height : ℕ) (seen : ℕ → Cache) :
    ((getCompactBlock height).attempt.mapError cacheStatus).observe seen =
        .ok ((getCompactBlock height).run (seen 0)).1 ∧
      ((getCompactBlock height).attempt.mapError cacheStatus).reads seen = 1 := by
  obtain ⟨hobserve, hreads⟩ := getCompactBlock_observe height seen
  rw [Prog.observe_mapError, Prog.observe_attempt, Prog.reads_mapError, Prog.reads_attempt, hobserve]
  exact ⟨rfl, hreads⟩

/-- A round that finds its block. -/
theorem streamBlocks_observe_block {height : ℕ} {block : CompactBlock}
    (hblock : (seen 0).blockAt height = some block) (heights : List ℕ)
    (prev : Option CompactBlock) (sent : List T) :
    (streamBlocks takes messages start (height :: heights) prev sent).observe seen =
      match continuesStream start prev block with
      | .error status => .ok (endStream takes sent status)
      | .ok () => match sendStream takes sent (messages block) with
        | (sent, true) =>
          (streamBlocks takes messages start heights (some block) sent).observe
            fun n => seen (n + 1)
        | (sent, false) => .ok ⟨sent, .abandoned⟩ := by
  obtain ⟨hobserve, hreads⟩ := getCompactBlock_attempt_observe height seen
  rw [streamBlocks, Prog.bind_eq, Prog.observe_bind, hobserve, hreads,
    getCompactBlock_eq_some_iff.mpr hblock]
  dsimp only
  cases continuesStream start prev block with
  | error status => rfl
  | ok u =>
    cases u
    rcases sendStream takes sent (messages block) with ⟨sent, _ | _⟩ <;> rfl

/-- A round without a block ends the stream. -/
theorem streamBlocks_observe_missing {height : ℕ} (hblock : (seen 0).blockAt height = none)
    (heights : List ℕ) (prev : Option CompactBlock) (sent : List T) :
    ∃ status, (streamBlocks takes messages start (height :: heights) prev sent).observe seen =
      .ok (endStream takes sent status) := by
  obtain ⟨hobserve, -⟩ := getCompactBlock_attempt_observe height seen
  rw [streamBlocks, Prog.bind_eq, Prog.observe_bind, hobserve]
  rcases hfound : ((getCompactBlock height).run (seen 0)).1 with e | _ | block
  · exact ⟨_, rfl⟩
  · exact ⟨discontinuityStatus, rfl⟩
  · rw [getCompactBlock_eq_some_iff.mp hfound] at hblock
    cases hblock

/-! ## All rounds -/

/-- Block number `i` was read at the height number `i`, and in the state that read `i` saw. -/
def ReadsBlocks (seen : ℕ → Cache) (heights : List ℕ) (blocks : List CompactBlock) : Prop :=
  ∀ i block, blocks[i]? = some block →
    ∃ height, heights[i]? = some height ∧ (seen i).blockAt height = some block

/-- No blocks are read from no heights. -/
theorem ReadsBlocks.nil (seen : ℕ → Cache) (heights : List ℕ) : ReadsBlocks seen heights [] :=
  fun _ _ h => by cases h

/-- Reading one block, then others. -/
theorem ReadsBlocks.cons {height : ℕ} {heights : List ℕ} {block : CompactBlock}
    {blocks : List CompactBlock} (hblock : (seen 0).blockAt height = some block)
    (hrest : ReadsBlocks (fun n => seen (n + 1)) heights blocks) :
    ReadsBlocks seen (height :: heights) (block :: blocks) := by
  intro i b hb
  cases i with
  | zero =>
    cases hb
    exact ⟨height, rfl, hblock⟩
  | succ i => exact hrest i b hb

/-- What a stream has sent, behind `sent`, when it ends with `r`: the messages of `blocks`, and all
of them if it finished. -/
structure SendsBlocks (messages : CompactBlock → List T) (sent : List T) (count : ℕ)
    (blocks : List CompactBlock) (r : Streamed T) : Prop where
  taken : ∃ taken, r.messages = sent ++ taken ∧ taken <+: blocks.flatMap messages
  finished : r.ending = .finished →
    blocks.length = count ∧ r.messages = sent ++ blocks.flatMap messages

/-- A stream that ends sends no more blocks. -/
theorem sendsBlocks_endStream (sent : List T) (count : ℕ) (status : RangeStatus) :
    SendsBlocks messages sent count [] (endStream takes sent status) := by
  refine ⟨⟨[], (List.append_nil sent).symm, List.nil_prefix⟩, fun hfinished => ?_⟩
  unfold endStream at hfinished
  split_ifs at hfinished

/-- Sending the messages of one block, then those of others. -/
theorem SendsBlocks.cons {sent : List T} {count : ℕ} {block : CompactBlock}
    {blocks : List CompactBlock} {r : Streamed T}
    (h : SendsBlocks messages (sent ++ messages block) count blocks r) :
    SendsBlocks messages sent (count + 1) (block :: blocks) r := by
  obtain ⟨⟨taken, hmessages, hpre⟩, hfinished⟩ := h
  refine ⟨⟨messages block ++ taken, ?_, ?_⟩, fun hend => ?_⟩
  · rw [hmessages, List.append_assoc]
  · rw [List.flatMap_cons]
    exact (List.prefix_append_right_inj _).mpr hpre
  · obtain ⟨hlength, hall⟩ := hfinished hend
    refine ⟨congrArg (· + 1) hlength, ?_⟩
    rw [hall, List.flatMap_cons, List.append_assoc]

/-- A stream reads blocks that come one after the other, and sends their messages in order. -/
theorem streamBlocks_observe {heights : List ℕ} {prev : Option CompactBlock} {sent : List T}
    {r : Streamed T}
    (h : (streamBlocks takes messages start heights prev sent).observe seen = .ok r) :
    ∃ blocks, ReadsBlocks seen heights blocks ∧ (blocks = [] ∨ Continues start prev blocks) ∧
      SendsBlocks messages sent heights.length blocks r := by
  induction heights generalizing prev sent seen with
  | nil =>
    cases h
    exact ⟨[], .nil _ _, Or.inl rfl,
      ⟨[], (List.append_nil sent).symm, List.nil_prefix⟩, fun _ => ⟨rfl, (List.append_nil sent).symm⟩⟩
  | cons height heights ih =>
    cases hblock : (seen 0).blockAt height with
    | none =>
      obtain ⟨status, hstatus⟩ :=
        @streamBlocks_observe_missing T takes messages start seen height hblock heights prev sent
      rw [hstatus] at h
      cases h
      exact ⟨[], .nil _ _, Or.inl rfl, sendsBlocks_endStream sent _ status⟩
    | some block =>
      rw [streamBlocks_observe_block hblock] at h
      cases hcont : continuesStream start prev block with
      | error status =>
        rw [hcont] at h
        cases h
        exact ⟨[], .nil _ _, Or.inl rfl, sendsBlocks_endStream sent _ status⟩
      | ok _ =>
        have hfirst := continuesStream_eq_ok hcont
        obtain ⟨taken, hsent, hpre, hall⟩ := @sendStream_eq T takes sent (messages block)
        rw [hcont] at h
        rcases hsend : sendStream takes sent (messages block) with ⟨sent', _ | _⟩
        · rw [hsend] at h hsent
          cases h
          refine ⟨[block], .cons hblock (.nil _ _), Or.inr hfirst, ⟨taken, hsent, ?_⟩,
            fun hfinished => by cases hfinished⟩
          rw [List.flatMap_cons, List.flatMap_nil, List.append_nil]
          exact hpre
        · rw [hsend] at h hsent hall
          obtain rfl := hsent
          obtain rfl := hall rfl
          obtain ⟨blocks, hreads, hcontinues, hsends⟩ := ih h
          refine ⟨block :: blocks, .cons hblock hreads, Or.inr ?_, hsends.cons⟩
          rcases hcontinues with rfl | hcontinues
          · exact hfirst
          · exact hfirst.cons hcontinues

end Rounds

/-! ## One fork -/

/-- An output without what a later registration adds to it. -/
def CompactOutput.unclued (output : CompactOutput) : CompactOutput :=
  { output with omrClue := [], omrMetadataEnc := [] }

/-- A transaction without its clues and metadata. -/
def CompactTx.unclued (tx : CompactTx) : CompactTx :=
  { tx with outputs := tx.outputs.map CompactOutput.unclued }

/-- What a block has from its node. -/
def CompactBlock.unclued (block : CompactBlock) : CompactBlock :=
  { block with txs := block.txs.map CompactTx.unclued }

/-- The previous hash does not depend on the clues. -/
theorem CompactBlock.prevHash_eq_of_unclued {block block' : CompactBlock}
    (h : block.unclued = block'.unclued) : block.prevHash = block'.prevHash :=
  (CompactBlock.mk.inj h).2.2.1

/-- The blocks that a cache ever held with one hash are one block, but for their clues. -/
def HashesIdentifyCached (held : List Cache) : Prop :=
  ∀ s ∈ held, ∀ s' ∈ held, ∀ h h' block block', s.blockAt h = some block →
    s'.blockAt h' = some block' → block.hash = block'.hash → block.unclued = block'.unclued

/-- The blocks are those of one cache from `start` on, but for their clues. -/
def PieceOf (cache : Cache) (start : ℕ) (blocks : List CompactBlock) : Prop :=
  ∀ i block, blocks[i]? = some block →
    ∃ b, cache.blockAt (start + i) = some b ∧ block.unclued = b.unclued

/-- A stream over `start..=last` sends the messages of a piece of one chain that the cache held,
and if it finishes, all messages of the range. -/
def OneFork {T : Type} (messages : CompactBlock → List T) (held : List Cache) (start last : ℕ)
    (r : Streamed T) : Prop :=
  ∃ cache ∈ held, ∃ blocks, PieceOf cache start blocks ∧
    SendsBlocks messages [] (last + 1 - start) blocks r

section Fork

variable {seen : ℕ → Cache} {held : List Cache} {start : ℕ} {blocks : List CompactBlock}

/-- Every state seen is one on the way between two chains of `held`. -/
def SeesHeld (held : List Cache) (seen : ℕ → Cache) : Prop :=
  ∀ n, ∃ cache ∈ held, ∃ chain, ChainState chain cache ∧ (seen n).db.blocks.Among chain

/-- Reads at moments of the poller's calls see caches that it held. -/
theorem PollerCalls.seesHeld {now : ℕ} {s₀ : Cache} {calls : List (CacheM Unit)}
    (hnew : Cache.new now .empty = .ok s₀) (hcalls : PollerCalls [] calls) (moment : ℕ → ℕ) :
    SeesHeld (Prog.boundaries calls s₀) fun n => Prog.stateAt calls s₀ (moment n) := by
  intro n
  obtain ⟨cache, hmem, chain, hchain, hstep⟩ :=
    hcalls.heldBy_stateAt blockStep_rules hnew (moment n)
  exact ⟨cache, hmem, chain, hchain, hstep.before⟩

/-- Reading on sees them too. -/
theorem SeesHeld.shift (hheld : SeesHeld held seen) (k : ℕ) :
    SeesHeld held fun n => seen (n + k) := fun n => hheld (n + k)

/-- The last block that was read decides for the chain: those before it are on it by their
hashes. -/
theorem pieceOf_of_reads (hheld : SeesHeld held seen) (hid : HashesIdentifyCached held)
    {count : ℕ} (hreads : ReadsBlocks seen (List.range' start count) blocks)
    (hlinked : blocks.IsChain CompactBlock.Successor) :
    ∃ cache ∈ held, PieceOf cache start blocks := by
  have hread : ∀ i block, blocks[i]? = some block → (seen i).blockAt (start + i) = some block := by
    intro i block hblock
    obtain ⟨height, hheight, hseen⟩ := hreads i block hblock
    obtain ⟨hlt, rfl⟩ := List.getElem?_eq_some_iff.mp hheight
    rw [List.getElem_range', Nat.one_mul] at hseen
    exact hseen
  have hcached : ∀ block ∈ blocks, ∃ s ∈ held, ∃ h, s.blockAt h = some block := by
    intro block hblock
    obtain ⟨i, hi⟩ := List.getElem?_of_mem hblock
    obtain ⟨cache, hmem, chain, hchain, hamong⟩ := hheld i
    exact ⟨cache, hmem, start + i, blockAt_of_among hamong hchain (hread i block hi)⟩
  rcases blocks.eq_nil_or_concat with rfl | ⟨front, top, hblocks⟩
  · obtain ⟨cache, hmem, -⟩ := hheld 0
    exact ⟨cache, hmem, fun i block hblock => by cases hblock⟩
  have htop : blocks[front.length]? = some top := by
    rw [hblocks, List.concat_eq_append, List.getElem?_append_right le_rfl, Nat.sub_self]
    rfl
  obtain ⟨cache, hmem, chain, hchain, hamong⟩ := hheld front.length
  have htopChain : chain[start + front.length]? = some top := by
    rw [← hchain.blockAt]
    exact blockAt_of_among hamong hchain (hread _ _ htop)
  -- one hash gives one previous hash, whether the block was read or is on the chain
  have hnames : ∀ x ∈ blocks, ∀ y ∈ chain, x.hash = y.hash → x.unclued = y.unclued := by
    intro x hx y hy hhash
    obtain ⟨s, hs, h, hsx⟩ := hcached x hx
    obtain ⟨j, hj⟩ := List.getElem?_of_mem hy
    exact hid s hs cache hmem h j x y hsx ((hchain.blockAt j).trans hj) hhash
  have hread' : HashChains.Linked CompactBlock.hash CompactBlock.prevHash blocks :=
    hlinked.imp fun _ _ h => h.2
  refine ⟨cache, hmem, fun i block hblock => ?_⟩
  have hi : i ≤ front.length := by
    obtain ⟨hlt, -⟩ := List.getElem?_eq_some_iff.mp hblock
    rw [hblocks, List.length_concat] at hlt
    omega
  obtain ⟨n, hn⟩ := Nat.exists_eq_add_of_le hi
  rw [hn] at htop
  rw [hn, ← Nat.add_assoc] at htopChain
  obtain ⟨x, y, hx, hy, hhash⟩ := hread'.hash_below hchain.linked
    (fun x hx y hy h => CompactBlock.prevHash_eq_of_unclued (hnames x hx y hy h)) n
    ⟨top, top, htop, htopChain, rfl⟩
  obtain rfl : block = x := Option.some.inj (hblock.symm.trans hx)
  refine ⟨y, (hchain.blockAt _).trans hy, ?_⟩
  exact hnames block (List.mem_of_getElem? hx) y (List.mem_of_getElem? hy) hhash

variable {T : Type} {takes : ℕ → Bool} {messages : CompactBlock → List T} {r : Streamed T}

/-- A stream of successors comes from one fork. -/
theorem streamRange_oneFork (hheld : SeesHeld held seen) (hid : HashesIdentifyCached held)
    {last : ℕ} (h : (streamRange takes messages start last).observe seen = .ok r) :
    OneFork messages held start last r := by
  obtain ⟨blocks, hreads, hcontinues, hsends⟩ := streamBlocks_observe h
  rw [List.length_range'] at hsends
  have hlinked : blocks.IsChain CompactBlock.Successor := by
    rcases hcontinues with rfl | hcontinues
    · exact .nil
    · exact hcontinues.successors
  obtain ⟨cache, hmem, hpiece⟩ := pieceOf_of_reads hheld hid hreads hlinked
  exact ⟨cache, hmem, blocks, hpiece, hsends⟩

/-- A range that passes the padding check is returned as it is. -/
theorem requirePaddedBlockRange_observe {last : ℕ} {range : ℕ × ℕ}
    (h : (requirePaddedBlockRange start last).observe seen = .ok range) :
    range = (start, last) := by
  unfold requirePaddedBlockRange at h
  obtain ⟨tip, -, htip⟩ := Prog.observe_bind_eq_ok h
  cases tip with
  | none => cases htip
  | some tip =>
    obtain ⟨tip, hash⟩ := tip
    dsimp only at htip
    rcases hrule : paddedRangeRejection start last tip maxBlocksPerRequest with _ | _ | reason <;>
      rw [hrule] at htip <;> cases htip
    rfl

/-- A padded stream comes from one fork. -/
theorem streamPadded_oneFork (hheld : SeesHeld held seen) (hid : HashesIdentifyCached held)
    {allowed : Bool} {last : ℕ}
    (h : (streamPadded takes allowed messages start last).observe seen = .ok r) :
    OneFork messages held start last r := by
  unfold streamPadded at h
  obtain ⟨-, -, h⟩ := Prog.observe_bind_eq_ok h
  obtain ⟨range, hrange, h⟩ := Prog.observe_bind_eq_ok h
  obtain rfl := requirePaddedBlockRange_observe hrange
  exact streamRange_oneFork ((hheld.shift _).shift _) hid h

/-- The end of a range is resolved to no more than was asked for. -/
theorem resolveBlockRange_observe {last : ℕ} {range : ℕ × ℕ}
    (h : (resolveBlockRange start last).observe seen = .ok range) :
    range.1 = start ∧ (last = 0 ∨ range.2 ≤ last) := by
  unfold resolveBlockRange at h
  obtain ⟨tip, -, htip⟩ := Prog.observe_bind_eq_ok h
  cases tip with
  | none => cases htip
  | some tip =>
    obtain ⟨tip, hash⟩ := tip
    dsimp only at htip
    generalize hlast : (if last = 0 then tip else min last tip) = last' at htip
    by_cases hbelow : last' < start
    · rw [if_pos hbelow] at htip
      cases htip
    · rw [if_neg hbelow] at htip
      obtain ⟨-, -, htip⟩ := Prog.observe_bind_eq_ok htip
      cases htip
      refine ⟨rfl, ?_⟩
      rw [← hlast]
      split_ifs with hzero
      · exact Or.inl hzero
      · exact Or.inr (min_le_left last tip)

/-- The blocks of `GetBlockRange` come from one fork. -/
theorem getBlockRange_oneFork (hheld : SeesHeld held seen) (hid : HashesIdentifyCached held)
    {allowed : Bool} {last : ℕ} {r : Streamed Proto.CompactBlock}
    (h : (getBlockRange takes allowed start last).observe seen = .ok r) :
    ∃ last', (last = 0 ∨ last' ≤ last) ∧
      OneFork (fun block => [block.toProto]) held start last' r := by
  unfold getBlockRange at h
  obtain ⟨-, -, h⟩ := Prog.observe_bind_eq_ok h
  obtain ⟨⟨start', last'⟩, hrange, h⟩ := Prog.observe_bind_eq_ok h
  obtain ⟨hstart, hlast⟩ := resolveBlockRange_observe hrange
  obtain rfl : start' = start := hstart
  exact ⟨last', hlast, streamRange_oneFork ((hheld.shift _).shift _) hid h⟩

end Fork

/-- A second block comes, goes, and another one takes its place. -/
def reorged : List (CacheM Unit) :=
  [insertCompactBlock 0 (.sample 0 1 [1] []),
    insertCompactBlock 0 { CompactBlock.sample 1 2 [2] [] with prevHash := Bytes32.fill 1 },
    rewindToHeight 0,
    insertCompactBlock 0 { CompactBlock.sample 1 3 [3] [] with prevHash := Bytes32.fill 1 }]

/-- The calls of the reorg are the poller's. -/
theorem reorged_calls : PollerCalls [] reorged := by
  refine .insert 0 _ (by decide +kernel) rfl (by decide) nofun ?_
  refine .insert 0 _ (by decide +kernel) rfl (by decide) ?_
    (.rewind 0 (by decide) (by decide) (.insert 0 _ (by decide +kernel) rfl (by decide) ?_ (.done _)))
  all_goals
    intro low hlow
    cases hlow
    rfl

/-- The first `n` reads fall before the rewind, the others after the last call. -/
def Schedule.acrossReorg (n : ℕ) : Schedule where
  moment k := if k < n then 20 else 45
  monotone := by
    intro j k hjk
    by_cases hk : k < n
    · simp only [if_pos hk, if_pos (hjk.trans_lt hk), le_refl]
    · simp only [if_neg hk]
      split_ifs <;> decide

/-- The blocks the reorg inserts. -/
def reorgedBlocks : List CompactBlock :=
  [.sample 0 1 [1] [], { CompactBlock.sample 1 2 [2] [] with prevHash := Bytes32.fill 1 },
    { CompactBlock.sample 1 3 [3] [] with prevHash := Bytes32.fill 1 }]

/-- Every cache of the reorg holds those blocks only. -/
theorem rows_reorged : ∀ held ∈ Prog.boundaries reorged .initial,
    ∀ r ∈ held.db.blocks.compactBlocks.rows, ∃ block ∈ reorgedBlocks, r.2 = .value block := by
  decide +kernel

/-- Their hashes tell them apart. -/
theorem hashesIdentifyCached_reorged :
    HashesIdentifyCached (Prog.boundaries reorged .initial) := by
  have hblock : ∀ held ∈ Prog.boundaries reorged .initial, ∀ h block,
      held.blockAt h = some block → block ∈ reorgedBlocks := by
    intro held hheld h block hblock
    obtain ⟨b, hb, hvalue⟩ :=
      rows_reorged held hheld _ ((OrderedMap.get_eq_some_iff _ _ _).mp (get_of_blockAt hblock))
    cases hvalue
    exact hb
  have hdistinct : ∀ b ∈ reorgedBlocks, ∀ b' ∈ reorgedBlocks, b.hash = b'.hash → b = b' := by
    decide +kernel
  intro s hs s' hs' h h' block block' hsb hsb' hhash
  rw [hdistinct block (hblock s hs h block hsb) block' (hblock s' hs' h' block' hsb') hhash]

end LightWalletd
