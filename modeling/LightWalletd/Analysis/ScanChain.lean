import LightWalletd.Analysis.BlockSteps
import LightWalletd.Analysis.ClueMerge
import LightWalletd.Analysis.ClueWire
import LightWalletd.Analysis.DigestCoverage
import LightWalletd.Analysis.TipReplies
import LightWalletd.Model.DigestScan

/-!
# One chain behind a digest

The heights of a digest are counted by one group of reads, and its notes are read after that,
row by row. When the blocks that are there as the scan starts stay until it comes to them, the
slots of a complete digest are the clues of one chain that the cache held.
-/

set_option autoImplicit false

namespace LightWalletd

open Stateful

/-! ## The scan without a poller -/

section Undisturbed

/-- What a round of the scan makes of its row. -/
def rowEntry (r : ℕ × Stored CompactBlock) : Except LightWalletError (ℕ × List NoteForDetection) := do
  let block ← decodeRow ("Failed to deserialize compact block at " ++ toString r.1) r.2
  pure (r.1, blockNotes block)

/-- Undisturbed, the rounds of the iterator read the rows of the window. -/
theorem scanRows_run {last : ℕ} {fuel k : ℕ} (hfuel : last + 2 ≤ fuel + k) (s : Cache) :
    (scanRows last fuel k).run s =
      ((s.db.blocks.compactBlocks.filter fun h => decide (k ≤ h ∧ h ≤ last)).rows.mapM rowEntry,
        s) := by
  induction fuel generalizing k with
  | zero =>
    have hnone : (s.db.blocks.compactBlocks.filter fun h => decide (k ≤ h ∧ h ≤ last)).rows = [] := by
      apply List.eq_nil_iff_forall_not_mem.mpr
      intro r hr
      have hr' := (OrderedMap.mem_rows_filter.mp hr).1
      rw [decide_eq_true_eq] at hr'
      omega
    rw [hnone]
    rfl
  | succ fuel ih =>
    have hnext : (compactBlocks.next k last).run s =
        (.ok (s.db.blocks.compactBlocks.filter fun h => decide (k ≤ h ∧ h ≤ last)).rows.head?, s) := rfl
    unfold scanRows
    rw [Prog.bind_eq, Prog.run_bind_of_ok hnext]
    cases hhead : (s.db.blocks.compactBlocks.filter fun h =>
        decide (k ≤ h ∧ h ≤ last)).rows.head? with
    | none =>
      rw [List.head?_eq_none_iff.mp hhead]
      rfl
    | some r =>
      obtain ⟨h, row⟩ := r
      have hk : k ≤ h ∧ h ≤ last := by
        have hmem := OrderedMap.mem_rows_filter.mp (List.mem_of_mem_head? hhead)
        exact of_decide_eq_true hmem.1
      have hrest : (fun k' => decide (k ≤ k' ∧ k' ≤ last) && decide (h < k')) =
          fun k' => decide (h + 1 ≤ k' ∧ k' ≤ last) := by
        funext k'
        rw [← Bool.decide_and]
        congr 1
        apply propext
        omega
      rw [OrderedMap.rows_filter_of_head? hhead, hrest, List.mapM_cons]
      cases row with
      | raw bytes => rfl
      | value block =>
        show ((scanRows last fuel (h + 1)).bind _).run s = _
        rw [Prog.run_bind, ih (by omega)]
        cases (s.db.blocks.compactBlocks.filter fun k' =>
          decide (h + 1 ≤ k' ∧ k' ≤ last)).rows.mapM rowEntry <;> rfl

/-- Read at one moment, the scan is the range read. -/
theorem scanEncryptedNotesRange_run (start last : ℕ) (s : Cache) :
    (scanEncryptedNotesRange start last).run s = (getEncryptedNotesRange start last).run s := by
  unfold scanEncryptedNotesRange getEncryptedNotesRange
  by_cases hle : start > last
  · rw [if_pos hle, if_pos hle]
  · rw [if_neg hle, if_neg hle]
    by_cases hspan : 10000 < last - start + 1
    · rw [if_pos hspan, if_pos hspan]
    · rw [if_neg hspan, if_neg hspan, Prog.bind_eq, Prog.bind_eq, Prog.run_bind,
        scanRows_run (by omega), Prog.run_bind_of_ok (Tree.run_range compactBlocks _ s)]
      show _ = ((liftExcept ((s.db.blocks.compactBlocks.filter fun h =>
        decide (start ≤ h ∧ h ≤ last)).rows.mapM rowEntry)).bind _).run s
      cases (s.db.blocks.compactBlocks.filter fun h =>
        decide (start ≤ h ∧ h ≤ last)).rows.mapM rowEntry <;> rfl

/-- Without a window in memory the notes are read and kept. -/
theorem cachedEncryptedNotes_new (start last : ℕ) : cachedEncryptedNotes .new start last =
    ((getBlockHash last).mapError cacheStatus).bind fun endHash =>
      ((getEncryptedNotesRange start last).mapError cacheStatus).bind fun notes =>
        .ret (notes, WindowCache.insert clueWindowCap .new start last
          (endHash.getD (Bytes32.fill 0)) notes) :=
  rfl

/-- Undisturbed, the evaluation finds the slots that it finds when it reads its notes at once. -/
theorem scanDigestSlots_run (blake3 : Bytes → Bytes32) (start last : ℕ) (s : Cache) :
    (scanDigestSlots blake3 start last).run s =
      (((digestSlots blake3 .new start last).run s).1.map Prod.fst,
        ((digestSlots blake3 .new start last).run s).2) := by
  unfold scanDigestSlots digestSlots
  cases rejectOversizedWindow start last with
  | error e => rfl
  | ok span =>
    show ((digestEvaluableEnd start last).bind _).run s =
      ((((digestEvaluableEnd start last).bind _).run s).1.map Prod.fst,
        (((digestEvaluableEnd start last).bind _).run s).2)
    rw [Prog.run_bind, Prog.run_bind]
    rcases (digestEvaluableEnd start last).run s with ⟨_ | ⟨evalEnd, rangeComplete⟩, s₁⟩
    · rfl
    · cases evalEnd with
      | none => rfl
      | some evalEnd =>
        simp only [cachedEncryptedNotes_new, Prog.bind_eq, Prog.bind_assoc]
        rw [Prog.run_bind, Prog.run_bind]
        rcases ((getBlockHash evalEnd).mapError cacheStatus).run s₁ with ⟨_ | hash, s₂⟩
        · rfl
        · dsimp only
          rw [Prog.run_bind, Prog.run_bind, Prog.run_mapError, Prog.run_mapError,
            scanEncryptedNotesRange_run]
          rcases (getEncryptedNotesRange start evalEnd).run s₂ with ⟨_ | notes, s₃⟩ <;> rfl

end Undisturbed

/-! ## The scan beside a poller -/

section Observed

variable {seen : ℕ → Cache} {start last : ℕ}

/-- A held block stands in its row. -/
theorem get_of_blockAt {s : Cache} {h : ℕ} {block : CompactBlock}
    (hblock : s.blockAt h = some block) :
    s.db.blocks.compactBlocks.get h = some (.value block) := by
  unfold Cache.blockAt at hblock
  rcases hrow : s.db.blocks.compactBlocks.get h with _ | block' | bytes <;>
    rw [hrow] at hblock <;> cases hblock
  rfl

/-- The cache has blocks at the heights from `k` to `last`, and read number `h - k` sees the one
at height `h`. -/
def SeesBlocks (held : Cache) (seen : ℕ → Cache) (k last : ℕ) : Prop :=
  ∀ h, k ≤ h → h ≤ last → ∃ block, held.blockAt h = some block ∧
    (seen (h - k)).blockAt h = some block

/-- Seeing blocks from the next height on. -/
theorem SeesBlocks.next {held : Cache} {k : ℕ} (hsees : SeesBlocks held seen k last) :
    SeesBlocks held (fun n => seen (n + 1)) (k + 1) last := by
  intro h hh hle
  obtain ⟨block, hheld, hseen⟩ := hsees h (by omega) hle
  refine ⟨block, hheld, ?_⟩
  rw [← show h - (k + 1) + 1 = h - k by omega] at hseen
  exact hseen

/-- Blocks that are there whenever the iterator comes to them are found, one by one. -/
theorem scanRows_observe {held : Cache} {fuel k : ℕ} (hfuel : last + 2 ≤ fuel + k)
    (hsees : SeesBlocks held seen k last) :
    (scanRows last fuel k).observe seen = .ok ((List.range' k (last + 1 - k)).map fun h =>
      (h, ((held.blockAt h).map blockNotes).getD [])) := by
  induction fuel generalizing k seen with
  | zero =>
    rw [show last + 1 - k = 0 by omega]
    rfl
  | succ fuel ih =>
    unfold scanRows
    have hnext : (compactBlocks.next k last).observe seen = .ok
        ((seen 0).db.blocks.compactBlocks.filter fun h => decide (k ≤ h ∧ h ≤ last)).rows.head? := rfl
    rw [Prog.bind_eq, Prog.observe_bind, hnext]
    by_cases hk : k ≤ last
    · obtain ⟨block, hheld, hseen⟩ := hsees k le_rfl hk
      rw [Nat.sub_self] at hseen
      have hhead : ((seen 0).db.blocks.compactBlocks.filter fun h =>
          decide (k ≤ h ∧ h ≤ last)).rows.head? = some (k, .value block) := by
        apply OrderedMap.head?_rows_filter_of_get (get_of_blockAt hseen)
        · exact decide_eq_true ⟨le_rfl, hk⟩
        · exact fun k' hk' => (of_decide_eq_true hk').1
      rw [hhead, show last + 1 - k = last + 1 - (k + 1) + 1 by omega, List.range'_succ,
        List.map_cons, hheld]
      show ((scanRows last fuel (k + 1)).bind _).observe (fun n => seen (n + 1)) = _
      rw [Prog.observe_bind, ih (by omega) hsees.next]
      rfl
    · have hnone : ((seen 0).db.blocks.compactBlocks.filter fun h =>
          decide (k ≤ h ∧ h ≤ last)).rows.head? = none := by
        rw [List.head?_eq_none_iff]
        apply List.eq_nil_iff_forall_not_mem.mpr
        intro r hr
        have hr' := (OrderedMap.mem_rows_filter.mp hr).1
        rw [decide_eq_true_eq] at hr'
        omega
      rw [hnone, show last + 1 - k = 0 by omega]
      rfl

/-- The notes of the window are those of the blocks that are there. -/
theorem scanEncryptedNotesRange_observe {held : Cache} (hle : start ≤ last)
    (hspan : last - start + 1 ≤ 10000) (hsees : SeesBlocks held seen start last) :
    (scanEncryptedNotesRange start last).observe seen = .ok (windowNotes held start last) := by
  unfold scanEncryptedNotesRange
  rw [if_neg (by omega), if_neg (by omega), Prog.bind_eq, Prog.observe_bind,
    scanRows_observe (by omega) hsees]
  show Except.ok _ = Except.ok _
  congr 1
  apply List.map_congr_left
  intro h hh
  rw [show last + 1 - start = last - start + 1 by omega, List.lookup_graph _ hh]
  rfl

/-- A scan of heights that says it is complete ends at the end of its window. -/
theorem evaluableFrom_observe_complete {complete : Bool} {n h : ℕ} {evalEnd : Option ℕ}
    (hr : (evaluableFrom start last complete n h).observe seen = .ok (evalEnd, true)) :
    complete = true ∧ evalEnd = some last := by
  induction n generalizing h seen with
  | zero =>
    cases hr
    exact ⟨rfl, rfl⟩
  | succ n ih =>
    unfold evaluableFrom at hr
    rw [Prog.bind_eq, Prog.observe_bind] at hr
    cases hhash : ((getBlockHash h).mapError cacheStatus).observe seen with
    | error e =>
      rw [hhash] at hr
      cases hr
    | ok hash =>
      rw [hhash] at hr
      cases hash with
      | none => cases hr
      | some hash => exact ih hr

/-- A complete digest ends at the last height. -/
theorem digestEvaluableEnd_observe_complete {evalEnd : Option ℕ}
    (hr : (digestEvaluableEnd start last).observe seen = .ok (evalEnd, true)) :
    evalEnd = some last := by
  unfold digestEvaluableEnd at hr
  rw [Prog.bind_eq, Prog.observe_bind] at hr
  cases htip : (getTip.mapError cacheStatus).observe seen with
  | error e =>
    rw [htip] at hr
    cases hr
  | ok tip =>
    rw [htip] at hr
    dsimp only at hr
    generalize (tip.map Prod.fst).getD 0 = tip at hr
    by_cases hbelow : min last tip < start
    · rw [if_pos hbelow] at hr
      cases hr
    · rw [if_neg hbelow] at hr
      obtain ⟨hcomplete, hend⟩ := evaluableFrom_observe_complete hr
      rw [decide_eq_true_eq] at hcomplete
      rw [min_eq_left hcomplete] at hend
      exact hend

/-- How many reads come before the scan: those of the heights, and the hash of the last block. -/
def scanStart (seen : ℕ → Cache) (start last : ℕ) : ℕ :=
  (digestEvaluableEnd start last).reads seen + 1

/-- A hash is read at one moment. -/
theorem reads_getBlockHash (h : ℕ) (seen : ℕ → Cache) : (getBlockHash h).reads seen = 1 := by
  unfold getBlockHash Tree.get Prog.get
  simp only [Prog.bind_eq, Prog.bind, Prog.reads]
  rcases (blockHashes.sel (seen 0).db).get h with _ | hash | bytes <;> rfl

/-- A complete digest is what its scan finds, flattened and not capped. -/
theorem scanDigestSlots_observe_complete {blake3 : Bytes → Bytes32} {d : DigestSlots}
    (hd : (scanDigestSlots blake3 start last).observe seen = .ok d) (hcomplete : d.complete = true) :
    start ≤ last ∧ last - start + 1 ≤ 10000 ∧
      ∃ notes, (scanEncryptedNotesRange start last).observe
          (fun n => seen (n + scanStart seen start last)) = .ok notes ∧
        capMessagesToWholeHeights (flattenMessages blake3 (blockNotesFromDetection notes)).1
          (flattenMessages blake3 (blockNotesFromDetection notes)).2 =
            (d.messages, d.slotHeights, false) := by
  unfold scanDigestSlots at hd
  cases hwindow : rejectOversizedWindow start last with
  | error e =>
    rw [hwindow] at hd
    cases hd
  | ok span =>
    rw [hwindow] at hd
    change ((digestEvaluableEnd start last).bind _).observe seen = _ at hd
    rw [Prog.observe_bind] at hd
    cases hend : (digestEvaluableEnd start last).observe seen with
    | error e =>
      rw [hend] at hd
      cases hd
    | ok r =>
      obtain ⟨evalEnd, rangeComplete⟩ := r
      rw [hend] at hd
      cases evalEnd with
      | none =>
        cases hd
        rw [Bool.and_eq_true] at hcomplete
        rw [hcomplete.1] at hend
        cases digestEvaluableEnd_observe_complete hend
      | some evalEnd =>
        dsimp only at hd
        rw [Prog.bind_eq, Prog.observe_bind, Prog.reads_mapError, reads_getBlockHash] at hd
        cases hhash : ((getBlockHash evalEnd).mapError cacheStatus).observe fun n =>
            seen (n + (digestEvaluableEnd start last).reads seen) with
        | error e =>
          rw [hhash] at hd
          cases hd
        | ok hash =>
          rw [hhash] at hd
          dsimp only at hd
          rw [Prog.bind_eq, Prog.observe_bind, Prog.observe_mapError] at hd
          cases hscan : (scanEncryptedNotesRange start evalEnd).observe fun n =>
              seen (n + 1 + (digestEvaluableEnd start last).reads seen) with
          | error e =>
            rw [hscan] at hd
            cases hd
          | ok notes =>
            rw [hscan] at hd
            cases hd
            rw [Bool.and_eq_true, Bool.not_eq_true'] at hcomplete
            obtain ⟨hrange, htruncated⟩ := hcomplete
            rw [hrange] at hend
            cases digestEvaluableEnd_observe_complete hend
            obtain ⟨hle, hspan⟩ := span_le_of_rejectOversizedWindow hwindow
            refine ⟨hle, hspan, notes, ?_, ?_⟩
            · rw [← hscan]
              congr 1
              funext n
              unfold scanStart
              congr 1
              omega
            · rw [← htruncated]

end Observed

/-! ## One chain -/

/-- The blocks of the window name each other. -/
def LinkedWindow (s : Cache) (start last : ℕ) : Prop :=
  ∀ h low high, start ≤ h → h < last → s.blockAt h = some low → s.blockAt (h + 1) = some high →
    high.prevHash = low.hash

/-- The block of every height of the window is there when the scan starts, with read `first`,
and when it comes to it. -/
def CalmForScan (state : ℕ → Cache) (moment : ℕ → ℕ) (first start last : ℕ) : Prop :=
  ∀ h, start ≤ h → h ≤ last → ((state (moment first)).blockAt h).isSome = true ∧
    (state (moment (first + (h - start)))).blockAt h = (state (moment first)).blockAt h

section Fork

variable {s cache : Cache} {chain : List CompactBlock} {start last : ℕ}

/-- The held blocks of a chain state are those of the chain. -/
theorem ChainState.blockAt (hchain : ChainState chain cache) (h : ℕ) :
    cache.blockAt h = chain[h]? := by
  unfold Cache.blockAt
  rw [hchain.rows.compactBlocks, chainMap]
  cases chain[h]? <;> rfl

/-- A window of a chain state is linked. -/
theorem ChainState.linkedWindow (hchain : ChainState chain cache) (start last : ℕ) :
    LinkedWindow cache start last := by
  intro h low high _ _ hlow hhigh
  rw [hchain.blockAt] at hlow hhigh
  obtain ⟨hlt, rfl⟩ := List.getElem?_eq_some_iff.mp hhigh
  obtain ⟨hlt', rfl⟩ := List.getElem?_eq_some_iff.mp hlow
  exact List.isChain_iff_getElem.mp hchain.linked h hlt

/-- A block among those of a chain is the block of the cache with that chain. -/
theorem blockAt_of_among (hs : s.db.blocks.Among chain) (hchain : ChainState chain cache) {h : ℕ}
    {block : CompactBlock} (hblock : s.blockAt h = some block) : cache.blockAt h = some block := by
  rw [hchain.blockAt]
  unfold Cache.blockAt at hblock
  cases hrow : s.db.blocks.compactBlocks.get h with
  | none =>
    rw [hrow] at hblock
    cases hblock
  | some row =>
    obtain ⟨block', hblock', rfl⟩ := hs h row hrow
    rw [hrow] at hblock
    cases hblock
    exact hblock'

end Fork

/-- Beside any calls of the poller from an empty cache on, the slots of a complete digest whose
scan nothing of this disturbs are the valid clues of one window of linked blocks that the cache
held between two calls. -/
theorem complete_digest_one_fork (blake3 : Bytes → Bytes32) {now : ℕ} {s₀ : Cache}
    {calls : List (CacheM Unit)} (hnew : Cache.new now .empty = .ok s₀)
    (hcalls : PollerCalls [] calls) (sched : Schedule) (start last : ℕ) :
    let state := Prog.stateAt calls s₀
    let seen := fun n => state (sched.moment n)
    ∀ d, (scanDigestSlots blake3 start last).observe seen = .ok d → d.complete = true →
      CalmForScan state sched.moment (scanStart seen start last) start last →
      ∃ held ∈ Prog.boundaries calls s₀,
        LinkedWindow held start last ∧ CoversSlots blake3 held start last d := by
  intro state seen d hd hcomplete hcalm
  obtain ⟨hle, hspan, notes, hnotes, hcap⟩ := scanDigestSlots_observe_complete hd hcomplete
  set first := scanStart seen start last
  obtain ⟨held, hmem, chain, hchain, hstep⟩ :
      HeldBy BlockStep (Prog.boundaries calls s₀) (state (sched.moment first))
        (state (sched.moment first + 1)) :=
    hcalls.heldBy_stateAt blockStep_rules hnew _
  -- every block that the scan meets is the one of that chain
  have hsees : SeesBlocks held (fun n => seen (n + first)) start last := by
    intro h hh hhl
    obtain ⟨hsome, hkept⟩ := hcalm h hh hhl
    obtain ⟨block, hblock⟩ := Option.isSome_iff_exists.mp hsome
    refine ⟨block, blockAt_of_among hstep.before hchain hblock, ?_⟩
    show (seen (h - start + first)).blockAt h = some block
    rw [Nat.add_comm]
    exact hkept.trans hblock
  obtain rfl : notes = windowNotes held start last :=
    (Except.ok.inj ((scanEncryptedNotesRange_observe hle hspan hsees).symm.trans hnotes)).symm
  rw [flattenMessages_eq, noteClues_windowNotes blake3 held hle] at hcap
  have hsorted : (windowClues blake3 held start last).Pairwise fun c c' => c.1 ≤ c'.1 :=
    pairwise_windowClues start last
  obtain ⟨cut, truncated, hcut, hwhole, -⟩ := capMessagesToWholeHeights_eq hsorted
  rw [hcut] at hcap
  obtain ⟨hmessages, hheights, rfl⟩ : _ ∧ _ ∧ _ := by
    simpa only [Prod.mk.injEq] using hcap
  rw [hwhole rfl] at hmessages hheights
  refine ⟨held, hmem, hchain.linkedWindow start last, fun h hh hhl => ?_, hmessages.symm,
    hheights.symm⟩
  obtain ⟨block, hblock, -⟩ := hsees h hh hhl
  rw [hblock]
  rfl

/-! ## A rewind before the scan -/

section Rewound

/-- The block with a clue comes and goes. -/
def clueRewound : List (CacheM Unit) :=
  [insertCompactBlock 0 (.sample 0 1 [1] []), insertCompactBlock 0 clueBlock, rewindToHeight 0]

/-- The calls of the rewind are the poller's. -/
theorem clueRewound_calls : PollerCalls [] clueRewound := by
  refine .insert 0 _ (by decide +kernel) rfl (by decide) nofun ?_
  refine .insert 0 _ (by decide +kernel) rfl (by decide) ?_
    (.rewind 0 (by decide) (by decide) (.done _))
  intro low hlow
  cases hlow
  rfl

/-- The first four reads fall before the rewind, the others after it removed the block. -/
def Schedule.beforeRewind : Schedule where
  moment n := if n < 4 then 22 else 23
  monotone := by
    intro j k hjk
    by_cases hk : k < 4
    · simp only [if_pos hk, if_pos (hjk.trans_lt hk), le_refl]
    · simp only [if_neg hk]
      split_ifs <;> decide

/-- A clue that was serialised decodes to its ciphertext. -/
theorem clueCiphertext?_serializeClue {blake3 : Bytes → Bytes32} {ct : RlweCiphertext}
    (h : ct.InRange) : clueCiphertext? blake3 (serializeClue blake3 ct) = some ct := by
  unfold clueCiphertext?
  rw [validateUnifomrClue_serializeClue h, deserializeClue_serializeClue h.onWire]
  rfl

/-- The block with a clue has one clue. -/
theorem cluesAt_clueBlock {s : Cache} (hblock : s.blockAt 1 = some clueBlock) :
    cluesAt zeroHash s 1 = [(1, zeroCiphertext)] := by
  have hclues : clueBlock.clues = [serializeClue zeroHash zeroCiphertext] := rfl
  unfold cluesAt
  rw [hblock]
  dsimp only
  rw [hclues, List.filterMap_cons_some (clueCiphertext?_serializeClue inRange_zeroCiphertext),
    List.filterMap_nil, List.map_singleton]

/-- The cache with the first block. -/
def beforeClue : Cache := (insertCompactBlock 0 (.sample 0 1 [1] [])).exec .initial

/-- Nothing is pending, so the block is stored as it is. -/
theorem blockAt_insert_clueBlock :
    ((insertCompactBlock 0 clueBlock).exec beforeClue).blockAt 1 = some clueBlock := by
  have hpending : beforeClue.db.omr = .empty := by decide +kernel
  have hmeta : beforeClue.metadataRow = fun _ => none := by
    unfold Cache.metadataRow
    rw [hpending]
    rfl
  have hrows : beforeClue.liveRow 0 = fun _ => (none, none) := by
    unfold Cache.liveRow Cache.hintRow
    rw [hpending]
    rfl
  have hrow := (insertCompactBlock_merge 0 clueBlock beforeClue).1
  rw [hmeta, hrows] at hrow
  unfold Cache.blockAt
  rw [show clueBlock.height = 1 from rfl] at hrow
  rw [hrow]
  rfl

/-- Before and after the rewind height 1 holds that block or none. -/
theorem blockAt_clueRewound {held : Cache} (hheld : held ∈ Prog.boundaries clueRewound .initial)
    {block : CompactBlock} (hblock : held.blockAt 1 = some block) : block = clueBlock := by
  have hmem : held ∈ [.initial, beforeClue, (insertCompactBlock 0 clueBlock).exec beforeClue,
      (rewindToHeight 0).exec ((insertCompactBlock 0 clueBlock).exec beforeClue)] := hheld
  simp only [List.mem_cons, List.not_mem_nil, or_false] at hmem
  have hnone : ∀ s : Cache, (s.blockAt 1).isSome = false → s.blockAt 1 ≠ some block := by
    intro s hs hsome
    rw [hsome] at hs
    cases hs
  rcases hmem with heq | heq | heq | heq <;> rw [heq] at hblock
  · exact absurd hblock (hnone _ (by decide +kernel))
  · exact absurd hblock (hnone _ (by decide +kernel))
  · exact Option.some.inj (hblock.symm.trans blockAt_insert_clueBlock)
  · exact absurd hblock (hnone _ (by decide +kernel))

/-- Before the rewind the block is there. -/
theorem blockAt_beforeRewind :
    (Prog.stateAt clueRewound .initial 22).blockAt 1 = some clueBlock := by
  have hsome : ((Prog.stateAt clueRewound .initial 22).blockAt 1).isSome = true := by decide +kernel
  obtain ⟨block, hblock⟩ := Option.isSome_iff_exists.mp hsome
  obtain ⟨held, hheld, chain, hchain, hstep⟩ :=
    clueRewound_calls.heldBy_stateAt blockStep_rules new_initial 22
  rw [hblock, blockAt_clueRewound hheld (blockAt_of_among hstep.before hchain hblock)]

/-- The first block is there all along. -/
theorem blockAt_zero_beforeRewind :
    (Prog.stateAt clueRewound .initial 22).blockAt 0 = some (.sample 0 1 [1] []) := by
  decide +kernel

/-- The clues of the two blocks are that of the second one. -/
theorem windowClues_clueBlock {s : Cache} (hfirst : s.blockAt 0 = some (.sample 0 1 [1] []))
    (hblock : s.blockAt 1 = some clueBlock) : windowClues zeroHash s 0 1 = [(1, zeroCiphertext)] := by
  have hnone : cluesAt zeroHash s 0 = [] := by
    unfold cluesAt
    rw [hfirst]
    rfl
  have hwindow : windowClues zeroHash s 0 1 = cluesAt zeroHash s 0 ++ (cluesAt zeroHash s 1 ++ []) :=
    rfl
  rw [hwindow, hnone, cluesAt_clueBlock hblock]
  rfl

/-- The digest of the two heights when all its reads fall before the rewind. -/
theorem scanDigestSlots_beforeRewind :
    (scanDigestSlots zeroHash 0 1).observe (fun _ => Prog.stateAt clueRewound .initial 22) =
      .ok ⟨[zeroCiphertext], [1], true⟩ := by
  have hfirst := blockAt_zero_beforeRewind
  have hblock := blockAt_beforeRewind
  have hend : (digestEvaluableEnd 0 1).observe (fun _ => Prog.stateAt clueRewound .initial 22) =
      .ok (some 1, true) := by decide +kernel
  have hhash : ((getBlockHash 1).mapError cacheStatus).observe
      (fun _ => Prog.stateAt clueRewound .initial 22) = .ok (some (Bytes32.fill 2)) := by
    decide +kernel
  have hscan : (scanEncryptedNotesRange 0 1).observe
      (fun _ => Prog.stateAt clueRewound .initial 22) =
        .ok (windowNotes (Prog.stateAt clueRewound .initial 22) 0 1) := by
    refine scanEncryptedNotesRange_observe (Nat.zero_le 1) (by decide) fun h _ hle => ?_
    obtain rfl | rfl : h = 0 ∨ h = 1 := by omega
    · exact ⟨_, hfirst, hfirst⟩
    · exact ⟨clueBlock, hblock, hblock⟩
  generalize Prog.stateAt clueRewound .initial 22 = s at hfirst hblock hend hhash hscan ⊢
  have hflat : flattenMessages zeroHash (blockNotesFromDetection (windowNotes s 0 1)) =
      ([zeroCiphertext], [1]) := by
    rw [flattenMessages_eq, noteClues_windowNotes zeroHash s (Nat.zero_le 1),
      windowClues_clueBlock hfirst hblock]
    rfl
  unfold scanDigestSlots
  show ((digestEvaluableEnd 0 1).bind _).observe (fun _ => s) = _
  rw [Prog.observe_bind, hend]
  dsimp only
  rw [Prog.bind_eq, Prog.observe_bind, hhash]
  dsimp only
  rw [Prog.bind_eq, Prog.observe_bind, Prog.observe_mapError, hscan]
  show Except.ok _ = Except.ok _
  simp only [hflat]
  rfl

/-- A complete digest read before the rewind: two linked heights, the upper one with a clue. -/
theorem complete_digest_one_fork_beforeRewind :
    ∃ held ∈ Prog.boundaries clueRewound .initial, LinkedWindow held 0 1 ∧
      CoversSlots zeroHash held 0 1 ⟨[zeroCiphertext], [1], true⟩ := by
  refine complete_digest_one_fork zeroHash new_initial clueRewound_calls (.still 22) 0 1 _
    scanDigestSlots_beforeRewind rfl fun h _ hle => ⟨?_, rfl⟩
  obtain rfl | rfl : h = 0 ∨ h = 1 := by omega
  · exact congrArg Option.isSome blockAt_zero_beforeRewind
  · exact congrArg Option.isSome blockAt_beforeRewind

/-- Every block that the cache ever held at the height has a valid clue, and the digest of the
height says that it is complete, without a clue. -/
theorem complete_digest_no_fork : Cache.new 0 .empty = .ok .initial ∧ PollerCalls [] clueRewound ∧
    (scanDigestSlots zeroHash 1 1).observe
      (fun n => Prog.stateAt clueRewound .initial (Schedule.beforeRewind.moment n)) =
        .ok ⟨[], [], true⟩ ∧
    ∀ held ∈ Prog.boundaries clueRewound .initial, ¬ CoversSlots zeroHash held 1 1 ⟨[], [], true⟩ := by
  refine ⟨new_initial, clueRewound_calls, by decide +kernel, fun held hheld hcovers => ?_⟩
  obtain ⟨block, hblock⟩ := Option.isSome_iff_exists.mp (hcovers.cached 1 le_rfl le_rfl)
  obtain rfl := blockAt_clueRewound hheld hblock
  have hmessages := hcovers.messages
  have hwindow : windowClues zeroHash held 1 1 = cluesAt zeroHash held 1 := List.append_nil _
  rw [hwindow, cluesAt_clueBlock hblock] at hmessages
  cases hmessages

end Rewound

end LightWalletd
