import LightWalletd.Analysis.DigestCoverage
import LightWalletd.Model.PirWindows

/-!
# Windows kept in memory

A digest window and a retrieval window are kept until the hash of their last block changes. What
the other blocks held, their clues included, is not looked at again. So the kept windows stay
right exactly as long as no call changes what their heights serve while that hash stays, or
brings the hash back with something else.
-/

set_option autoImplicit false

namespace LightWalletd

open Stateful

/-! ## Kept values -/

namespace WindowCache

variable {V W : Type}

/-- Keep a value unless there is one for the window and the hash. -/
def record (cap : ℕ) (c : WindowCache V) (start last : ℕ) (endHash : Bytes32) (v : V) :
    WindowCache V :=
  match c.get start last endHash with
  | some _ => c
  | none => c.insert cap start last endHash v

/-- What holds of every kept value. -/
def All (P : ℕ → ℕ → V → Prop) (c : WindowCache V) : Prop := ∀ e ∈ c.map, P e.1.1 e.1.2 e.2.2

variable {P : ℕ → ℕ → V → Prop} {c : WindowCache V} {start last : ℕ} {endHash : Bytes32} {v : V}

/-- What is found was kept for the window and under the hash. -/
theorem mem_of_get (hget : c.get start last endHash = some v) :
    ((start, last), endHash, v) ∈ c.map := by
  unfold WindowCache.get at hget
  cases hlookup : c.map.lookup (start, last) with
  | none =>
    rw [hlookup] at hget
    cases hget
  | some e =>
    obtain ⟨hash, kept⟩ := e
    rw [hlookup] at hget
    dsimp only at hget
    split_ifs at hget with hne
    cases hget
    obtain ⟨front, back, heq, -⟩ := List.lookup_eq_some_iff.mp hlookup
    rw [heq, ← not_not.mp hne]
    exact List.mem_append_right _ List.mem_cons_self

/-- What is kept is found, when there is one value for each window. -/
theorem get_of_mem (hkeys : (c.map.map Prod.fst).Nodup)
    (hmem : ((start, last), endHash, v) ∈ c.map) : c.get start last endHash = some v := by
  have hlookup : c.map.lookup (start, last) = some (endHash, v) := by
    obtain ⟨front, back, heq⟩ := List.append_of_mem hmem
    refine List.lookup_eq_some_iff.mpr ⟨front, back, heq, fun e he => ?_⟩
    rw [heq, List.map_append, List.map_cons] at hkeys
    have hne : e.1 ≠ (start, last) := fun hkey => (List.nodup_append.mp hkeys).2.2 e.1
      (List.mem_map_of_mem he) (start, last) List.mem_cons_self hkey
    simpa using Ne.symm hne
  unfold WindowCache.get
  rw [hlookup]
  simp

/-- What is kept after a value was kept. -/
theorem mem_record {e : (ℕ × ℕ) × Bytes32 × V} {cap : ℕ}
    (he : e ∈ (c.record cap start last endHash v).map) :
    e ∈ c.map ∨ e = ((start, last), endHash, v) := by
  unfold WindowCache.record at he
  cases hget : c.get start last endHash with
  | some kept =>
    rw [hget] at he
    exact Or.inl he
  | none =>
    rw [hget] at he
    unfold WindowCache.insert at he
    by_cases hsome : (c.map.lookup (start, last)).isSome
    · rw [if_pos hsome] at he
      exact (List.mem_cons.mp he).symm.imp List.mem_of_mem_filter id
    · rw [if_neg hsome] at he
      exact (List.mem_cons.mp he).symm.imp List.mem_of_mem_filter id

/-- A recorded window that satisfies the predicate. -/
theorem All.record (h : c.All P) (cap : ℕ) (endHash : Bytes32) (hv : P start last v) :
    (c.record cap start last endHash v).All P := by
  intro e he
  rcases mem_record he with he | rfl
  · exact h e he
  · exact hv

/-- A window that is kept again takes the place of what was kept of it. -/
theorem nodup_record (hkeys : (c.map.map Prod.fst).Nodup) (cap start last : ℕ) (endHash : Bytes32)
    (v : V) : ((c.record cap start last endHash v).map.map Prod.fst).Nodup := by
  have hkeep : ∀ p : (ℕ × ℕ) × Bytes32 × V → Bool, ((c.map.filter p).map Prod.fst).Nodup :=
    fun p => hkeys.sublist (List.filter_sublist.map Prod.fst)
  unfold WindowCache.record
  cases c.get start last endHash with
  | some kept => exact hkeys
  | none =>
    dsimp only
    unfold WindowCache.insert
    by_cases hsome : (c.map.lookup (start, last)).isSome
    · rw [if_pos hsome, List.map_cons]
      refine List.nodup_cons.mpr ⟨fun hmem => ?_, hkeep _⟩
      obtain ⟨e, he, hkey⟩ := List.mem_map.mp hmem
      exact of_decide_eq_true (List.mem_filter.mp he).2 hkey
    · rw [if_neg hsome, List.map_cons]
      refine List.nodup_cons.mpr ⟨fun hmem => ?_, hkeep _⟩
      obtain ⟨e, he, hkey⟩ := List.mem_map.mp hmem
      refine hsome (List.lookup_isSome_iff.mpr ⟨e, List.mem_of_mem_filter he, ?_⟩)
      simpa using hkey.symm

end WindowCache

/-! ## Reading the store -/

/-- The notes of a height. -/
def notesAt (s : Cache) (h : ℕ) : List NoteForDetection := ((s.blockAt h).map blockNotes).getD []

/-- The payload of a height. -/
def payloadAt (encodeToVec : EncodeToVec) (s : Cache) (h : ℕ) : Bytes :=
  ((s.blockAt h).map (encodeCompactBlockForPir encodeToVec)).getD []

/-- The payloads of the cached blocks of a window. -/
def windowPayloads (encodeToVec : EncodeToVec) (s : Cache) (start last : ℕ) : List Bytes :=
  (List.range' start (last - start + 1)).map (payloadAt encodeToVec s)

/-- The hash under which the notes of a window are kept. -/
def Cache.endHash (s : Cache) (last : ℕ) : Bytes32 :=
  ((s.blockAt last).map CompactBlock.hash).getD (Bytes32.fill 0)

/-- The hash under which the payloads of a window are kept. -/
def Cache.pirEndHash (s : Cache) (last : ℕ) : Bytes32 :=
  match s.blockAt last, s.db.blocks.readTip with
  | some block, _ => block.hash
  | none, .ok (some (tip, hash)) => if tip = last then hash else Bytes32.fill 0
  | none, _ => Bytes32.fill 0

section Reading

variable {s : Cache} {encodeToVec : EncodeToVec}

/-- A block is stored at its own height. -/
theorem height_of_blockAt (hs : s.db.blocks.Sound) {h : ℕ} {block : CompactBlock}
    (hblock : s.blockAt h = some block) : block.height = h := by
  unfold Cache.blockAt at hblock
  rcases hrow : s.db.blocks.compactBlocks.get h with _ | b | bytes <;> simp only [hrow] at hblock
  · cases hblock
  · cases hblock
    obtain ⟨b, heq, hheight, -⟩ := hs.block h _ hrow
    cases heq
    exact hheight
  · cases hblock

/-- `pir_window_end_hash` reads the hash of the last height. -/
theorem pirWindowEndHash_run (hs : s.db.blocks.Sound) (last : ℕ) :
    (pirWindowEndHash last).run s = (.ok (s.pirEndHash last), s) := by
  have hhash : ((getBlockHash last).attempt.mapError cacheStatus).run s =
      (.ok (.ok ((s.blockAt last).map CompactBlock.hash)), s) := by
    apply Prog.run_mapError_of_ok
    rw [Prog.run_attempt, getBlockHash_run_blockAt hs]
  have htip : (getTip.attempt.mapError cacheStatus).run s = (.ok s.db.blocks.readTip, s) := by
    apply Prog.run_mapError_of_ok
    rw [Prog.run_attempt, getTip_run]
  unfold pirWindowEndHash Cache.pirEndHash
  rw [Prog.bind_eq, Prog.run_bind_of_ok hhash]
  cases s.blockAt last with
  | some block => rfl
  | none =>
    show ((getTip.attempt.mapError cacheStatus).bind _).run s = _
    rw [Prog.run_bind_of_ok htip]
    obtain ⟨tip, htip⟩ := hs.readTip
    rw [htip]
    cases tip with
    | none => rfl
    | some tip =>
      dsimp only
      split_ifs <;> rfl

/-- The payload under a height is that of the one block of that height. -/
theorem get_foldl_insert {blocks : List CompactBlock} (m : OrderedMap ℕ Bytes)
    (f : CompactBlock → Bytes) (h : ℕ) (block : Option CompactBlock)
    (hblocks : ∀ b ∈ blocks, b.height = h → block = some b) :
    (blocks.foldl (fun m b => m.insert b.height (f b)) m).get h =
      if ∃ b ∈ blocks, b.height = h then block.map f else m.get h := by
  induction blocks generalizing m with
  | nil => simp
  | cons b blocks ih =>
    rw [List.foldl_cons, ih _ fun b' hb' => hblocks b' (List.mem_cons_of_mem _ hb')]
    by_cases hlater : ∃ b' ∈ blocks, b'.height = h
    · obtain ⟨b', hb', heq⟩ := hlater
      rw [if_pos ⟨b', hb', heq⟩, if_pos ⟨b', List.mem_cons_of_mem _ hb', heq⟩]
    · rw [if_neg hlater, OrderedMap.get_insert]
      by_cases heq : b.height = h
      · rw [if_pos heq.symm, if_pos ⟨b, List.mem_cons_self, heq⟩,
          hblocks b List.mem_cons_self heq]
        rfl
      · have hnone : ¬ ∃ b' ∈ b :: blocks, b'.height = h := by
          rintro ⟨b', hb', heq'⟩
          rcases List.mem_cons.mp hb' with rfl | hb'
          · exact heq heq'
          · exact hlater ⟨b', hb', heq'⟩
        rw [if_neg (Ne.symm heq), if_neg hnone]

/-- `get_compact_blocks_range` reads the blocks of the range. -/
theorem getCompactBlocksRange_run (hs : s.db.blocks.Sound) {start last : ℕ} (hle : start ≤ last) :
    ∃ blocks, (getCompactBlocksRange start last).run s = (.ok blocks, s) ∧
      ∀ block, block ∈ blocks ↔
        start ≤ block.height ∧ block.height ≤ last ∧ s.blockAt block.height = some block := by
  set rows := (s.db.blocks.compactBlocks.filter fun h => decide (start ≤ h ∧ h ≤ last)).rows with hrows
  have hmem : ∀ r, r ∈ rows ↔ (start ≤ r.1 ∧ r.1 ≤ last) ∧
      s.db.blocks.compactBlocks.get r.1 = some r.2 := by
    intro r
    rw [hrows, OrderedMap.mem_rows_filter, decide_eq_true_eq]
  obtain ⟨blocks, hrun, hall⟩ : ∃ blocks : List CompactBlock,
      (rows.mapM fun r => decodeRow "Failed to deserialize compact block" r.2) = .ok blocks ∧
        List.Forall₂ (fun r block => r.2 = Stored.value block) rows blocks := by
    apply mapM_ok
    intro r hr
    obtain ⟨block, heq, -⟩ := hs.block r.1 r.2 ((hmem r).mp hr).2
    exact ⟨block, by rw [heq]; rfl, heq⟩
  have hvalues : rows.map Prod.snd = blocks.map Stored.value := map_eq_map_of_forall₂ hall
  refine ⟨blocks, ?_, fun block => ?_⟩
  · unfold getCompactBlocksRange
    rw [if_neg (by omega), Prog.bind_eq, Prog.run_bind_of_ok (Tree.run_range compactBlocks _ s),
      run_liftExcept]
    exact Prod.ext hrun rfl
  · have hiff : block ∈ blocks ↔ ∃ r ∈ rows, r.2 = .value block := by
      rw [← List.mem_map, hvalues, List.mem_map]
      constructor
      · exact fun hb => ⟨block, hb, rfl⟩
      · rintro ⟨b, hb, heq⟩
        cases heq
        exact hb
    rw [hiff]
    unfold Cache.blockAt
    constructor
    · rintro ⟨r, hr, hvalue⟩
      obtain ⟨⟨h1, h2⟩, hget⟩ := (hmem r).mp hr
      obtain ⟨block', heq, hheight, -⟩ := hs.block r.1 r.2 hget
      rw [hvalue] at heq
      cases heq
      rw [hheight, hget, hvalue]
      exact ⟨h1, h2, rfl⟩
    · rintro ⟨h1, h2, hat⟩
      rcases hrow : s.db.blocks.compactBlocks.get block.height with _ | b | bytes <;>
        simp only [hrow] at hat
      · cases hat
      · cases hat
        exact ⟨(block.height, .value block), (hmem _).mpr ⟨⟨h1, h2⟩, hrow⟩, rfl⟩
      · cases hat

/-- A window has the payloads of its blocks, unless they are too large together. -/
theorem loadPirWindowPayloads_run (hs : s.db.blocks.Sound) {start last : ℕ} (hle : start ≤ last) :
    (loadPirWindowPayloads encodeToVec start last).run s =
      (if maxPirWindowEncodedBytes < ((windowPayloads encodeToVec s start last).map List.length).sum
        then .error ⟨.resourceExhausted, "PIR window encoded size " ++
          toString ((windowPayloads encodeToVec s start last).map List.length).sum ++ " exceeds " ++
          toString maxPirWindowEncodedBytes⟩
        else .ok (windowPayloads encodeToVec s start last), s) := by
  obtain ⟨blocks, hrun, hblocks⟩ := getCompactBlocksRange_run hs hle
  have hpayloads : ((List.range' start (last - start + 1)).map fun h => ((blocks.foldl
      (fun m block => m.insert block.height (encodeCompactBlockForPir encodeToVec block))
        (.empty : OrderedMap ℕ Bytes)).get h).getD []) = windowPayloads encodeToVec s start last := by
    apply List.map_congr_left
    intro h hh
    rw [List.mem_range'_1] at hh
    rw [get_foldl_insert .empty (encodeCompactBlockForPir encodeToVec) h (s.blockAt h)
      fun b hb heq => by rw [← heq]; exact ((hblocks b).mp hb).2.2]
    unfold payloadAt
    by_cases hsome : ∃ b ∈ blocks, b.height = h
    · rw [if_pos hsome]
    · rw [if_neg hsome]
      have hnone : s.blockAt h = none := by
        by_contra hne
        obtain ⟨b, hb⟩ := Option.ne_none_iff_exists'.mp hne
        have hheight := height_of_blockAt hs hb
        refine hsome ⟨b, (hblocks b).mpr ⟨by omega, by omega, ?_⟩, hheight⟩
        rw [hheight, hb]
      rw [hnone]
      rfl
  unfold loadPirWindowPayloads
  rw [Prog.bind_eq, Prog.run_bind_of_ok (Prog.run_mapError_of_ok hrun)]
  dsimp only
  rw [hpayloads]
  split_ifs <;> rfl

/-- The notes of a window are those of its heights. -/
theorem windowNotes_eq_iff {c c' : Cache} {start last : ℕ} (hle : start ≤ last) :
    windowNotes c start last = windowNotes c' start last ↔
      ∀ h, start ≤ h → h ≤ last → notesAt c h = notesAt c' h := by
  unfold windowNotes
  rw [List.map_inj_left]
  constructor
  · intro heq h h1 h2
    exact congrArg Prod.snd (heq h (List.mem_range'_1.mpr ⟨h1, by omega⟩))
  · intro heq h hh
    rw [List.mem_range'_1] at hh
    exact Prod.ext rfl (heq h hh.1 (by omega))

/-- The payloads of a window are those of its heights. -/
theorem windowPayloads_eq_iff {c c' : Cache} {start last : ℕ} (hle : start ≤ last) :
    windowPayloads encodeToVec c start last = windowPayloads encodeToVec c' start last ↔
      ∀ h, start ≤ h → h ≤ last → payloadAt encodeToVec c h = payloadAt encodeToVec c' h := by
  unfold windowPayloads
  rw [List.map_inj_left]
  constructor
  · intro heq h h1 h2
    exact heq h (List.mem_range'_1.mpr ⟨h1, by omega⟩)
  · intro heq h hh
    rw [List.mem_range'_1] at hh
    exact heq h hh.1 (by omega)

end Reading

/-! ## Runs -/

/-- What the server keeps besides the database. -/
structure ServerState where
  cache : Cache
  clueWindows : ClueWindows
  pirWindows : PirWindows

/-- The calls of the poller, of senders and of clients, each run to its end. -/
inductive WindowOp
  | insert (now : ℕ) (block : CompactBlock)
  | rewind (height : ℕ)
  | hint (now : ℕ) (txHash : Bytes32) (clue : Bytes) (outputIndex : Option ℕ)
  | digest (start last : ℕ)
  | pir (start last : ℕ)

section Runs

variable (blake3 : Bytes → Bytes32) (encodeToVec : EncodeToVec)

/-- The state after a call, whether or not it succeeded. A request that fails keeps nothing. -/
def WindowOp.apply : WindowOp → ServerState → ServerState
  | .insert now block, s => { s with cache := (insertCompactBlock now block).exec s.cache }
  | .rewind height, s => { s with cache := (rewindToHeight height).exec s.cache }
  | .hint now txHash clue outputIndex, s =>
    { s with cache := (storeOmrClueHint now txHash clue outputIndex).exec s.cache }
  | .digest start last, s =>
    match ((digestSlots blake3 s.clueWindows start last).run s.cache).1 with
    | .ok (_, windows) => { s with clueWindows := windows }
    | .error _ => s
  | .pir start last, s =>
    match ((fetchPirPayloads encodeToVec s.pirWindows start last).run s.cache).1 with
    | .ok (_, windows) => { s with pirWindows := windows }
    | .error _ => s

/-- The runs from an empty cache on. -/
inductive WindowRun : ServerState → Prop
  | empty (now : ℕ) (cache : Cache) : Cache.new now .empty = .ok cache →
      WindowRun ⟨cache, .new, .new⟩
  | step (op : WindowOp) (s : ServerState) : WindowRun s →
      WindowRun (op.apply blake3 encodeToVec s)

/-- The state after a list of calls. -/
def runWindows (ops : List WindowOp) (s : ServerState) : ServerState :=
  ops.foldl (fun s op => op.apply blake3 encodeToVec s) s

end Runs

section Invariant

variable {blake3 : Bytes → Bytes32} {encodeToVec : EncodeToVec} {s : Cache}

/-- A request for notes finds them in memory, or reads and keeps them. -/
theorem cachedEncryptedNotes_run_windows (hs : s.db.blocks.Sound) (windows : ClueWindows)
    {start last : ℕ} (hle : start ≤ last) (hspan : last - start + 1 ≤ 10000) :
    (cachedEncryptedNotes windows start last).run s =
      (.ok (((windows.get start last (s.endHash last)).getD (windowNotes s start last)),
        windows.record clueWindowCap start last (s.endHash last) (windowNotes s start last)), s) := by
  unfold cachedEncryptedNotes WindowCache.record
  rw [Prog.bind_eq,
    Prog.run_bind_of_ok (Prog.run_mapError_of_ok (getBlockHash_run_blockAt hs last))]
  have hend : ((s.blockAt last).map CompactBlock.hash).getD (Bytes32.fill 0) = s.endHash last :=
    rfl
  simp only [hend]
  cases windows.get start last (s.endHash last) with
  | some hit => rfl
  | none =>
    dsimp only
    rw [Prog.bind_eq,
      Prog.run_bind_of_ok (Prog.run_mapError_of_ok (getEncryptedNotesRange_run hs hle hspan))]
    rfl

/-- A request for payloads finds them in memory, or reads them and keeps them if it may. -/
theorem pirWindowPayloads_run (hs : s.db.blocks.Sound) (windows : PirWindows) {start last : ℕ}
    (hle : start ≤ last) :
    ((pirWindowPayloads encodeToVec windows start last).run s).1 =
      match windows.get start last (s.pirEndHash last) with
      | some payloads => .ok (payloads, windows)
      | none => ((loadPirWindowPayloads encodeToVec start last).run s).1.map fun built =>
        (built, if s.pirEndHash last ≠ Bytes32.fill 0 then
          windows.insert pirWindowCap start last (s.pirEndHash last) built else windows) := by
  unfold pirWindowPayloads
  rw [Prog.bind_eq, Prog.run_bind_of_ok (pirWindowEndHash_run hs last)]
  cases windows.get start last (s.pirEndHash last) with
  | some payloads => rfl
  | none =>
    dsimp only
    rw [Prog.bind_eq, Prog.run_bind, loadPirWindowPayloads_run hs hle]
    split_ifs <;> rfl

/-- Storing a clue writes clue rows only. -/
theorem storeOmrClueHint_keeps {p : BlockRows × TreeRows × ServerRows × LiveTipTree} (now : ℕ)
    (txHash : Bytes32) (clue : Bytes) (outputIndex : Option ℕ) :
    (storeOmrClueHint now txHash clue outputIndex).Keeps (BesideOmr p) :=
  clueFrame_besideOmr.storeOmrClueHint now txHash clue outputIndex

/-- A request that is answered has a window, and its payloads come from there. -/
theorem fetchPirPayloads_ok {windows : PirWindows} {start last : ℕ} {found : List Bytes × PirWindows}
    (h : ((fetchPirPayloads encodeToVec windows start last).run s).1 = .ok found) :
    (start ≤ last ∧ last - start + 1 ≤ 10000) ∧
      ((pirWindowPayloads encodeToVec windows start last).run s).1 = .ok found := by
  obtain ⟨s', hrun⟩ : ∃ s', (fetchPirPayloads encodeToVec windows start last).run s =
      (.ok found, s') := ⟨_, Prod.ext h rfl⟩
  obtain ⟨span, hwindow, hrest⟩ := run_bind_liftStatus_eq_ok hrun
  obtain ⟨tip, s₁, htip, hrest⟩ := Prog.run_bind_eq_ok hrest
  rw [Prog.run_mapError, getTip_run] at htip
  have hsame : s₁ = s := (congrArg Prod.snd htip).symm
  subst hsame
  refine ⟨span_le_of_rejectOversizedWindow hwindow, ?_⟩
  cases tip with
  | none => cases hrest
  | some tip =>
    dsimp only at hrest
    by_cases habove : tip.1 < last
    · rw [if_pos habove] at hrest
      cases hrest
    · rw [if_neg habove] at hrest
      rw [hrest]

/-- What a digest request leaves of the kept windows. -/
theorem digestSlots_windows (hs : s.db.blocks.Sound) (blake3 : Bytes → Bytes32)
    (windows : ClueWindows) {start last span : ℕ} {evalEnd : Option ℕ} {complete : Bool}
    (hwindow : rejectOversizedWindow start last = .ok span)
    (hend : (digestEvaluableEnd start last).run s = (.ok (evalEnd, complete), s)) :
    ∃ d, (digestSlots blake3 windows start last).run s =
      (.ok (d, evalEnd.elim windows fun e =>
        windows.record clueWindowCap start e (s.endHash e) (windowNotes s start e)), s) := by
  obtain ⟨hle, hspan⟩ := span_le_of_rejectOversizedWindow hwindow
  unfold digestSlots
  rw [hwindow]
  show ∃ d, Prog.run ((digestEvaluableEnd start last).bind _) s = _
  rw [Prog.run_bind_of_ok hend]
  cases evalEnd with
  | none => exact ⟨_, rfl⟩
  | some evalEnd =>
    obtain ⟨r, hr, hscan⟩ := digestEvaluableEnd_run hs start last
    rw [hend] at hr
    cases hr
    obtain ⟨hstart, hlast⟩ := hscan.bounds evalEnd rfl
    show ∃ d, Prog.run ((cachedEncryptedNotes windows start evalEnd).bind _) s = _
    rw [Prog.run_bind_of_ok (cachedEncryptedNotes_run_windows hs windows hstart (by omega))]
    exact ⟨_, rfl⟩

/-- What a digest request leaves of the server. -/
theorem WindowOp.apply_digest {s : ServerState} (hs : s.cache.db.blocks.Sound)
    (blake3 : Bytes → Bytes32) (encodeToVec : EncodeToVec) (start last : ℕ) :
    (WindowOp.digest start last).apply blake3 encodeToVec s = s ∨
      ∃ e, start ≤ e ∧ e - start + 1 ≤ 10000 ∧
        (WindowOp.digest start last).apply blake3 encodeToVec s =
          { s with
            clueWindows := s.clueWindows.record clueWindowCap start e (s.cache.endHash e)
              (windowNotes s.cache start e) } := by
  rw [WindowOp.apply]
  cases hwindow : rejectOversizedWindow start last with
  | error e =>
    unfold digestSlots
    rw [hwindow]
    exact Or.inl rfl
  | ok span =>
    obtain ⟨⟨evalEnd, complete⟩, hend, hscan⟩ := digestEvaluableEnd_run hs start last
    obtain ⟨d, hrun⟩ := digestSlots_windows hs blake3 s.clueWindows hwindow hend
    rw [hrun]
    cases evalEnd with
    | none => exact Or.inl rfl
    | some e =>
      have hbounds := hscan.bounds e rfl
      have hspan := (span_le_of_rejectOversizedWindow hwindow).2
      exact Or.inr ⟨e, hbounds.1, by omega, rfl⟩

/-- What a retrieval request leaves of the server. -/
theorem WindowOp.apply_pir {s : ServerState} (hs : s.cache.db.blocks.Sound)
    (blake3 : Bytes → Bytes32) (encodeToVec : EncodeToVec) (start last : ℕ) :
    (WindowOp.pir start last).apply blake3 encodeToVec s = s ∨
      (start ≤ last ∧ last - start + 1 ≤ 10000) ∧
        ((windowPayloads encodeToVec s.cache start last).map List.length).sum ≤
          maxPirWindowEncodedBytes ∧
        (WindowOp.pir start last).apply blake3 encodeToVec s =
          { s with
            pirWindows := s.pirWindows.record pirWindowCap start last
              (s.cache.pirEndHash last) (windowPayloads encodeToVec s.cache start last) } := by
  rw [WindowOp.apply]
  cases hfetch : ((fetchPirPayloads encodeToVec s.pirWindows start last).run s.cache).1 with
  | error e => exact Or.inl rfl
  | ok found =>
    obtain ⟨hwindow, hfound⟩ := fetchPirPayloads_ok hfetch
    rw [pirWindowPayloads_run hs s.pirWindows hwindow.1, loadPirWindowPayloads_run hs hwindow.1]
      at hfound
    unfold WindowCache.record
    cases hkept : s.pirWindows.get start last (s.cache.pirEndHash last) with
    | some payloads =>
      rw [hkept] at hfound
      cases hfound
      exact Or.inl rfl
    | none =>
      rw [hkept] at hfound
      by_cases hbig : maxPirWindowEncodedBytes <
          ((windowPayloads encodeToVec s.cache start last).map List.length).sum
      · rw [if_pos hbig] at hfound
        cases hfound
      rw [if_neg hbig] at hfound
      cases hfound
      dsimp only
      by_cases hzero : s.cache.pirEndHash last = Bytes32.fill 0
      · exact Or.inl (by rw [if_neg (not_not.mpr hzero)])
      · exact Or.inr ⟨hwindow, not_lt.mp hbig, by rw [if_pos hzero]⟩

/-- The windows of a kept value are admitted, and there is one value for each. -/
structure WindowCache.Tidy {V : Type} (Fits : V → Prop) (c : WindowCache V) : Prop where
  keys : (c.map.map Prod.fst).Nodup
  kept : c.All fun start last v => (start ≤ last ∧ last - start + 1 ≤ 10000) ∧ Fits v

/-- Recording a window of allowed size keeps the cache tidy. -/
theorem WindowCache.Tidy.record {V : Type} {Fits : V → Prop} {c : WindowCache V}
    (h : c.Tidy Fits) (cap : ℕ) {start last : ℕ} (endHash : Bytes32) {v : V}
    (hwindow : start ≤ last ∧ last - start + 1 ≤ 10000) (hv : Fits v) :
    (c.record cap start last endHash v).Tidy Fits :=
  ⟨nodup_record h.keys cap start last endHash v, h.kept.record cap endHash ⟨hwindow, hv⟩⟩

/-- What holds in every run, whether or not the kept values are right. -/
structure WindowInvariant (s : ServerState) : Prop where
  sound : s.cache.db.blocks.Sound
  clues : s.clueWindows.Tidy fun _ => True
  pirs : s.pirWindows.Tidy fun payloads =>
    (payloads.map List.length).sum ≤ maxPirWindowEncodedBytes

/-- The invariant holds of a server that was just opened. -/
theorem WindowInvariant.of_empty {now : ℕ} {cache : Cache} (hnew : Cache.new now .empty = .ok cache) :
    WindowInvariant ⟨cache, .new, .new⟩ := by
  refine ⟨?_, ⟨List.nodup_nil, fun e he => by cases he⟩, ⟨List.nodup_nil, fun e he => by cases he⟩⟩
  rw [(new_empty hnew).1]
  exact BlockRows.sound_empty

/-- A call keeps the invariant. -/
theorem WindowInvariant.apply {s : ServerState} (h : WindowInvariant s) (blake3 : Bytes → Bytes32)
    (encodeToVec : EncodeToVec) (op : WindowOp) :
    WindowInvariant (op.apply blake3 encodeToVec s) := by
  cases op with
  | insert now block => exact ⟨(CacheOp.insert now block).sound_apply h.sound, h.clues, h.pirs⟩
  | rewind height => exact ⟨(CacheOp.rewind height).sound_apply h.sound, h.clues, h.pirs⟩
  | hint now txHash clue outputIndex =>
    have hbeside := (storeOmrClueHint_keeps now txHash clue outputIndex).exec
      (Eq.refl s.cache.besideOmr)
    have hblocks : ((WindowOp.hint now txHash clue outputIndex).apply blake3 encodeToVec
        s).cache.db.blocks = s.cache.db.blocks := congrArg Prod.fst hbeside
    exact ⟨hblocks ▸ h.sound, h.clues, h.pirs⟩
  | digest start last =>
    obtain heq | ⟨e, hle, hspan, heq⟩ :=
      WindowOp.apply_digest h.sound blake3 encodeToVec start last
    · rwa [heq]
    · rw [heq]
      exact ⟨h.sound, h.clues.record _ _ ⟨hle, hspan⟩ trivial, h.pirs⟩
  | pir start last =>
    obtain heq | ⟨hwindow, hfits, heq⟩ :=
      WindowOp.apply_pir h.sound blake3 encodeToVec start last
    · rwa [heq]
    · rw [heq]
      exact ⟨h.sound, h.clues, h.pirs.record _ _ hwindow hfits⟩

/-- The invariant holds in every run. -/
theorem WindowRun.invariant {blake3 : Bytes → Bytes32} {s : ServerState}
    (hrun : WindowRun blake3 encodeToVec s) : WindowInvariant s := by
  induction hrun with
  | empty now cache hnew => exact .of_empty hnew
  | step op s _ ih => exact ih.apply blake3 encodeToVec op

end Invariant

/-! ## Coherence -/

/-- `last` is at or below the tip. -/
def Cache.Covers (s : Cache) (last : ℕ) : Prop :=
  ∃ tip ∈ s.db.blocks.readTip.toOption.join, last ≤ tip.1

/-- Whether a height is served can be checked. -/
instance (s : Cache) (last : ℕ) : Decidable (s.Covers last) :=
  inferInstanceAs (Decidable (∃ tip ∈ s.db.blocks.readTip.toOption.join, last ≤ tip.1))

section Right

variable {V : Type} (endHash : Cache → ℕ → Bytes32) (window : Cache → ℕ → ℕ → V)

/-- A request for a window up to `last` takes what is kept under `hash`. -/
def Cache.Takes (s : Cache) (last : ℕ) (hash : Bytes32) : Prop :=
  s.Covers last ∧ endHash s last = hash

/-- Whether an end hash is taken can be checked. -/
instance (s : Cache) (last : ℕ) (hash : Bytes32) : Decidable (s.Takes endHash last hash) :=
  inferInstanceAs (Decidable (_ ∧ _))

/-- What requests take is what the store has. -/
def WindowCache.Right (s : Cache) (c : WindowCache V) : Prop :=
  ∀ e ∈ c.map, s.Takes endHash e.1.2 e.2.1 → e.2.2 = window s e.1.1 e.1.2

/-- A call that leads from `before` to `after` leaves the windows that are kept alone: while one
has the end hash under which it is kept, its heights go on to serve what they served, and when
it gets that hash back, they serve what is kept. -/
def WindowCache.Undisturbed (before after : Cache) (c : WindowCache V) : Prop :=
  ∀ e ∈ c.map, after.Takes endHash e.1.2 e.2.1 →
    if before.Takes endHash e.1.2 e.2.1
      then window after e.1.1 e.1.2 = window before e.1.1 e.1.2
      else window after e.1.1 e.1.2 = e.2.2

/-- Whether a step disturbs a kept window can be checked. -/
instance [DecidableEq V] (before after : Cache) (c : WindowCache V) :
    Decidable (c.Undisturbed endHash window before after) :=
  inferInstanceAs (Decidable (∀ e ∈ c.map, _ → _))

variable {endHash window} {c : WindowCache V} {before after s : Cache}

/-- What is right stays right exactly when the call leaves the kept windows alone. -/
theorem WindowCache.Right.iff_undisturbed (h : c.Right endHash window before) :
    c.Right endHash window after ↔ c.Undisturbed endHash window before after := by
  refine forall₂_congr fun e he => imp_congr_right fun _ => ?_
  by_cases hbefore : before.Takes endHash e.1.2 e.2.1
  · rw [if_pos hbefore, h e he hbefore]
    exact eq_comm
  · rw [if_neg hbefore]
    exact eq_comm

/-- A window that is read now is right. -/
theorem WindowCache.Right.record (h : c.Right endHash window s) (cap start last : ℕ) :
    (c.record cap start last (endHash s last) (window s start last)).Right endHash window s := by
  intro e he htakes
  rcases mem_record he with he | rfl
  · exact h e he htakes
  · rfl

end Right

section Coherence

variable {blake3 : Bytes → Bytes32} {encodeToVec : EncodeToVec} {s : ServerState}

/-- For every admitted window up to the tip, notes and payloads are what the store has. -/
def ServerState.Coherent (encodeToVec : EncodeToVec) (s : ServerState) : Prop :=
  ∀ start last span, rejectOversizedWindow start last = .ok span → s.cache.Covers last →
    ((cachedEncryptedNotes s.clueWindows start last).run s.cache).1.map Prod.fst =
        (((getEncryptedNotesRange start last).mapError cacheStatus).run s.cache).1 ∧
      ((pirWindowPayloads encodeToVec s.pirWindows start last).run s.cache).1.map Prod.fst =
        ((loadPirWindowPayloads encodeToVec start last).run s.cache).1

/-- A call leaves the kept notes and the kept payloads alone. -/
def WindowOp.Undisturbing (blake3 : Bytes → Bytes32) (encodeToVec : EncodeToVec) (op : WindowOp)
    (s : ServerState) : Prop :=
  s.clueWindows.Undisturbed Cache.endHash windowNotes s.cache
      (op.apply blake3 encodeToVec s).cache ∧
    s.pirWindows.Undisturbed Cache.pirEndHash (windowPayloads encodeToVec) s.cache
      (op.apply blake3 encodeToVec s).cache

/-- Whether an operation is undisturbing can be checked. -/
instance (op : WindowOp) (s : ServerState) :
    Decidable (op.Undisturbing blake3 encodeToVec s) :=
  inferInstanceAs (Decidable (_ ∧ _))

/-- The notes of a window are answered right exactly when what a request takes is right. -/
theorem cached_notes_iff (h : WindowInvariant s) {start last : ℕ} (hle : start ≤ last)
    (hspan : last - start + 1 ≤ 10000) :
    ((cachedEncryptedNotes s.clueWindows start last).run s.cache).1.map Prod.fst =
        (((getEncryptedNotesRange start last).mapError cacheStatus).run s.cache).1 ↔
      ∀ notes ∈ s.clueWindows.get start last (s.cache.endHash last),
        notes = windowNotes s.cache start last := by
  rw [cachedEncryptedNotes_run_windows h.sound _ hle hspan,
    Prog.run_mapError_of_ok (getEncryptedNotesRange_run h.sound hle hspan)]
  cases s.clueWindows.get start last (s.cache.endHash last) with
  | none => exact iff_of_true rfl fun c hc => by cases hc
  | some notes =>
    show Except.ok notes = Except.ok (windowNotes s.cache start last) ↔ _
    simp only [Except.ok.injEq, Option.mem_def, Option.some.injEq, forall_eq']

/-- The payloads of a window are answered right exactly when what a request takes is right. -/
theorem cached_payloads_iff (h : WindowInvariant s) {start last : ℕ} (hle : start ≤ last) :
    ((pirWindowPayloads encodeToVec s.pirWindows start last).run s.cache).1.map Prod.fst =
        ((loadPirWindowPayloads encodeToVec start last).run s.cache).1 ↔
      ∀ payloads ∈ s.pirWindows.get start last (s.cache.pirEndHash last),
        payloads = windowPayloads encodeToVec s.cache start last := by
  rw [pirWindowPayloads_run h.sound _ hle]
  cases hkept : s.pirWindows.get start last (s.cache.pirEndHash last) with
  | none =>
    refine iff_of_true ?_ fun c hc => by cases hc
    dsimp only
    cases ((loadPirWindowPayloads encodeToVec start last).run s.cache).1 <;> rfl
  | some payloads =>
    have hfits := (h.pirs.kept _ (WindowCache.mem_of_get hkept)).2
    rw [loadPirWindowPayloads_run h.sound hle]
    simp only [Option.mem_def, Option.some.injEq, forall_eq']
    show Except.ok payloads = _ ↔ _
    constructor
    · intro heq
      split_ifs at heq
      exact Except.ok.inj heq
    · -- what was kept was not too large
      intro heq
      rw [← heq, if_neg (Nat.not_lt.mpr hfits)]

/-- The server is coherent exactly when the kept notes and payloads are right. -/
theorem WindowInvariant.coherent_iff (h : WindowInvariant s) :
    s.Coherent encodeToVec ↔ s.clueWindows.Right Cache.endHash windowNotes s.cache ∧
      s.pirWindows.Right Cache.pirEndHash (windowPayloads encodeToVec) s.cache := by
  constructor
  · intro hcoh
    constructor
    · rintro ⟨⟨start, last⟩, hash, notes⟩ he ⟨hcovers, hhash⟩
      obtain rfl : s.cache.endHash last = hash := hhash
      obtain ⟨⟨hle, hspan⟩, -⟩ := h.clues.kept _ he
      exact (cached_notes_iff h hle hspan).mp
        (hcoh start last _ (rejectOversizedWindow_eq hle hspan) hcovers).1 _
        (WindowCache.get_of_mem h.clues.keys he)
    · rintro ⟨⟨start, last⟩, hash, payloads⟩ he ⟨hcovers, hhash⟩
      obtain rfl : s.cache.pirEndHash last = hash := hhash
      obtain ⟨⟨hle, hspan⟩, -⟩ := h.pirs.kept _ he
      exact (cached_payloads_iff h hle).mp
        (hcoh start last _ (rejectOversizedWindow_eq hle hspan) hcovers).2 _
        (WindowCache.get_of_mem h.pirs.keys he)
  · rintro ⟨hclues, hpirs⟩ start last span hwindow hcovers
    obtain ⟨hle, hspan⟩ := span_le_of_rejectOversizedWindow hwindow
    exact ⟨(cached_notes_iff h hle hspan).mpr fun notes hget =>
        hclues _ (WindowCache.mem_of_get hget) ⟨hcovers, rfl⟩,
      (cached_payloads_iff h hle).mpr fun payloads hget =>
        hpirs _ (WindowCache.mem_of_get hget) ⟨hcovers, rfl⟩⟩

/-- A call of a coherent server leaves it coherent exactly when it leaves the kept windows
alone. -/
theorem WindowInvariant.coherent_apply_iff (h : WindowInvariant s) (hcoh : s.Coherent encodeToVec)
    (op : WindowOp) : (op.apply blake3 encodeToVec s).Coherent encodeToVec ↔
      op.Undisturbing blake3 encodeToVec s := by
  obtain ⟨hclues, hpirs⟩ := h.coherent_iff.mp hcoh
  rw [(h.apply blake3 encodeToVec op).coherent_iff]
  unfold WindowOp.Undisturbing
  rw [← hclues.iff_undisturbed, ← hpirs.iff_undisturbed]
  cases op with
  | insert now block => rfl
  | rewind height => rfl
  | hint now txHash clue outputIndex => rfl
  | digest start last =>
    -- what is read now is right, and the store stays as it is
    obtain heq | ⟨e, -, -, heq⟩ := WindowOp.apply_digest h.sound blake3 encodeToVec start last
    · rw [heq]
    · rw [heq]
      exact iff_of_true ⟨hclues.record _ _ _, hpirs⟩ ⟨hclues, hpirs⟩
  | pir start last =>
    obtain heq | ⟨-, -, heq⟩ := WindowOp.apply_pir h.sound blake3 encodeToVec start last
    · rw [heq]
    · rw [heq]
      exact iff_of_true ⟨hclues, hpirs.record _ _ _⟩ ⟨hclues, hpirs⟩

/-- One call more. -/
theorem runWindows_take_succ (ops : List WindowOp) (i : ℕ) (s : ServerState) :
    runWindows blake3 encodeToVec (ops.take (i + 1)) s =
      ops[i]?.elim (runWindows blake3 encodeToVec (ops.take i) s) fun op =>
        op.apply blake3 encodeToVec (runWindows blake3 encodeToVec (ops.take i) s) := by
  unfold runWindows
  rw [List.take_add_one, List.foldl_append]
  cases ops[i]? <;> rfl

/-- Every run keeps the invariant. -/
theorem WindowInvariant.runWindows (h : WindowInvariant s) (ops : List WindowOp) :
    WindowInvariant (runWindows blake3 encodeToVec ops s) := by
  induction ops generalizing s with
  | nil => exact h
  | cons op ops ih => exact ih (h.apply blake3 encodeToVec op)

end Coherence

/-! ## Stale windows -/

/-- A run from an empty cache, with a hash of nothing, and blocks written as their hash. -/
def plainWindows (ops : List WindowOp) : ServerState :=
  runWindows (fun _ => Bytes32.fill 0) Proto.CompactBlock.hash ops ⟨.initial, .new, .new⟩

/-- Every history of operations is a run from an empty server. -/
theorem windowRun_plainWindows (ops : List WindowOp) :
    WindowRun (fun _ => Bytes32.fill 0) Proto.CompactBlock.hash (plainWindows ops) := by
  unfold plainWindows runWindows
  induction ops using List.reverseRecOn with
  | nil => exact .empty 0 _ new_initial
  | append_singleton ops op ih =>
    rw [List.foldl_append]
    exact .step op _ ih

/-- A digest and a retrieval of block 1, another block 1, and the first one again. -/
def returningBlock : List WindowOp :=
  [.insert 0 (.sample 0 1 [1] []), .insert 0 (.sample 1 2 [2] []), .digest 1 1, .pir 1 1,
    .rewind 0, .insert 0 (.sample 1 4 [4] []), .rewind 0, .insert 0 (.sample 1 2 [2] [])]

/-- Block 1 is taken back and comes again after a clue for its transaction. -/
def clueAfterRewind : List WindowOp :=
  [.insert 0 (.sample 0 1 [1] []), .insert 0 (.sample 1 2 [2] []), .digest 1 1, .rewind 0,
    .hint 0 (Bytes32.fill 2) [7] (some 0), .insert 0 (.sample 1 2 [2] [])]

/-- Block 1 comes after block 2. -/
def filledHole : List WindowOp :=
  [.insert 0 (.sample 0 1 [1] []), .insert 0 (.sample 2 3 [3] []), .pir 0 2,
    .insert 0 (.sample 1 2 [2] [])]

end LightWalletd
