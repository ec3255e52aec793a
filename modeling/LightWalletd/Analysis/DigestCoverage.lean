import Mathlib.Data.List.GetD
import LightWalletd.Analysis.ClueWire
import LightWalletd.Analysis.RewindLaw
import LightWalletd.Model.Digest

/-!
# Digest coverage

The slots of a digest against the cached blocks. `windowClues` are the valid clues of a window
in height, then output order, each with its height. A complete digest has exactly those of its
window; an incomplete one has exactly those up to the last height it names, and every height
up to there is cached. So a client that goes on behind that height skips no clue.
-/

set_option autoImplicit false

namespace LightWalletd

open Stateful

/-! ## What a window holds -/

/-- The ring elements of a valid clue. -/
def clueCiphertext? (blake3 : Bytes → Bytes32) (clue : Bytes) : Option RlweCiphertext :=
  match validateUnifomrClue blake3 clue with
  | .ok () => (deserializeClue blake3 clue).toOption
  | .error _ => none

/-- The block cached at a height. -/
def Cache.blockAt (s : Cache) (h : ℕ) : Option CompactBlock :=
  match s.db.blocks.compactBlocks.get h with
  | some (.value block) => some block
  | _ => none

/-- The clues of the outputs of a block. -/
def CompactBlock.clues (block : CompactBlock) : List Bytes :=
  block.txs.flatMap fun tx => tx.outputs.map CompactOutput.omrClue

/-- The valid clues at a height. -/
def cluesAt (blake3 : Bytes → Bytes32) (s : Cache) (h : ℕ) : List (ℕ × RlweCiphertext) :=
  match s.blockAt h with
  | some block => (block.clues.filterMap (clueCiphertext? blake3)).map fun ct => (h, ct)
  | none => []

/-- The valid clues of the heights from `start` to `last`. -/
def windowClues (blake3 : Bytes → Bytes32) (s : Cache) (start last : ℕ) :
    List (ℕ × RlweCiphertext) :=
  (List.range' start (last + 1 - start)).flatMap (cluesAt blake3 s)

/-- The slots are the valid clues of a window whose heights are all cached. -/
structure CoversSlots (blake3 : Bytes → Bytes32) (s : Cache) (start last : ℕ) (d : DigestSlots) :
    Prop where
  cached : ∀ h, start ≤ h → h ≤ last → (s.blockAt h).isSome = true
  messages : d.messages = (windowClues blake3 s start last).map Prod.snd
  slotHeights : d.slotHeights = (windowClues blake3 s start last).map Prod.fst

section Windows

variable {blake3 : Bytes → Bytes32} {s : Cache}

/-- The clues of a height are at that height. -/
theorem fst_of_mem_cluesAt {h : ℕ} {c : ℕ × RlweCiphertext} (hc : c ∈ cluesAt blake3 s h) :
    c.1 = h := by
  unfold cluesAt at hc
  cases hblock : s.blockAt h with
  | none => simp [hblock] at hc
  | some block =>
    rw [hblock] at hc
    obtain ⟨ct, -, rfl⟩ := List.mem_map.mp hc
    rfl

/-- The clues of a range are in the range. -/
theorem bounds_of_mem_flatMap_cluesAt {start n : ℕ} {c : ℕ × RlweCiphertext}
    (hc : c ∈ (List.range' start n).flatMap (cluesAt blake3 s)) :
    start ≤ c.1 ∧ c.1 < start + n := by
  obtain ⟨h, hh, hc⟩ := List.mem_flatMap.mp hc
  rw [List.mem_range'_1] at hh
  rw [fst_of_mem_cluesAt hc]
  exact hh

/-- The clues of a window are in the window. -/
theorem bounds_of_mem_windowClues {start last : ℕ} {c : ℕ × RlweCiphertext}
    (hc : c ∈ windowClues blake3 s start last) : start ≤ c.1 ∧ c.1 ≤ last := by
  have hbounds := bounds_of_mem_flatMap_cluesAt hc
  omega

/-- The clues of a window come by ascending heights. -/
theorem pairwise_windowClues (start last : ℕ) :
    (windowClues blake3 s start last).Pairwise fun c c' => c.1 ≤ c'.1 := by
  unfold windowClues
  rw [List.pairwise_flatMap]
  constructor
  · intro h _
    apply List.pairwise_of_forall_mem_list
    intro c hc c' hc'
    rw [fst_of_mem_cluesAt hc, fst_of_mem_cluesAt hc']
  · apply List.Pairwise.imp _ (List.pairwise_lt_range' 1)
    intro h h' hlt c hc c' hc'
    rw [fst_of_mem_cluesAt hc, fst_of_mem_cluesAt hc']
    exact hlt.le

/-- The clues up to an inner height are those of the shorter window. -/
theorem filter_windowClues {start last mid : ℕ} (hstart : start ≤ mid) (hlast : mid ≤ last) :
    (windowClues blake3 s start last).filter (fun c => decide (c.1 ≤ mid)) =
      windowClues blake3 s start mid := by
  have hsplit : List.range' start (last + 1 - start) =
      List.range' start (mid + 1 - start) ++ List.range' (mid + 1) (last - mid) := by
    have hlen : last + 1 - start = (mid + 1 - start) + (last - mid) := by omega
    have hmid : mid + 1 = start + (mid + 1 - start) := by omega
    rw [hlen, ← List.range'_append_1, ← hmid]
  unfold windowClues
  rw [hsplit, List.flatMap_append, List.filter_append, List.filter_eq_self.mpr,
    List.filter_eq_nil_iff.mpr, List.append_nil]
  · intro c hc
    have hbounds := bounds_of_mem_flatMap_cluesAt hc
    rw [decide_eq_true_eq]
    omega
  · intro c hc
    have hbounds := bounds_of_mem_flatMap_cluesAt hc
    rw [decide_eq_true_eq]
    omega

end Windows

/-! ## Flattening -/

section Flatten

variable {blake3 : Bytes → Bytes32}

/-- A note is pushed where its clue is valid and decodes. -/
theorem pushNote_eq (h : ℕ) (acc : List RlweCiphertext × List ℕ) (note : ClueNote) :
    pushNote blake3 h acc note =
      (acc.1 ++ (clueCiphertext? blake3 note.omrClue).toList,
        acc.2 ++ (clueCiphertext? blake3 note.omrClue).toList.map fun _ => h) := by
  unfold pushNote clueCiphertext?
  by_cases hempty : note.omrClue.isEmpty = true
  · have hnil : note.omrClue = [] := List.isEmpty_iff.mp hempty
    simp [hnil, validateUnifomrClue]
  · rw [if_neg hempty]
    cases validateUnifomrClue blake3 note.omrClue with
    | error e => simp
    | ok _ =>
      cases deserializeClue blake3 note.omrClue with
      | error e => simp [Except.toOption]
      | ok ct => simp [Except.toOption]

/-- So are the notes of a height. -/
theorem foldl_pushNote (h : ℕ) (acc : List RlweCiphertext × List ℕ) (notes : List ClueNote) :
    notes.foldl (pushNote blake3 h) acc =
      (acc.1 ++ notes.filterMap fun n => clueCiphertext? blake3 n.omrClue,
        acc.2 ++ (notes.filterMap fun n => clueCiphertext? blake3 n.omrClue).map fun _ => h) := by
  induction notes generalizing acc with
  | nil => simp
  | cons note notes ih =>
    rw [List.foldl_cons, ih, pushNote_eq]
    cases hclue : clueCiphertext? blake3 note.omrClue with
    | none => simp [hclue]
    | some ct => simp [hclue]

/-- The valid clues of the notes, each with its height. -/
def noteClues (blake3 : Bytes → Bytes32) (notes : List (ℕ × List ClueNote)) :
    List (ℕ × RlweCiphertext) :=
  notes.flatMap fun n => (n.2.filterMap fun note => clueCiphertext? blake3 note.omrClue).map
    fun ct => (n.1, ct)

/-- Flattening lays out the valid clues of the notes and their heights. -/
theorem flattenMessages_eq (notes : List (ℕ × List ClueNote)) :
    flattenMessages blake3 notes =
      ((noteClues blake3 notes).map Prod.snd, (noteClues blake3 notes).map Prod.fst) := by
  have hfold : ∀ acc : List RlweCiphertext × List ℕ,
      notes.foldl (fun acc n => n.2.foldl (pushNote blake3 n.1) acc) acc =
        (acc.1 ++ (noteClues blake3 notes).map Prod.snd,
          acc.2 ++ (noteClues blake3 notes).map Prod.fst) := by
    induction notes with
    | nil => simp [noteClues]
    | cons n notes ih =>
      intro acc
      rw [List.foldl_cons, ih, foldl_pushNote]
      simp [noteClues, Function.comp_def]
  exact (hfold ([], [])).trans (by simp)

end Flatten

/-! ## Capping -/

section Cap

variable {slotHeights : List ℕ} {boundary : ℕ}

/-- The cut moves back only. -/
theorem backOff_le (boundary : ℕ) (slotHeights : List ℕ) (cut : ℕ) :
    backOff boundary slotHeights cut ≤ cut := by
  induction cut with
  | zero => exact le_rfl
  | succ cut ih =>
    rw [backOff]
    by_cases h : slotHeights.getD cut 0 = boundary
    · rw [if_pos h]
      omega
    · rw [if_neg h]

/-- Backing off passes slots of the boundary height only, and stops behind another one. -/
theorem backOff_spec (boundary : ℕ) (slotHeights : List ℕ) (cut : ℕ) :
    (∀ i, backOff boundary slotHeights cut ≤ i → i < cut → slotHeights.getD i 0 = boundary) ∧
      (backOff boundary slotHeights cut ≠ 0 →
        slotHeights.getD (backOff boundary slotHeights cut - 1) 0 ≠ boundary) := by
  induction cut with
  | zero => exact ⟨fun i _ hi => absurd hi (Nat.not_lt_zero i), fun h => absurd rfl h⟩
  | succ cut ih =>
    rw [backOff]
    by_cases h : slotHeights.getD cut 0 = boundary
    · rw [if_pos h]
      refine ⟨fun i hi hlt => ?_, ih.2⟩
      by_cases heq : i = cut
      · rw [heq, h]
      · exact ih.1 i hi (by omega)
    · rw [if_neg h]
      exact ⟨fun i hi hlt => absurd hlt (by omega), fun _ => h⟩

/-- The heights before the cut are below those behind it. -/
def CutsHeights (slotHeights : List ℕ) (cut : ℕ) : Prop :=
  ∀ x ∈ slotHeights.take cut, ∀ y ∈ slotHeights.drop cut, x < y

/-- Sorted heights increase along the list. -/
theorem getElem_le_getElem (hsorted : slotHeights.Pairwise (· ≤ ·)) {i j : ℕ} (hij : i ≤ j)
    (hj : j < slotHeights.length) : slotHeights[i] ≤ slotHeights[j] := by
  rcases Nat.lt_or_eq_of_le hij with hlt | rfl
  · exact List.pairwise_iff_getElem.mp hsorted i j _ hj hlt
  · exact le_rfl

/-- Backing off from the slot after one of the boundary height cuts between heights. -/
theorem cutsHeights_backOff (hsorted : slotHeights.Pairwise (· ≤ ·)) {last : ℕ}
    (hlast : last < slotHeights.length) :
    CutsHeights slotHeights (backOff slotHeights[last] slotHeights (last + 1)) := by
  intro x hx y hy
  obtain ⟨hpassed, hstop⟩ := backOff_spec slotHeights[last] slotHeights (last + 1)
  have hle := backOff_le slotHeights[last] slotHeights (last + 1)
  generalize backOff slotHeights[last] slotHeights (last + 1) = cut at *
  obtain ⟨i, hi, rfl⟩ := List.mem_take_iff_getElem.mp hx
  obtain ⟨j, hj, rfl⟩ := List.mem_drop_iff_getElem.mp hy
  -- the slot before the cut is not of the boundary height, so it is below it
  have hbefore : slotHeights[cut - 1] < slotHeights[last] := by
    apply lt_of_le_of_ne (getElem_le_getElem hsorted (by omega) hlast)
    have hne := hstop (by omega)
    rwa [List.getD_eq_getElem _ _ (by omega)] at hne
  have hbehind : slotHeights[last] ≤ slotHeights[cut + j] := by
    by_cases hjl : cut + j ≤ last
    · have heq := hpassed (cut + j) (by omega) (by omega)
      rw [List.getD_eq_getElem _ _ (by omega)] at heq
      exact heq.ge
    · exact getElem_le_getElem hsorted (by omega) (by omega)
  calc slotHeights[i] ≤ slotHeights[cut - 1] := getElem_le_getElem hsorted (by omega) (by omega)
    _ < slotHeights[last] := hbefore
    _ ≤ slotHeights[cut + j] := hbehind

/-- The slots of the first height end between heights. -/
theorem cutsHeights_takeWhile (hsorted : slotHeights.Pairwise (· ≤ ·)) (boundary : ℕ) :
    CutsHeights slotHeights (slotHeights.takeWhile (· == boundary)).length := by
  have hsplit := List.takeWhile_append_dropWhile (p := (· == boundary)) (l := slotHeights)
  set front := slotHeights.takeWhile (· == boundary) with hfront
  set back := slotHeights.dropWhile (· == boundary) with hback
  intro x hx y hy
  rw [← hsplit, List.take_left] at hx
  rw [← hsplit, List.drop_left] at hy
  have hx' : x = boundary := by
    have := List.all_takeWhile (p := (· == boundary)) (l := slotHeights)
    rw [List.all_eq_true] at this
    simpa using this x hx
  obtain ⟨z, zs, hz⟩ := List.exists_cons_of_ne_nil (List.ne_nil_of_mem hy)
  have hne : z ≠ boundary := by
    have hhead := List.head?_dropWhile_not (· == boundary) slotHeights
    rw [← hback, hz] at hhead
    simpa using hhead
  rw [← hsplit] at hsorted
  have hzy : z ≤ y := by
    have hpair := (List.pairwise_append.mp hsorted).2.1
    rw [hz] at hpair hy
    rcases List.mem_cons.mp hy with rfl | hy
    · exact le_rfl
    · exact (List.pairwise_cons.mp hpair).1 y hy
  have hxz : x ≤ z := (List.pairwise_append.mp hsorted).2.2 x hx z (by rw [hz]; simp)
  rw [hx'] at hxz ⊢
  exact lt_of_lt_of_le (lt_of_le_of_ne hxz (Ne.symm hne)) hzy

/-- Capping cuts the slots between two heights, or not at all. -/
theorem capMessagesToWholeHeights_eq {clues : List (ℕ × RlweCiphertext)}
    (hsorted : clues.Pairwise fun c c' => c.1 ≤ c'.1) :
    ∃ cut truncated, capMessagesToWholeHeights (clues.map Prod.snd) (clues.map Prod.fst) =
        ((clues.take cut).map Prod.snd, (clues.take cut).map Prod.fst, truncated) ∧
      (truncated = false → clues.take cut = clues) ∧ CutsHeights (clues.map Prod.fst) cut := by
  have hheights : (clues.map Prod.fst).Pairwise (· ≤ ·) := List.pairwise_map.mpr hsorted
  unfold capMessagesToWholeHeights
  by_cases hfew : (clues.map Prod.snd).length ≤ maxOmrMessages
  · rw [if_pos hfew]
    refine ⟨clues.length, false, by simp, by simp, fun x _ y hy => ?_⟩
    rw [List.drop_eq_nil_of_le (by simp)] at hy
    cases hy
  · rw [if_neg hfew]
    rw [List.length_map] at hfew
    have hpos : 0 < maxOmrMessages := by decide
    generalize maxOmrMessages = cap at *
    have hlast : cap - 1 < (clues.map Prod.fst).length := by
      rw [List.length_map]
      omega
    have hcap : cap - 1 + 1 = cap := by omega
    have hcuts := cutsHeights_backOff hheights hlast
    rw [hcap, ← List.getD_eq_getElem _ 0 hlast] at hcuts
    set boundary := (clues.map Prod.fst).getD (cap - 1) 0
    set back := backOff boundary (clues.map Prod.fst) cap
    refine ⟨if back = 0 then ((clues.map Prod.fst).takeWhile (· == boundary)).length else back,
      true, by rw [List.map_take, List.map_take], by simp, ?_⟩
    by_cases hzero : back = 0
    · rw [if_pos hzero]
      exact cutsHeights_takeWhile hheights boundary
    · rw [if_neg hzero]
      exact hcuts

end Cap

/-! ## Reading the window -/

section Read

variable {s : Cache}

/-- The hash of a height is that of its block. -/
theorem getBlockHash_run_blockAt (hs : s.db.blocks.Sound) (h : ℕ) :
    (getBlockHash h).run s = (.ok ((s.blockAt h).map CompactBlock.hash), s) := by
  unfold getBlockHash Cache.blockAt
  rw [Prog.bind_eq, Prog.run_bind_of_ok (Tree.run_get blockHashes h s)]
  cases hrow : s.db.blocks.compactBlocks.get h with
  | none =>
    simp only [blockHashes, hs.blockHashes h hrow]
    rfl
  | some row =>
    obtain ⟨block, rfl, -, hhash⟩ := hs.block h row hrow
    simp only [blockHashes, hhash]
    rfl

/-- The height before a hole is one below it. -/
theorem mem_heightBefore {start h e : ℕ} (he : e ∈ heightBefore start h) :
    start ≤ e ∧ e + 1 = h := by
  simp only [heightBefore, Option.mem_def, Option.filter_eq_some_iff, decide_eq_true_eq] at he
  obtain ⟨he, hse⟩ := he
  by_cases hzero : h = 0
  · simp [hzero] at he
  · simp only [hzero, if_false, Option.some.injEq] at he
    omega

/-- What the scan of a window finds: it stops before the first hole. -/
structure ScanResult (s : Cache) (start last : ℕ) (complete : Bool) (r : Option ℕ × Bool) :
    Prop where
  bounds : ∀ e ∈ r.1, start ≤ e ∧ e ≤ last
  cached : ∀ e ∈ r.1, ∀ h, start ≤ h → h ≤ e → (s.blockAt h).isSome = true
  complete : r.2 = true → complete = true ∧ r.1 = some last

/-- The evaluable end is the last height before a hole. -/
theorem evaluableFrom_run (hs : s.db.blocks.Sound) {start last : ℕ} (complete : Bool) {n h : ℕ}
    (hstart : start ≤ h) (hlast : last + 1 = h + n) (hle : start ≤ last)
    (hcached : ∀ k, start ≤ k → k < h → (s.blockAt k).isSome = true) :
    ∃ r, (evaluableFrom start last complete n h).run s = (.ok r, s) ∧
      ScanResult s start last complete r := by
  induction n generalizing h with
  | zero =>
    refine ⟨(some last, complete), rfl, ?_, ?_, fun hc => ⟨hc, rfl⟩⟩
    · rintro e ⟨⟩
      exact ⟨hle, le_rfl⟩
    · rintro e ⟨⟩ k hk hke
      exact hcached k hk (by omega)
  | succ n ih =>
    unfold evaluableFrom
    rw [Prog.bind_eq,
      Prog.run_bind_of_ok (Prog.run_mapError_of_ok (getBlockHash_run_blockAt hs h))]
    cases hblock : s.blockAt h with
    | none =>
      refine ⟨_, rfl, ?_, ?_, fun hc => by cases hc⟩
      · intro e he
        obtain ⟨hse, heh⟩ := mem_heightBefore he
        omega
      · intro e he k hk hke
        obtain ⟨-, heh⟩ := mem_heightBefore he
        exact hcached k hk (by omega)
    | some block =>
      apply ih (by omega) (by omega)
      intro k hk hlt
      by_cases heq : k = h
      · rw [heq, hblock]
        rfl
      · exact hcached k hk (by omega)

/-- The scan of a request succeeds; when it is complete it ends at the end of the window. -/
theorem digestEvaluableEnd_run (hs : s.db.blocks.Sound) (start last : ℕ) :
    ∃ r, (digestEvaluableEnd start last).run s = (.ok r, s) ∧
      ScanResult s start last true r := by
  obtain ⟨tip, htip⟩ := hs.readTip
  have hrun : getTip.run s = (.ok tip, s) := by rw [getTip_run, htip]
  unfold digestEvaluableEnd
  rw [Prog.bind_eq, Prog.run_bind_of_ok (Prog.run_mapError_of_ok hrun)]
  generalize (tip.map Prod.fst).getD 0 = tip
  by_cases hbelow : min last tip < start
  · rw [if_pos hbelow]
    exact ⟨(none, false), rfl, by simp, by simp, by simp⟩
  · rw [if_neg hbelow]
    have hstop : min last tip + 1 = start + (min last tip - start + 1) := by omega
    obtain ⟨r, hr, hscan⟩ := evaluableFrom_run hs (decide (last ≤ tip)) le_rfl hstop (by omega)
      fun k hk hlt => absurd hlt (by omega)
    refine ⟨r, hr, fun e he => ?_, hscan.cached, fun hc => ?_⟩
    · have := hscan.bounds e he
      omega
    · obtain ⟨hle, hend⟩ := hscan.complete hc
      rw [decide_eq_true_eq] at hle
      rw [min_eq_left hle] at hend
      exact ⟨rfl, hend⟩

/-- The notes of a row. -/
def rowNotes : Stored CompactBlock → List NoteForDetection
  | .value block => blockNotes block
  | .raw _ => []

/-- The rows of held blocks decode to their notes. -/
theorem mapM_blockNotes {rows : List (ℕ × Stored CompactBlock)}
    (h : ∀ r ∈ rows, ∃ block, r.2 = .value block) :
    (rows.mapM fun r => do
      let block ← decodeRow ("Failed to deserialize compact block at " ++ toString r.1) r.2
      (pure (r.1, blockNotes block) :
        Except LightWalletError (ℕ × List NoteForDetection))) =
      .ok (rows.map fun r => (r.1, rowNotes r.2)) := by
  apply mapM_eq_map
  intro r hr
  obtain ⟨block, hblock⟩ := h r hr
  rw [hblock]
  rfl

/-- The notes of the cached blocks of a window. -/
def windowNotes (s : Cache) (start last : ℕ) : List (ℕ × List NoteForDetection) :=
  (List.range' start (last - start + 1)).map fun h => (h, ((s.blockAt h).map blockNotes).getD [])

/-- The notes of a window are those of its cached blocks. -/
theorem getEncryptedNotesRange_run (hs : s.db.blocks.Sound) {start last : ℕ}
    (hle : start ≤ last) (hspan : last - start + 1 ≤ 10000) :
    (getEncryptedNotesRange start last).run s =
      (.ok (windowNotes s start last), s) := by
  set inside := fun h : ℕ => decide (start ≤ h ∧ h ≤ last)
  have hrows : ∀ r ∈ (s.db.blocks.compactBlocks.filter inside).rows,
      ∃ block, r.2 = .value block := by
    intro r hr
    obtain ⟨-, hget⟩ := OrderedMap.mem_rows_filter.mp hr
    obtain ⟨block, heq, -⟩ := hs.block r.1 r.2 hget
    exact ⟨block, heq⟩
  unfold getEncryptedNotesRange
  rw [if_neg (by omega), if_neg (by omega), Prog.bind_eq,
    Prog.run_bind_of_ok (Tree.run_range compactBlocks inside s)]
  show ((liftExcept ((s.db.blocks.compactBlocks.filter inside).rows.mapM _)).bind _).run s = _
  rw [mapM_blockNotes hrows, Prog.run_bind_of_ok (run_liftExcept _ s)]
  show (Except.ok _, s) = _
  congr 2
  apply List.map_congr_left
  intro h hh
  rw [List.mem_range'_1] at hh
  have hinside : inside h = true := by
    simp only [inside, decide_eq_true_eq]
    omega
  rw [← OrderedMap.rows_filter_map, OrderedMap.lookup_rows, OrderedMap.get_filter, if_pos hinside,
    OrderedMap.get_map]
  unfold Cache.blockAt
  cases hrow : s.db.blocks.compactBlocks.get h with
  | none => rfl
  | some row =>
    obtain ⟨block, rfl, -⟩ := hs.block h row hrow
    rfl

/-- A request that finds no window in memory reads the notes. -/
theorem cachedEncryptedNotes_run (hs : s.db.blocks.Sound) {start last : ℕ}
    (hle : start ≤ last) (hspan : last - start + 1 ≤ 10000) :
    ∃ windows, (cachedEncryptedNotes .new start last).run s =
      (.ok (windowNotes s start last, windows), s) := by
  unfold cachedEncryptedNotes
  rw [Prog.bind_eq,
    Prog.run_bind_of_ok (Prog.run_mapError_of_ok (getBlockHash_run_blockAt hs last))]
  refine ⟨WindowCache.insert clueWindowCap .new start last
    (((s.blockAt last).map CompactBlock.hash).getD (Bytes32.fill 0))
    (windowNotes s start last), ?_⟩
  show (((getEncryptedNotesRange start last).mapError cacheStatus).bind _).run s = _
  rw [Prog.run_bind_of_ok
    (Prog.run_mapError_of_ok (getEncryptedNotesRange_run hs hle hspan))]
  rfl

end Read

/-! ## Coverage -/

/-- The notes of a block have its clues. -/
theorem clueNotes_blockNotes (block : CompactBlock) :
    (blockNotes block).map NoteForDetection.omrClue = block.clues := by
  simp [blockNotes, CompactBlock.clues, List.map_flatMap, Function.comp_def]

/-- The notes of a window flatten to its clues. -/
theorem noteClues_windowNotes (blake3 : Bytes → Bytes32) (s : Cache) {start last : ℕ}
    (hle : start ≤ last) :
    noteClues blake3 (blockNotesFromDetection (windowNotes s start last)) =
      windowClues blake3 s start last := by
  unfold noteClues blockNotesFromDetection windowNotes windowClues
  rw [List.map_map, List.flatMap_map, show last + 1 - start = last - start + 1 by omega]
  congr 1
  funext h
  unfold cluesAt
  simp only [Function.comp_apply, List.filterMap_map]
  cases s.blockAt h with
  | none => rfl
  | some block =>
    simp only [← clueNotes_blockNotes, List.filterMap_map]
    rfl

/-- A window of allowed size is not refused. -/
theorem rejectOversizedWindow_eq {start last : ℕ} (hle : start ≤ last)
    (hspan : last - start + 1 ≤ maxBlocksPerRequest) :
    rejectOversizedWindow start last = .ok (last - start + 1) := by
  unfold rejectOversizedWindow heightSpan
  rw [if_neg (by omega)]
  show (if maxBlocksPerRequest < last - start + 1 then _ else _) = _
  rw [if_neg (by omega)]

/-- A window that is not refused is of allowed size. -/
theorem span_le_of_rejectOversizedWindow {start last span : ℕ}
    (h : rejectOversizedWindow start last = .ok span) :
    start ≤ last ∧ last - start + 1 ≤ 10000 := by
  unfold rejectOversizedWindow heightSpan at h
  by_cases hlt : last < start
  · rw [if_pos hlt] at h
    cases h
  · rw [if_neg hlt] at h
    change (if maxBlocksPerRequest < last - start + 1 then _ else _) = _ at h
    by_cases hbig : maxBlocksPerRequest < last - start + 1
    · rw [if_pos hbig] at h
      cases h
    · unfold maxBlocksPerRequest at hbig
      omega

/-- Slots that are cut between heights are the clues up to the last height they name. -/
theorem take_windowClues {blake3 : Bytes → Bytes32} {s : Cache} {start last cut top : ℕ}
    (hcut : CutsHeights ((windowClues blake3 s start last).map Prod.fst) cut)
    (htop : top ∈ ((windowClues blake3 s start last).take cut).map Prod.fst)
    (hmax : ∀ h ∈ ((windowClues blake3 s start last).take cut).map Prod.fst, h ≤ top) :
    (windowClues blake3 s start last).take cut = windowClues blake3 s start top := by
  obtain ⟨c, hc, rfl⟩ := List.mem_map.mp htop
  have hbounds := bounds_of_mem_windowClues (List.mem_of_mem_take hc)
  rw [← filter_windowClues hbounds.1 hbounds.2]
  set clues := windowClues blake3 s start last
  conv_rhs => rw [← List.take_append_drop cut clues]
  rw [List.filter_append, List.filter_eq_self.mpr, List.filter_eq_nil_iff.mpr, List.append_nil]
  · intro c' hc'
    have hlt : c.1 < c'.1 := by
      apply hcut
      · rw [← List.map_take]
        exact htop
      · rw [← List.map_drop]
        exact List.mem_map_of_mem hc'
    simpa using hlt
  · intro c' hc'
    simpa using hmax c'.1 (List.mem_map_of_mem hc')

/-- The slots of a digest, from a cache with sound rows. -/
theorem digestSlots_run {s : Cache} (hs : s.db.blocks.Sound) (blake3 : Bytes → Bytes32)
    {start last : ℕ} (hle : start ≤ last) (hspan : last - start + 1 ≤ maxBlocksPerRequest) :
    ∃ d windows, (digestSlots blake3 .new start last).run s = (.ok (d, windows), s) ∧
      d.messages.length = d.slotHeights.length ∧ d.slotHeights.Pairwise (· ≤ ·) ∧
      (d.complete = true → CoversSlots blake3 s start last d) ∧
      (d.complete = false → ∀ top ∈ d.slotHeights, (∀ h ∈ d.slotHeights, h ≤ top) →
        CoversSlots blake3 s start top d) := by
  obtain ⟨⟨evalEnd, rangeComplete⟩, hend, hscan⟩ := digestEvaluableEnd_run hs start last
  have hwindow : rejectOversizedWindow start last = .ok (last - start + 1) :=
    rejectOversizedWindow_eq hle hspan
  cases evalEnd with
  | none =>
    refine ⟨⟨[], [], rangeComplete && !false⟩, .new, ?_, rfl, List.Pairwise.nil, ?_, ?_⟩
    · unfold digestSlots
      rw [hwindow]
      show Prog.run ((digestEvaluableEnd start last).bind _) s = _
      rw [Prog.run_bind_of_ok hend]
      rfl
    · intro hcomplete
      rw [Bool.not_false, Bool.and_true] at hcomplete
      cases (hscan.complete hcomplete).2
    · intro _ top htop
      cases htop
  | some evalEnd =>
    obtain ⟨hstart, hlast⟩ := hscan.bounds evalEnd rfl
    obtain ⟨windows, hnotes⟩ :=
      cachedEncryptedNotes_run hs hstart (by unfold maxBlocksPerRequest at hspan; omega)
    have hsorted : (windowClues blake3 s start evalEnd).Pairwise fun c c' => c.1 ≤ c'.1 :=
      pairwise_windowClues start evalEnd
    obtain ⟨cut, truncated, hcap, hwhole, hcut⟩ := capMessagesToWholeHeights_eq hsorted
    refine ⟨⟨((windowClues blake3 s start evalEnd).take cut).map Prod.snd,
      ((windowClues blake3 s start evalEnd).take cut).map Prod.fst, rangeComplete && !truncated⟩,
      windows, ?_, by simp, ?_, ?_, ?_⟩
    · unfold digestSlots
      rw [hwindow]
      show Prog.run ((digestEvaluableEnd start last).bind _) s = _
      rw [Prog.run_bind_of_ok hend]
      show Prog.run ((cachedEncryptedNotes .new start evalEnd).bind _) s = _
      rw [Prog.run_bind_of_ok hnotes]
      simp only [flattenMessages_eq, noteClues_windowNotes blake3 s hstart, hcap]
      rfl
    · rw [List.pairwise_map]
      exact hsorted.sublist (List.take_sublist ..)
    · intro hcomplete
      rw [Bool.and_eq_true, Bool.not_eq_true'] at hcomplete
      have hall := (hscan.complete hcomplete.1).2
      simp only [Option.some.injEq] at hall
      subst hall
      refine ⟨hscan.cached evalEnd rfl, ?_, ?_⟩
      · rw [hwhole hcomplete.2]
      · rw [hwhole hcomplete.2]
    · intro _ top htop hmax
      have hclues := take_windowClues hcut htop hmax
      obtain ⟨c, hc, rfl⟩ := List.mem_map.mp htop
      have hbounds := bounds_of_mem_windowClues (List.mem_of_mem_take hc)
      refine ⟨fun h hh hle => hscan.cached evalEnd rfl h hh (hle.trans hbounds.2), ?_, ?_⟩
      · rw [hclues]
      · rw [hclues]

/-- A digest covers its window, or the part of it up to the last height it names. -/
theorem digest_covers_window {s : Cache} (hs : Reachable s) (blake3 : Bytes → Bytes32)
    (start last : ℕ) (hle : start ≤ last) (hspan : last - start + 1 ≤ maxBlocksPerRequest) :
    ∃ d windows, (digestSlots blake3 .new start last).run s = (.ok (d, windows), s) ∧
      d.messages.length = d.slotHeights.length ∧ d.slotHeights.Pairwise (· ≤ ·) ∧
      (d.complete = true → CoversSlots blake3 s start last d) ∧
      (d.complete = false → ∀ top ∈ d.slotHeights, (∀ h ∈ d.slotHeights, h ≤ top) →
        CoversSlots blake3 s start top d) :=
  digestSlots_run hs.sound blake3 hle hspan

/-- A hash function that is not one. -/
def zeroHash : Bytes → Bytes32 := fun _ => Bytes32.fill 0

/-- The second block of a chain, with one output that carries a valid clue. -/
def clueBlock : CompactBlock where
  height := 1
  hash := Bytes32.fill 2
  prevHash := Bytes32.fill 1
  timestamp := 0
  txs := [{
    txHash := Bytes32.fill 2
    outputs :=
      [⟨Bytes32.fill 2, [], [], Bytes32.fill 0, serializeClue zeroHash zeroCiphertext, [], 0⟩]
    nullifiers := []
    fee := 0 }]
  daoCalls := []
  funcEvents := []

/-- Blocks 0, 1 and 3; block 1 has a clue. -/
def blocksAroundHole : Cache :=
  runCalls [.insert 0 (.sample 0 1 [] []), .insert 0 clueBlock, .insert 0 (.sample 3 3 [] [])]
    Cache.initial

/-- Heights 0 to 3 with a block missing at 2: the digest ends below the hole, at the clue. -/
theorem digest_covers_window_around_hole :
    ∃ d windows, (digestSlots zeroHash .new 0 3).run blocksAroundHole =
        (.ok (d, windows), blocksAroundHole) ∧
      d.slotHeights = [1] ∧ d.complete = false ∧ CoversSlots zeroHash blocksAroundHole 0 1 d := by
  obtain ⟨d, windows, hrun, -, -, -, hpart⟩ := digest_covers_window
    ((Reachable.empty 0 _ new_initial).runCalls _) zeroHash 0 3 (by decide) (by decide)
  have heval : (((digestSlots zeroHash .new 0 3).run blocksAroundHole).1.toOption.map
      fun r => (r.1.slotHeights, r.1.complete)) = some ([1], false) := by decide +kernel
  rw [show (digestSlots zeroHash .new 0 3).run blocksAroundHole = _ from hrun] at heval
  obtain ⟨hheights, hcomplete⟩ := Prod.mk.inj (Option.some.inj heval)
  refine ⟨d, windows, hrun, hheights, hcomplete, hpart hcomplete 1 ?_ ?_⟩
  · rw [hheights]
    exact List.mem_singleton_self 1
  · rw [hheights]
    exact fun h hh => (List.mem_singleton.mp hh).le

end LightWalletd
