import LightWalletd.Analysis.ClueRows
import LightWalletd.Analysis.Opening

/-!
# First writer wins

Any number of `store_omr_clue_hint` calls for one transaction, from no row on. The clues of the
row are a fold over the calls, `addClue` for each. When no call names the largest index, the
fold keeps for every index the clue of the first call that names it; a call that does is stored
as a call without an index.
-/

set_option autoImplicit false

namespace LightWalletd

open Stateful

/-- One `store_omr_clue_hint` call: the clock it reads, its clue and its index. -/
structure HintCall where
  now : ℕ
  clue : Bytes
  outputIndex : Option ℕ

/-- A non-empty clue whose length fits a `u32`, a `u32` index and a `u64` clock. -/
structure HintCall.WellFormed (c : HintCall) : Prop where
  clue_ne_nil : c.clue ≠ []
  clue_le : c.clue.length ≤ u32Max
  index_le : ∀ i, c.outputIndex = some i → i ≤ u32Max
  now_lt : c.now < 256 ^ 8

/-- The clue of a call fits its entry. -/
theorem HintCall.WellFormed.fits {c : HintCall} (h : c.WellFormed) :
    FitsEntry (c.outputIndex, c.clue) := ⟨h.index_le, h.clue_le⟩

/-- The calls, one after the other. -/
def storeHints (txHash : Bytes32) (calls : List HintCall) : CacheM Unit :=
  Prog.forEach (fun c => storeOmrClueHint c.now txHash c.clue c.outputIndex) calls

/-- No row that a call writes expires before a later call. -/
def NoExpiry (calls : List HintCall) : Prop :=
  calls.Pairwise fun c c' => c'.now - c.now ≤ omrClueHintTtlSecs

/-- What a reader finds: distinct indices, under each index the clue of the first call that
names it, and an index taken exactly when a call named it, as long as the row has not expired. -/
structure FirstWriterWins (txHash : Bytes32) (calls : List HintCall) (s : Cache) : Prop where
  distinct : ((s.hintRow txHash).clues.map Prod.fst).Nodup
  first : ∀ idx, (s.hintRow txHash).clues.lookup idx =
    (calls.find? fun c => c.outputIndex == idx).map HintCall.clue
  taken : ∀ later i, (∀ c ∈ calls, later - c.now ≤ omrClueHintTtlSecs) → i ≤ u32Max →
    ((omrClueIndexTaken later txHash i).run s).1 =
      .ok (calls.any fun c => c.outputIndex == some i)

/-! ## The row as a fold -/

/-- The clues with that of one more call. -/
def addClue (clues : List (Option ℕ × Bytes)) (c : HintCall) : List (Option ℕ × Bytes) :=
  if clues.any fun e => e.1 == c.outputIndex then clues
  else clues ++ [storedEntry (c.outputIndex, c.clue)]

/-- The clues of a row after some calls. -/
theorem clues_foldl_add {calls : List HintCall} (hcalls : ∀ c ∈ calls, c.WellFormed)
    (row : HintRow) :
    HintRow.clues (calls.foldl (fun row c => row.add c.now c.clue c.outputIndex) row) =
      calls.foldl addClue row.clues := by
  induction calls generalizing row with
  | nil => rfl
  | cons c calls ih =>
    have hc := (hcalls c (List.mem_cons_self ..)).fits
    rw [List.foldl_cons, List.foldl_cons, ih fun c' h => hcalls c' (List.mem_cons_of_mem _ h),
      HintRow.clues_add hc]
    rfl

/-- A row stays fresh as calls add to it. -/
theorem fresh_foldl_add {calls : List HintCall} (hcalls : ∀ c ∈ calls, c.WellFormed)
    {later : ℕ} (hlater : ∀ c ∈ calls, later - c.now ≤ omrClueHintTtlSecs) {row : HintRow}
    (hrow : row.Fresh later) :
    HintRow.Fresh later (calls.foldl (fun row c => row.add c.now c.clue c.outputIndex) row) := by
  induction calls generalizing row with
  | nil => exact hrow
  | cons c calls ih =>
    have hc := List.mem_cons_self (a := c) (l := calls)
    rw [List.foldl_cons]
    apply ih (fun c' h => hcalls c' (List.mem_cons_of_mem _ h))
      (fun c' h => hlater c' (List.mem_cons_of_mem _ h))
    exact hrow.add (hcalls c hc).now_lt (hlater c hc)

/-- The calls succeed and fold into the row. -/
theorem storeHints_run {txHash : Bytes32} {calls : List HintCall} {s : Cache}
    (hcalls : ∀ c ∈ calls, c.WellFormed) (htimes : NoExpiry calls)
    (hfresh : ∀ c ∈ calls, (s.hintRow txHash).Fresh c.now) :
    ∃ s', (storeHints txHash calls).run s = (.ok (), s') ∧ s'.hintRow txHash =
      calls.foldl (fun row c => row.add c.now c.clue c.outputIndex) (s.hintRow txHash) := by
  induction calls generalizing s with
  | nil => exact ⟨s, rfl, rfl⟩
  | cons c calls ih =>
    have hc := hcalls c (List.mem_cons_self ..)
    obtain ⟨hthis, hlater⟩ := List.pairwise_cons.mp htimes
    obtain ⟨s₁, hrun, hstored⟩ :=
      storeOmrClueHint_run hc.clue_ne_nil (hfresh c (List.mem_cons_self ..)) c.outputIndex
    have hfresh₁ : ∀ c' ∈ calls, (s₁.hintRow txHash).Fresh c'.now := by
      intro c' hc'
      rw [hstored.added]
      exact (hfresh c' (List.mem_cons_of_mem _ hc')).add hc.now_lt (hthis c' hc')
    obtain ⟨s', hrest, hrow⟩ :=
      ih (fun c' h => hcalls c' (List.mem_cons_of_mem _ h)) hlater hfresh₁
    refine ⟨s', ?_, ?_⟩
    · unfold storeHints Prog.forEach
      rw [Prog.run_bind_of_ok hrun]
      exact hrest
    · rw [hrow, hstored.added]
      rfl

/-! ## The fold as a lookup -/

/-- An index is taken exactly where it is found. -/
theorem any_index_iff {clues : List (Option ℕ × Bytes)} {idx : Option ℕ} :
    (clues.any fun e => e.1 == idx) = true ↔ (clues.lookup idx).isSome = true := by
  rw [List.lookup_isSome_iff, List.any_eq_true]
  constructor
  · rintro ⟨e, he, hidx⟩
    exact ⟨e, he, beq_iff_eq.mpr (beq_iff_eq.mp hidx).symm⟩
  · rintro ⟨e, he, hidx⟩
    exact ⟨e, he, beq_iff_eq.mpr (beq_iff_eq.mp hidx).symm⟩

/-- A new entry behind clues that do not have its index. -/
theorem nodup_append_clue {clues : List (Option ℕ × Bytes)} {idx : Option ℕ} (clue : Bytes)
    (hdistinct : (clues.map Prod.fst).Nodup) (hnew : clues.lookup idx = none) :
    ((clues ++ [(idx, clue)]).map Prod.fst).Nodup := by
  rw [List.map_append, List.nodup_append]
  refine ⟨hdistinct, List.nodup_singleton _, ?_⟩
  intro a ha b hb heq
  obtain ⟨e, he, rfl⟩ := List.mem_map.mp ha
  rw [List.map_singleton, List.mem_singleton] at hb
  have hidx : (idx != e.1) = true := List.lookup_eq_none_iff.mp hnew e he
  simp [heq, hb] at hidx

/-- Without the largest index, the fold keeps distinct indices and first clues. -/
theorem foldl_addClue {calls : List HintCall}
    (hindex : ∀ c ∈ calls, c.outputIndex ≠ some u32Max) :
    ((calls.foldl addClue []).map Prod.fst).Nodup ∧
      ∀ idx, (calls.foldl addClue []).lookup idx =
        (calls.find? fun c => c.outputIndex == idx).map HintCall.clue := by
  induction calls using List.reverseRecOn with
  | nil => exact ⟨List.nodup_nil, fun _ => rfl⟩
  | append_singleton calls c ih =>
    obtain ⟨hdistinct, hfirst⟩ := ih fun c' h => hindex c' (List.mem_append_left _ h)
    have hc : storedEntry (c.outputIndex, c.clue) = (c.outputIndex, c.clue) :=
      Prod.ext (storedIndex_of_ne (hindex c (by simp))) rfl
    rw [List.foldl_append, List.foldl_cons, List.foldl_nil]
    by_cases htaken : ((calls.foldl addClue []).any fun e => e.1 == c.outputIndex) = true
    · -- an earlier call has named the index
      rw [addClue, if_pos htaken]
      refine ⟨hdistinct, fun idx => ?_⟩
      rw [any_index_iff, hfirst, Option.isSome_map] at htaken
      obtain ⟨c', hc'⟩ := Option.isSome_iff_exists.mp htaken
      rw [hfirst, List.find?_append]
      by_cases hidx : c.outputIndex = idx
      · subst hidx
        simp [hc']
      · simp [hidx]
    · rw [addClue, if_neg htaken, hc]
      rw [any_index_iff, Bool.not_eq_true, Option.isSome_eq_false_iff, Option.isNone_iff_eq_none]
        at htaken
      refine ⟨nodup_append_clue _ hdistinct htaken, fun idx => ?_⟩
      rw [List.lookup_append, hfirst, List.find?_append]
      by_cases hidx : c.outputIndex = idx
      · subst hidx
        rw [hfirst, Option.map_eq_none_iff] at htaken
        simp [htaken]
      · have hne : (idx == c.outputIndex) = false := by
          simpa using fun h : idx = c.outputIndex => hidx h.symm
        simp [hidx, List.lookup_cons, hne]

/-- A fold over calls has an index exactly when a call named it. -/
theorem any_foldl_addClue {calls : List HintCall}
    (hindex : ∀ c ∈ calls, c.outputIndex ≠ some u32Max) (idx : Option ℕ) :
    ((calls.foldl addClue []).any fun e => e.1 == idx) =
      calls.any fun c => c.outputIndex == idx := by
  rw [Bool.eq_iff_iff, any_index_iff, (foldl_addClue hindex).2, Option.isSome_map,
    List.find?_isSome, List.any_eq_true]

/-- From no row on, first writers win exactly when no call names the largest index. -/
theorem first_writer_wins_iff (s : Cache) (txHash : Bytes32) (calls : List HintCall)
    (hnone : s.hintRow txHash = (none, none)) (hcalls : ∀ c ∈ calls, c.WellFormed)
    (htimes : NoExpiry calls) :
    FirstWriterWins txHash calls ((storeHints txHash calls).exec s) ↔
      ∀ c ∈ calls, c.outputIndex ≠ some u32Max := by
  have hfresh : ∀ later, (s.hintRow txHash).Fresh later := by
    intro later value hvalue
    rw [hnone] at hvalue
    cases hvalue
  obtain ⟨s', hrun, hrow⟩ := storeHints_run (s := s) hcalls htimes fun c _ => hfresh c.now
  have hexec : (storeHints txHash calls).exec s = s' := congrArg Prod.snd hrun
  have hclues : (s'.hintRow txHash).clues = calls.foldl addClue [] := by
    rw [hrow, clues_foldl_add hcalls, hnone]
    rfl
  have hlast : ∀ later, (∀ c ∈ calls, later - c.now ≤ omrClueHintTtlSecs) →
      (s'.hintRow txHash).Fresh later := by
    intro later hlater
    rw [hrow]
    exact fresh_foldl_add hcalls hlater (hfresh later)
  rw [hexec]
  constructor
  · intro hwins c hc hidx
    have hlater : ∀ c ∈ calls, 0 - c.now ≤ omrClueHintTtlSecs := by simp
    obtain ⟨s'', htaken, -⟩ := omrClueIndexTaken_run (hlast 0 hlater) u32Max
    have hwin := hwins.taken 0 u32Max hlater le_rfl
    rw [htaken] at hwin
    injection hwin with hwin
    have hnamed : (calls.any fun c => c.outputIndex == some u32Max) = true :=
      List.any_eq_true.mpr ⟨c, hc, by simp [hidx]⟩
    rw [hnamed, List.any_eq_true] at hwin
    obtain ⟨e, he, hmark⟩ := hwin
    exact (HintRow.readEntry_clues he).indexed (by simpa using hmark)
  · intro hindex
    obtain ⟨hdistinct, hfirst⟩ := foldl_addClue hindex
    refine ⟨by rwa [hclues], fun idx => by rw [hclues, hfirst], fun later i hlater _ => ?_⟩
    obtain ⟨s'', htaken, -⟩ := omrClueIndexTaken_run (hlast later hlater) i
    rw [htaken, hclues, any_foldl_addClue hindex]

/-- Two calls for one output, and one without an index. -/
theorem first_writer_wins_iff_three_calls :
    FirstWriterWins (Bytes32.fill 1) [⟨5, [1], some 0⟩, ⟨6, [2], some 0⟩, ⟨7, [3], none⟩]
        ((storeHints (Bytes32.fill 1)
          [⟨5, [1], some 0⟩, ⟨6, [2], some 0⟩, ⟨7, [3], none⟩]).exec Cache.initial) ↔
      ∀ c ∈ [(⟨5, [1], some 0⟩ : HintCall), ⟨6, [2], some 0⟩, ⟨7, [3], none⟩],
        c.outputIndex ≠ some u32Max := by
  apply first_writer_wins_iff
  · decide +kernel
  · intro c hc
    simp only [List.mem_cons, List.not_mem_nil, or_false] at hc
    rcases hc with rfl | rfl | rfl <;> constructor <;> simp [u32Max]
  · simp [NoExpiry, omrClueHintTtlSecs]

/-- The largest index is not taken after a call that named it. -/
theorem last_index_not_taken : ¬ FirstWriterWins (Bytes32.fill 1) [⟨5, [1], some u32Max⟩]
    ((storeHints (Bytes32.fill 1) [⟨5, [1], some u32Max⟩]).exec Cache.initial) := by
  intro hwins
  have htaken := hwins.taken 5 u32Max (by decide) le_rfl
  have hnot : ((omrClueIndexTaken 5 (Bytes32.fill 1) u32Max).run
      ((storeHints (Bytes32.fill 1) [⟨5, [1], some u32Max⟩]).exec Cache.initial)).1 =
        .ok false := by
    decide +kernel
  rw [hnot] at htaken
  simp at htaken

end LightWalletd
