import LightWalletd.Analysis.Frame
import LightWalletd.Analysis.HintCodec

/-!
# Clue rows

What the clue functions do to the two rows of a transaction hash. A row that is not expired
survives every sweep, so the functions act on it as on a cell of its own: `HintRow.add` is
`storeOmrClueHint` there, and `HintRow.clues` are the clues it holds.
-/

set_option autoImplicit false

namespace LightWalletd

open Stateful

/-- The clue list of a transaction hash and the row with its time. -/
abbrev HintRow := Option Bytes × Option Bytes

/-- The clues of a row. -/
def HintRow.clues (row : HintRow) : List (Option ℕ × Bytes) := storedClues row.1

/-- A row with one more clue, unless its index is there. -/
def HintRow.add (now : ℕ) (clue : Bytes) (outputIndex : Option ℕ) (row : HintRow) : HintRow :=
  if row.clues.any fun c => c.1 == outputIndex then row
  else (some (encodeOmrClueHints (row.clues ++ [(outputIndex, clue)])), some (leBytes 8 now))

/-- The time of a row has not run out at `now`. -/
def HintRow.Fresh (now : ℕ) (row : HintRow) : Prop :=
  ∀ value, row.2 = some value → omrHintMetaExpired value now = false

/-- A row as it is seen at `now`: an expired one is as good as none. -/
def HintRow.live (now : ℕ) (row : HintRow) : HintRow :=
  match row.2 with
  | some value => if omrHintMetaExpired value now then (none, none) else row
  | none => row

namespace HintRow

variable {now : ℕ} {row : HintRow}

/-- No row is fresh. -/
theorem fresh_none (now : ℕ) : Fresh now (none, none) := by
  intro value hvalue
  cases hvalue

/-- A fresh row is still alive. -/
theorem Fresh.live (h : row.Fresh now) : row.live now = row := by
  unfold HintRow.live
  cases hstamp : row.2 with
  | none => rfl
  | some value => simp [h value hstamp]

/-- A row that is not fresh counts as none. -/
theorem live_of_not_fresh (h : ¬ row.Fresh now) : row.live now = (none, none) := by
  unfold HintRow.Fresh at h
  push Not at h
  obtain ⟨value, hstamp, hexpired⟩ := h
  simp [HintRow.live, hstamp, hexpired]

/-- The clues of a row are entries that can be read. -/
theorem readEntry_clues {c : Option ℕ × Bytes} (h : c ∈ row.clues) : ReadEntry c := by
  obtain ⟨hint, stamp⟩ := row
  cases hint with
  | none => cases h
  | some bytes => exact readEntry_of_mem_decode h

/-- The clues after a clue was added. -/
theorem clues_add {clue : Bytes} {outputIndex : Option ℕ} (h : FitsEntry (outputIndex, clue)) :
    (row.add now clue outputIndex).clues =
      if row.clues.any fun c => c.1 == outputIndex then row.clues
      else row.clues ++ [storedEntry (outputIndex, clue)] := by
  unfold add
  by_cases htaken : (row.clues.any fun c => c.1 == outputIndex) = true
  · rw [if_pos htaken, if_pos htaken]
  · rw [if_neg htaken, if_neg htaken]
    exact decode_encode_append (fun _ hc => readEntry_clues hc) h

/-- A row just stamped is fresh for the time to live. -/
theorem fresh_stamp {now later : ℕ} {hint : Option Bytes} (hnow : now < 256 ^ 8)
    (h : later - now ≤ omrClueHintTtlSecs) : Fresh later (hint, some (leBytes 8 now)) := by
  intro value hvalue
  cases hvalue
  have htake : (leBytes 8 now).take 8 = leBytes 8 now :=
    List.take_of_length_le (length_leBytes 8 now).le
  unfold omrHintMetaExpired
  rw [length_leBytes, htake, leValue_leBytes_of_lt hnow]
  simpa using h

/-- A row stays fresh when it gets a new time that is. -/
theorem Fresh.add {now later : ℕ} {clue : Bytes} {outputIndex : Option ℕ}
    (h : row.Fresh later) (hnow : now < 256 ^ 8) (hlater : later - now ≤ omrClueHintTtlSecs) :
    (row.add now clue outputIndex).Fresh later := by
  unfold HintRow.add
  by_cases htaken : (row.clues.any fun c => c.1 == outputIndex) = true
  · rwa [if_pos htaken]
  · rw [if_neg htaken]
    exact fresh_stamp hnow hlater

end HintRow

/-! ## Rows of a cache -/

/-- The row of a transaction hash. -/
def Cache.hintRow (s : Cache) (txHash : Bytes32) : HintRow :=
  (s.db.omr.omrClueHints.get txHash, s.db.omr.omrClueHintMeta.get txHash)

/-- Everything but the clue rows and the time of the last sweep. -/
def Cache.besideHints (s : Cache) : Db × LiveTipTree :=
  ({ s.db with omr := { s.db.omr with omrClueHints := .empty, omrClueHintMeta := .empty } },
    s.tipTree)

/-- Nothing but clue rows changed between `s` and `s'`, and no row that is fresh at `now`. -/
structure SameButExpired (now : ℕ) (s s' : Cache) : Prop where
  beside : s'.besideHints = s.besideHints
  row : ∀ txHash, (s.hintRow txHash).Fresh now → s'.hintRow txHash = s.hintRow txHash

/-- The cache without the clue rows of `txHashes`. -/
def Cache.dropHints (s : Cache) (txHashes : List Bytes32) : Cache :=
  { s with db := { s.db with omr := { s.db.omr with
      omrClueHints := s.db.omr.omrClueHints.removeAll txHashes
      omrClueHintMeta := s.db.omr.omrClueHintMeta.removeAll txHashes } } }

/-- The rows left when clues are dropped. -/
theorem dropHints_hintRow (s : Cache) (txHashes : List Bytes32) (txHash : Bytes32) :
    (s.dropHints txHashes).hintRow txHash =
      if txHash ∈ txHashes then (none, none) else s.hintRow txHash := by
  by_cases h : txHash ∈ txHashes
  · simp [Cache.dropHints, Cache.hintRow, OrderedMap.get_removeAll, h]
  · simp [Cache.dropHints, Cache.hintRow, OrderedMap.get_removeAll, h]

/-- A loop of `remove_omr_clue_hint` drops the clues. -/
theorem removeOmrClueHint_forEach_run (txHashes : List Bytes32) (s : Cache) :
    (Prog.forEach removeOmrClueHint txHashes).run s = (.ok (), s.dropHints txHashes) := by
  rw [Prog.run_forEach removeOmrClueHint (fun txHash s => s.dropHints [txHash])
    (fun _ _ => rfl)]
  congr 1
  induction txHashes generalizing s with
  | nil => rfl
  | cons txHash txHashes ih =>
    rw [List.foldl_cons, ih]
    rfl

/-- The transaction hashes whose rows have expired. -/
def expiredHints (now : ℕ) (s : Cache) : List Bytes32 :=
  ((s.db.omr.omrClueHintMeta.filter fun _ => true).rows.filter fun r =>
    omrHintMetaExpired r.2 now).map Prod.fst

/-- A fresh row is not removed. -/
theorem not_mem_expiredHints {now : ℕ} {s : Cache} {txHash : Bytes32}
    (h : (s.hintRow txHash).Fresh now) : txHash ∉ expiredHints now s := by
  intro hmem
  simp only [expiredHints, List.mem_map, List.mem_filter, Prod.exists, exists_and_right,
    exists_eq_right] at hmem
  obtain ⟨value, hrow, hexpired⟩ := hmem
  have hget := (OrderedMap.get_eq_some_iff _ _ _).mpr hrow
  simp only [OrderedMap.get_filter, if_true] at hget
  have hfresh := h value hget
  rw [hexpired] at hfresh
  cases hfresh

/-- A sweep succeeds and keeps the rows that are fresh. -/
theorem pruneExpiredOmrClueHints_run (now : ℕ) (s : Cache) :
    ∃ s', (pruneExpiredOmrClueHints now).run s = (.ok (), s') ∧ SameButExpired now s s' := by
  by_cases hrecent : s.omrHintSweepUnix ≠ 0 ∧ now - s.omrHintSweepUnix < omrClueHintSweepSecs
  · refine ⟨s, ?_, rfl, fun _ _ => rfl⟩
    unfold pruneExpiredOmrClueHints
    rw [Prog.bind_eq, Prog.run_bind_of_ok (Prog.run_get _ _), if_pos hrecent]
    rfl
  · have hsweep : (sweepExpiredOmrClueHintsAt now).run { s with omrHintSweepUnix := now } =
        (.ok (), ({ s with omrHintSweepUnix := now } : Cache).dropHints (expiredHints now s)) := by
      unfold sweepExpiredOmrClueHintsAt
      rw [Prog.bind_eq, Prog.run_bind_of_ok (Tree.run_range _ _ _)]
      exact removeOmrClueHint_forEach_run _ _
    refine ⟨({ s with omrHintSweepUnix := now } : Cache).dropHints (expiredHints now s), ?_, rfl,
      fun txHash hfresh => ?_⟩
    · unfold pruneExpiredOmrClueHints
      rw [Prog.bind_eq, Prog.run_bind_of_ok (Prog.run_get _ _), if_neg hrecent, Prog.bind_eq,
        Prog.run_bind_of_ok (Prog.run_update _ _), Prog.bind_eq,
        Prog.run_bind_of_ok (Prog.run_attempt _ _), hsweep]
      rfl
    · rw [dropHints_hintRow, if_neg (not_mem_expiredHints hfresh)]
      rfl

/-- A fresh row is not dropped. -/
theorem dropOmrClueHintIfExpired_run_of_fresh {now : ℕ} {s : Cache} {txHash : Bytes32}
    (h : (s.hintRow txHash).Fresh now) :
    (dropOmrClueHintIfExpired now txHash).run s = (.ok false, s) := by
  unfold dropOmrClueHintIfExpired
  rw [Prog.bind_eq, Prog.run_bind_of_ok (Tree.run_get _ _ _)]
  cases hrow : (omrClueHintMeta.sel s.db).get txHash with
  | none => rfl
  | some value =>
    have hvalue := h value hrow
    simp [hvalue]

/-- An expired row is. -/
theorem dropOmrClueHintIfExpired_run_of_not_fresh {now : ℕ} {s : Cache} {txHash : Bytes32}
    (h : ¬ (s.hintRow txHash).Fresh now) :
    (dropOmrClueHintIfExpired now txHash).run s = (.ok true, s.dropHints [txHash]) := by
  unfold HintRow.Fresh at h
  push Not at h
  obtain ⟨value, hstamp, hexpired⟩ := h
  have hget : (omrClueHintMeta.sel s.db).get txHash = some value := hstamp
  unfold dropOmrClueHintIfExpired
  rw [Prog.bind_eq, Prog.run_bind_of_ok (Tree.run_get _ _ _), hget]
  simp only [hexpired, ne_eq, Bool.not_eq_false] at *
  rw [if_pos hexpired]
  rfl

/-- What a stored clue leaves: its own row with the clue, every other fresh row as it was. -/
structure HintStored (now : ℕ) (txHash : Bytes32) (clue : Bytes) (outputIndex : Option ℕ)
    (s s' : Cache) : Prop where
  beside : s'.besideHints = s.besideHints
  added : s'.hintRow txHash = (s.hintRow txHash).add now clue outputIndex
  other : ∀ txHash' ≠ txHash, (s.hintRow txHash').Fresh now →
    s'.hintRow txHash' = s.hintRow txHash'

/-- Storing a clue for a fresh row succeeds and adds the clue to the row. -/
theorem storeOmrClueHint_run {now : ℕ} {txHash : Bytes32} {clue : Bytes} {s : Cache}
    (hclue : clue ≠ []) (hfresh : (s.hintRow txHash).Fresh now) (outputIndex : Option ℕ) :
    ∃ s', (storeOmrClueHint now txHash clue outputIndex).run s = (.ok (), s') ∧
      HintStored now txHash clue outputIndex s s' := by
  obtain ⟨s₁, hprune, hbeside, hrows⟩ := pruneExpiredOmrClueHints_run now s
  have hrow := hrows txHash hfresh
  have hfresh₁ : (s₁.hintRow txHash).Fresh now := hrow ▸ hfresh
  have hclues : storedClues ((omrClueHints.sel s₁.db).get txHash) = (s.hintRow txHash).clues := by
    rw [← hrow]
    rfl
  unfold storeOmrClueHint
  rw [if_neg (by simpa using hclue), Prog.bind_eq, Prog.run_bind_of_ok hprune, Prog.bind_eq,
    Prog.run_bind_of_ok (dropOmrClueHintIfExpired_run_of_fresh hfresh₁), Prog.bind_eq,
    Prog.run_bind_of_ok (Tree.run_get _ _ _)]
  simp only [hclues]
  by_cases htaken : ((s.hintRow txHash).clues.any fun c => c.1 == outputIndex) = true
  · refine ⟨s₁, ?_, hbeside, ?_, fun txHash' _ h => hrows txHash' h⟩
    · rw [if_pos htaken]
      rfl
    · rw [hrow, HintRow.add, if_pos htaken]
  · rw [if_neg htaken]
    refine ⟨_, rfl, hbeside, ?_, fun txHash' hne h => ?_⟩
    · rw [HintRow.add, if_neg htaken]
      simp [Cache.hintRow, omrClueHints, omrClueHintMeta]
    · have := hrows txHash' h
      simpa [Cache.hintRow, omrClueHints, omrClueHintMeta, hne] using this

/-- Asking whether an index is taken looks it up among the clues of a fresh row. -/
theorem omrClueIndexTaken_run {now : ℕ} {txHash : Bytes32} {s : Cache}
    (hfresh : (s.hintRow txHash).Fresh now) (outputIndex : ℕ) :
    ∃ s', (omrClueIndexTaken now txHash outputIndex).run s =
        (.ok ((s.hintRow txHash).clues.any fun c => c.1 == some outputIndex), s') ∧
      SameButExpired now s s' := by
  obtain ⟨s₁, hprune, hsame⟩ := pruneExpiredOmrClueHints_run now s
  have hrow := hsame.row txHash hfresh
  have hfresh₁ : (s₁.hintRow txHash).Fresh now := hrow ▸ hfresh
  refine ⟨s₁, ?_, hsame⟩
  unfold omrClueIndexTaken
  rw [Prog.bind_eq, Prog.run_bind_of_ok hprune, Prog.bind_eq,
    Prog.run_bind_of_ok (dropOmrClueHintIfExpired_run_of_fresh hfresh₁), if_neg (by simp),
    Prog.bind_eq, Prog.run_bind_of_ok (Tree.run_get _ _ _), ← hrow]
  cases hget : (omrClueHints.sel s₁.db).get txHash with
  | none =>
    have hempty : (s₁.hintRow txHash).clues = [] := by
      rw [HintRow.clues, Cache.hintRow, show s₁.db.omr.omrClueHints.get txHash = none from hget]
      rfl
    rw [hempty]
    rfl
  | some bytes =>
    have hbytes : (s₁.hintRow txHash).clues = decodeOmrClueHints bytes := by
      rw [HintRow.clues, Cache.hintRow,
        show s₁.db.omr.omrClueHints.get txHash = some bytes from hget]
      rfl
    rw [hbytes]
    rfl

end LightWalletd
