import LightWalletd.Model.Digest

/-!
# The note scan, row by row

The notes of a window come from an iterator over the stored blocks, which reads the database
once for every row. The same evaluation of a digest as before, with nothing kept of its window,
with each of these reads visible.
-/

set_option autoImplicit false

namespace LightWalletd

open Stateful

/-- One step of an iterator: the first row from `k` to `last`. -/
def Tree.next {V : Type} (t : Tree ℕ V) (k last : ℕ) : CacheM (Option (ℕ × V)) :=
  .get fun s => ((t.sel s.db).filter fun h => decide (k ≤ h ∧ h ≤ last)).rows.head?

/-- The rounds of the iterator from `k` to `last`, each with the notes of its row. The cursor
grows in every round, so that `last + 2 - k` rounds are enough.
SOURCE: cache.rs:1410-1441 -/
def scanRows (last : ℕ) : ℕ → ℕ → CacheM (List (ℕ × List NoteForDetection))
  | 0, _ => pure []
  | fuel + 1, k => do
    match ← compactBlocks.next k last with
    | none => pure []
    | some (h, row) => do
      let block ← liftExcept
        (decodeRow ("Failed to deserialize compact block at " ++ toString h) row)
      let rest ← scanRows last fuel (h + 1)
      pure ((h, blockNotes block) :: rest)

/-- SOURCE: cache.rs:1391-1452 -/
def scanEncryptedNotesRange (start last : ℕ) : CacheM (List (ℕ × List NoteForDetection)) := do
  if start > last then Prog.fail (.invalidBlockRange start last)
  else if 10000 < last - start + 1 then Prog.fail (.invalidBlockRange start last)
  else do
    let byHeight ← scanRows last (last + 2 - start) start
    pure ((List.range' start (last - start + 1)).map fun h => (h, (byHeight.lookup h).getD []))

/-- `evaluate_detection_keys` up to the packing, when nothing is kept of the window. The hash of
the last block is read before the notes, to keep them under it.
SOURCE: server.rs:1349-1374, server.rs:1387-1401, server.rs:1424-1428 -/
def scanDigestSlots (blake3 : Bytes → Bytes32) (start last : ℕ) : Handler DigestSlots := do
  let _ ← liftStatus (rejectOversizedWindow start last)
  let (evalEnd, rangeComplete) ← digestEvaluableEnd start last
  let notes ← match evalEnd with
    | some evalEnd => do
      let _ ← (getBlockHash evalEnd).mapError cacheStatus
      (scanEncryptedNotesRange start evalEnd).mapError cacheStatus
    | none => pure []
  let (messages, slotHeights) := flattenMessages blake3 (blockNotesFromDetection notes)
  let (messages, slotHeights, truncated) := capMessagesToWholeHeights messages slotHeights
  pure ⟨messages, slotHeights, rangeComplete && !truncated⟩

end LightWalletd
