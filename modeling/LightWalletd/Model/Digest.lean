import LightWalletd.Model.TreeHandlers
import LightWalletd.Model.Unifomr

/-!
# Digest windows

How a digest request finds its clues: the window is checked and cut at the tip and at the first
hole, the notes of its blocks are read, and the valid clues are laid out one to a slot, in
height, then output order, up to a cap that falls between two heights. The notes of a window
are kept in memory until the hash of its last block changes.
-/

set_option autoImplicit false

namespace LightWalletd

open Stateful

/-! ## Windows -/

/-- SOURCE: server.rs:89 -/
def maxBlocksPerRequest : ℕ := 10000

/-- SOURCE: server.rs:159-166 -/
def heightSpan (start last : ℕ) : Except Status ℕ :=
  if last < start then
    .error ⟨.invalidArgument, "Invalid height range: start=" ++ toString start ++ " > end=" ++
      toString last⟩
  else .ok (last - start + 1)

/-- SOURCE: server.rs:250-258 -/
def rejectOversizedWindow (start last : ℕ) : Except Status ℕ := do
  let span ← heightSpan start last
  if maxBlocksPerRequest < span then
    .error ⟨.invalidArgument, "Range too large: " ++ toString span ++
      " blocks requested, max is " ++ toString maxBlocksPerRequest⟩
  else .ok span

/-- An error found without touching the store, as a status. -/
def liftStatus {α : Type} : Except Status α → Handler α
  | .ok a => .ret a
  | .error e => .fail e

/-- A status that is known is returned at once. -/
@[simp] theorem run_liftStatus {α : Type} (r : Except Status α) (s : Cache) :
    (liftStatus r).run s = (r, s) := by
  cases r <;> rfl

/-- A step that only checks lets the rest run on the same state. -/
theorem run_bind_liftStatus_eq_ok {α β : Type} {r : Except Status α} {f : α → Handler β} {b : β}
    {s s' : Cache} (h : ((liftStatus r).bind f).run s = (.ok b, s')) :
    ∃ a, r = .ok a ∧ (f a).run s = (.ok b, s') := by
  obtain ⟨a, s₁, hr, hf⟩ := Prog.run_bind_eq_ok h
  rw [run_liftStatus] at hr
  cases hr
  exact ⟨a, rfl, hf⟩

/-- The height below `h`, unless it is below `start`. -/
def heightBefore (start h : ℕ) : Option ℕ :=
  (if h = 0 then none else some (h - 1)).filter fun p => decide (start ≤ p)

/-- The loop of `digestEvaluableEnd` over the `n` heights from `h` to `last`.
SOURCE: server.rs:208-213 -/
def evaluableFrom (start last : ℕ) (complete : Bool) : ℕ → ℕ → Handler (Option ℕ × Bool)
  | 0, _ => pure (some last, complete)
  | n + 1, h => do
    match ← (getBlockHash h).mapError cacheStatus with
    | none => pure (heightBefore start h, false)
    | some _ => evaluableFrom start last complete n (h + 1)

/-- Last height that a digest may cover, and whether that is the whole window.
SOURCE: server.rs:187-214 -/
def digestEvaluableEnd (start last : ℕ) : Handler (Option ℕ × Bool) := do
  let tip ← getTip.mapError cacheStatus
  let tip := (tip.map Prod.fst).getD 0
  let stop := min last tip
  if stop < start then pure (none, false)
  else evaluableFrom start stop (decide (last ≤ tip)) (stop - start + 1) start

/-! ## Notes -/

/-- SOURCE: omr_detector.rs:30-36 -/
structure NoteForDetection where
  encryptedNote : Bytes
  omrClue : Bytes
  deriving DecidableEq

/-- The notes of a block; a note with a clue goes without its ciphertext.
SOURCE: cache.rs:1424-1438 -/
def blockNotes (block : CompactBlock) : List NoteForDetection :=
  block.txs.flatMap fun tx => tx.outputs.map fun o =>
    { encryptedNote := if o.omrClue.isEmpty then o.encryptedNote else [], omrClue := o.omrClue }

/-- The notes of every height of the window, none for a height without a block.
SOURCE: cache.rs:1391-1452 -/
def getEncryptedNotesRange (start last : ℕ) : CacheM (List (ℕ × List NoteForDetection)) := do
  if start > last then Prog.fail (.invalidBlockRange start last)
  else if 10000 < last - start + 1 then Prog.fail (.invalidBlockRange start last)
  else do
    let rows ← compactBlocks.range fun h => decide (start ≤ h ∧ h ≤ last)
    let byHeight ← liftExcept (rows.mapM fun r => do
      let block ← decodeRow ("Failed to deserialize compact block at " ++ toString r.1) r.2
      pure (r.1, blockNotes block))
    pure ((List.range' start (last - start + 1)).map fun h => (h, (byHeight.lookup h).getD []))

/-! ## Window caches -/

/-- What is kept of recent windows, each with the hash of its last block, and the order in
which the windows came. SOURCE: server.rs:621-631 -/
structure WindowCache (V : Type) where
  map : List ((ℕ × ℕ) × Bytes32 × V)
  order : List (ℕ × ℕ)

namespace WindowCache

variable {V : Type}

/-- SOURCE: server.rs:637-642 -/
def new : WindowCache V := ⟨[], []⟩

/-- SOURCE: server.rs:644-655 -/
def get (c : WindowCache V) (start last : ℕ) (endHash : Bytes32) : Option V :=
  match c.map.lookup (start, last) with
  | none => none
  | some (hash, v) => if hash ≠ endHash then none else some v

/-- SOURCE: server.rs:657-678 -/
def insert (cap : ℕ) (c : WindowCache V) (start last : ℕ) (endHash : Bytes32) (v : V) :
    WindowCache V :=
  if (c.map.lookup (start, last)).isSome then
    { c with map := ((start, last), endHash, v) :: c.map.filter fun e => e.1 ≠ (start, last) }
  else
    let dropped := c.order.take (c.order.length + 1 - cap)
    { map := ((start, last), endHash, v) :: c.map.filter fun e => decide (e.1 ∉ dropped)
      order := c.order.drop (c.order.length + 1 - cap) ++ [(start, last)] }

end WindowCache

/-- SOURCE: server.rs:635 -/
def clueWindowCap : ℕ := 8

/-- The windows whose notes are kept. -/
abbrev ClueWindows := WindowCache (List (ℕ × List NoteForDetection))

/-- SOURCE: server.rs:1349-1374 -/
def cachedEncryptedNotes (windows : ClueWindows) (start last : ℕ) :
    Handler (List (ℕ × List NoteForDetection) × ClueWindows) := do
  let endHash ← (getBlockHash last).mapError cacheStatus
  let endHash := endHash.getD (Bytes32.fill 0)
  match windows.get start last endHash with
  | some hit => pure (hit, windows)
  | none => do
    let notes ← (getEncryptedNotesRange start last).mapError cacheStatus
    pure (notes, windows.insert clueWindowCap start last endHash notes)

/-! ## Slots -/

/-- SOURCE: unifomr.rs:125-127 -/
structure ClueNote where
  omrClue : Bytes
  deriving DecidableEq

/-- SOURCE: unifomr.rs:1119-1127 -/
def blockNotesFromDetection (notes : List (ℕ × List NoteForDetection)) :
    List (ℕ × List ClueNote) :=
  notes.map fun (h, notes) => (h, notes.map fun n => ⟨n.omrClue⟩)

/-- One round of `flattenMessages`: a note at height `h`.
SOURCE: unifomr.rs:1038-1058 -/
def pushNote (blake3 : Bytes → Bytes32) (h : ℕ) (acc : List RlweCiphertext × List ℕ)
    (note : ClueNote) : List RlweCiphertext × List ℕ :=
  if note.omrClue.isEmpty then acc
  else match validateUnifomrClue blake3 note.omrClue with
    | .error _ => acc
    | .ok () => match deserializeClue blake3 note.omrClue with
      | .error _ => acc
      | .ok ct => (acc.1 ++ [ct], acc.2 ++ [h])

/-- SOURCE: unifomr.rs:1034-1061 -/
def flattenMessages (blake3 : Bytes → Bytes32) (notes : List (ℕ × List ClueNote)) :
    List RlweCiphertext × List ℕ :=
  notes.foldl (fun acc (h, notes) => notes.foldl (pushNote blake3 h) acc) ([], [])

/-- SOURCE: unifomr.rs:67 -/
def maxOmrMessages : ℕ := 262144

/-- Back off from `cut` while the slot before it has height `boundary`.
SOURCE: unifomr.rs:1080-1083 -/
def backOff (boundary : ℕ) (slotHeights : List ℕ) : ℕ → ℕ
  | 0 => 0
  | cut + 1 =>
    if slotHeights.getD cut 0 = boundary then backOff boundary slotHeights cut else cut + 1

/-- SOURCE: unifomr.rs:1070-1093 -/
def capMessagesToWholeHeights (messages : List RlweCiphertext) (slotHeights : List ℕ) :
    List RlweCiphertext × List ℕ × Bool :=
  if messages.length ≤ maxOmrMessages then (messages, slotHeights, false)
  else
    let boundary := slotHeights.getD (maxOmrMessages - 1) 0
    let cut := backOff boundary slotHeights maxOmrMessages
    -- the first height alone exceeds the cap: keep that whole height
    let cut := if cut = 0 then (slotHeights.takeWhile (· == boundary)).length else cut
    (messages.take cut, slotHeights.take cut, true)

/-- The slots of a digest: the clues, their heights and whether they are those of the whole
window. -/
structure DigestSlots where
  messages : List RlweCiphertext
  slotHeights : List ℕ
  complete : Bool
  deriving DecidableEq

/-- What `evaluate_detection_keys` derives before it packs.
SOURCE: server.rs:1387-1401, server.rs:1424-1428 -/
def digestSlots (blake3 : Bytes → Bytes32) (windows : ClueWindows) (start last : ℕ) :
    Handler (DigestSlots × ClueWindows) := do
  let _ ← liftStatus (rejectOversizedWindow start last)
  let (evalEnd, rangeComplete) ← digestEvaluableEnd start last
  let (notes, windows) ← match evalEnd with
    | some evalEnd => cachedEncryptedNotes windows start evalEnd
    | none => pure ([], windows)
  let (messages, slotHeights) := flattenMessages blake3 (blockNotesFromDetection notes)
  let (messages, slotHeights, truncated) := capMessagesToWholeHeights messages slotHeights
  pure (⟨messages, slotHeights, rangeComplete && !truncated⟩, windows)

end LightWalletd
