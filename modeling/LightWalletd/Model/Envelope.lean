import LightWalletd.Model.SendTransaction

/-!
# The envelope, index by index

`parseEnvelope` takes and drops bytes, which always succeeds. Here every index and every slice is
the one of the source, and out of range it is a panic: no result at all.
-/

set_option autoImplicit false

namespace LightWalletd

namespace Indexed

/-- `data[i]`. -/
def byteAt (data : Bytes) (i : ℕ) : Option UInt8 := data[i]?

/-- `data[lo..hi]`. -/
def slice (data : Bytes) (lo hi : ℕ) : Option Bytes :=
  if lo ≤ hi ∧ hi ≤ data.length then some ((data.drop lo).take (hi - lo)) else none

/-- Whether the data begins with the tag, given its length.
SOURCE: omr_envelope.rs:19, omr_envelope.rs:55 -/
def tagged (data : Bytes) : Option Bool := do
  let first ← byteAt data 0
  if first ≠ 79 then return false
  let second ← byteAt data 1
  return second = 50

/-- SOURCE: omr_envelope.rs:25-51 -/
def parseO2 (data : Bytes) : Option (Option OmrEnvelope) := do
  let low ← byteAt data 2
  let high ← byteAt data 3
  let memoLen := leValue [low, high]
  if maxOmrMemoBytes < memoLen then return none
  let memoEnd := 4 + memoLen
  if data.length < memoEnd + 4 then return none
  let clueLenBytes ← slice data memoEnd (memoEnd + 4)
  let clueLen := leValue clueLenBytes
  if maxFheClueBytes < clueLen then return none
  let clueStart := memoEnd + 4
  -- `checked_add`
  if u64Max < clueStart + clueLen then return none
  let clueEnd := clueStart + clueLen
  if data.length < clueEnd then return none
  let omrMemo ← slice data 4 memoEnd
  let fheClue ← slice data clueStart clueEnd
  let rawTx ← slice data clueEnd data.length
  return some ⟨omrMemo, fheClue, rawTx⟩

/-- SOURCE: omr_envelope.rs:15-23 -/
def parseEnvelope (data : Bytes) : Option (Option OmrEnvelope) := do
  if data.length < 5 then return none
  if ← tagged data then parseO2 data
  else return none

/-- SOURCE: omr_envelope.rs:53-59 -/
def stripEnvelope (data : Bytes) : Option (Option Bytes) := do
  if data.length < 2 then return some data
  if ← tagged data then
    let envelope ← parseEnvelope data
    return envelope.map OmrEnvelope.rawTx
  else return some data

end Indexed

end LightWalletd
