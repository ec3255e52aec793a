import LightWalletd.Computation.PowersOfTwo
import LightWalletd.Model.Digest

/-!
# Padded ranges

A client asks for whole buckets of blocks, so that a request does not give its cursor away.
One function widens a range to such a bucket, another says why a range is none. Their `u64`
operations are checked: `none` stands for an overflow.
-/

set_option autoImplicit false

namespace LightWalletd

/-- SOURCE: server.rs:143 -/
def minPaddedRangeSpan : ℕ := 1024

/-- SOURCE: server.rs:147 -/
def maxPaddedTipLag : ℕ := 64

/-! ## Machine integers -/

/-- `+` on `u64`. -/
def checkedAdd (a b : ℕ) : Option ℕ := if a + b ≤ u64Max then some (a + b) else none

/-- `-` on `u64`. -/
def checkedSub (a b : ℕ) : Option ℕ := if b ≤ a then some (a - b) else none

/-- `u64::next_power_of_two`. -/
def checkedNextPowerOfTwo (n : ℕ) : Option ℕ :=
  if PowersOfTwo.roundUp n ≤ u64Max then some (PowersOfTwo.roundUp n) else none

/-- `u64::saturating_add`. -/
def saturatingAdd64 (a b : ℕ) : ℕ := min (a + b) u64Max

/-! ## Padding -/

/-- Eight times the least bucket, the largest one in `maxBlocksPerRequest`.
SOURCE: server.rs:231 -/
def maxBucket : ℕ := 8192

/-- `while span > room && span > 1 { span >>= 1 }`, which takes fewer than `span` rounds.
SOURCE: server.rs:236-238 -/
def shrinkSpan (room span : ℕ) : ℕ := PowersOfTwo.halveTo room span span

/-- SOURCE: server.rs:227-229 -/
def powerOfTwoSpan (span : ℕ) : Option ℕ :=
  if span.isPowerOfTwo then some span else checkedNextPowerOfTwo span

/-- SOURCE: server.rs:222-248 -/
def padBlockRange (start last tip : ℕ) : Option (ℕ × ℕ) := do
  let last := min last tip
  let start := min start last
  let raw := saturatingAdd64 (last - start) 1
  let span := max raw minPaddedRangeSpan
  let span ← powerOfTwoSpan span
  let span := if maxBucket < span then maxBucket else span
  let room := saturatingAdd64 tip 1
  let span := shrinkSpan room span
  if span < minPaddedRangeSpan then some (0, last)
  else
    -- `as u32`
    let spanU := span % (u32Max + 1)
    if span ≤ saturatingAdd64 last 1 then some (saturatingAdd last 1 - spanU, last)
    else some (0, spanU - 1)

/-! ## The rule -/

/-- Why a range is no padded bucket, or `none` when it is one.
SOURCE: server.rs:260-301 -/
def paddedRangeRejection (start last tip maxRange : ℕ) : Option (Option String) :=
  if last < start then
    some (some ("Invalid height range: start=" ++ toString start ++ " > end=" ++ toString last))
  else if tip < last then
    some (some ("range end " ++ toString last ++ " is past tip " ++ toString tip))
  else do
    let span ← checkedAdd (← checkedSub last start) 1
    if maxRange < span then
      some (some ("Range too large: " ++ toString span ++ " blocks requested, max is " ++
        toString maxRange))
    else if minPaddedRangeSpan ≤ span ∧ span.isPowerOfTwo then some none
    else do
      let full ← checkedNextPowerOfTwo (max span minPaddedRangeSpan)
      let align := max (full / 2) minPaddedRangeSpan
      if start % align ≠ 0 then
        some (some ("range span " ++ toString span ++ " must be a power of two of at least " ++
          toString minPaddedRangeSpan ++ ", or a bucket aligned to " ++ toString align ++
          " that ends at the tip"))
      else do
        let reach ← checkedAdd last maxPaddedTipLag
        if reach < tip then
          some (some ("range " ++ toString start ++ "..=" ++ toString last ++
            " is a partial bucket that does not end at the tip " ++ toString tip))
        else some none

end LightWalletd
