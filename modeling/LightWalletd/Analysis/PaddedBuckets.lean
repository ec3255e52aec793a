import Mathlib.Order.MinMax
import LightWalletd.Model.PaddedRange

/-!
# Buckets

The server derives one alignment from the span of a range; the ranges it takes are those of one
or two aligned buckets of any size. What the padding makes of a range is taken unless the range
ends at the last height, a short chain goes on past it, or the chain is too short for a bucket
of its length.
-/

set_option autoImplicit false

namespace LightWalletd

open PowersOfTwo

/-- The smallest bucket is a power of two. -/
theorem isPowerOfTwo_minPaddedRangeSpan : minPaddedRangeSpan.isPowerOfTwo := ⟨10, rfl⟩

/-- The largest bucket is a power of two. -/
theorem isPowerOfTwo_maxBucket : maxBucket.isPowerOfTwo := ⟨13, rfl⟩

/-! ## The alignment -/

section Align

/-- The alignment that the rule asks of a span. SOURCE: server.rs:287-288 -/
def bucketAlign (span : ℕ) : ℕ :=
  max (roundUp (max span minPaddedRangeSpan) / 2) minPaddedRangeSpan

/-- A bucket is a power of two. -/
theorem isPowerOfTwo_bucketAlign (span : ℕ) : (bucketAlign span).isPowerOfTwo := by
  have hfull : 1 < roundUp (max span minPaddedRangeSpan) := by
    apply lt_of_lt_of_le _ (le_roundUp _)
    exact lt_max_of_lt_right (by decide)
  obtain ⟨hhalf, -⟩ := isPowerOfTwo_div_two (isPowerOfTwo_roundUp _) hfull
  rcases max_choice (roundUp (max span minPaddedRangeSpan) / 2) minPaddedRangeSpan with h | h
  · rwa [bucketAlign, h]
  · rw [bucketAlign, h]
    exact isPowerOfTwo_minPaddedRangeSpan

/-- A bucket is not smaller than the smallest. -/
theorem minPaddedRangeSpan_le_bucketAlign (span : ℕ) : minPaddedRangeSpan ≤ bucketAlign span :=
  le_max_right _ _

/-- Two buckets of the alignment hold the span. -/
theorem le_two_mul_bucketAlign (span : ℕ) : span ≤ 2 * bucketAlign span := by
  have hspan : span ≤ roundUp (max span minPaddedRangeSpan) :=
    (le_max_left _ _).trans (le_roundUp _)
  have hfull : 1 < roundUp (max span minPaddedRangeSpan) := by
    apply lt_of_lt_of_le _ (le_roundUp _)
    exact lt_max_of_lt_right (by decide)
  obtain ⟨-, hdouble⟩ := isPowerOfTwo_div_two (isPowerOfTwo_roundUp _) hfull
  have hle : roundUp (max span minPaddedRangeSpan) / 2 ≤ bucketAlign span := le_max_left _ _
  omega

/-- The alignment divides every bucket two of which hold the span. -/
theorem bucketAlign_dvd {span bucket : ℕ} (hpow : bucket.isPowerOfTwo)
    (hmin : minPaddedRangeSpan ≤ bucket) (hspan : span ≤ 2 * bucket) :
    bucketAlign span ∣ bucket := by
  apply dvd_of_le (isPowerOfTwo_bucketAlign span) hpow
  have hdouble : (2 * bucket).isPowerOfTwo := by
    rw [Nat.mul_comm]
    exact Nat.isPowerOfTwo_mul_two_of_isPowerOfTwo hpow
  have hfull : roundUp (max span minPaddedRangeSpan) ≤ 2 * bucket := by
    rw [roundUp_le_iff hdouble]
    exact max_le hspan (by omega)
  exact max_le (by omega) hmin

end Align

/-! ## The rule -/

section Rule

variable {start last tip maxRange : ℕ}

/-- `u32` inputs overflow nowhere, and a range is taken as its span and its start say. -/
theorem paddedRangeRejection_spec (start tip maxRange : ℕ) (hlast : last ≤ u32Max) :
    ∃ reason, paddedRangeRejection start last tip maxRange = some reason ∧
      (reason = none ↔ start ≤ last ∧ last ≤ tip ∧ last - start + 1 ≤ maxRange ∧
        (minPaddedRangeSpan ≤ last - start + 1 ∧ (last - start + 1).isPowerOfTwo ∨
          bucketAlign (last - start + 1) ∣ start ∧ tip ≤ last + maxPaddedTipLag)) := by
  have hmax : u32Max = 2 ^ 32 - 1 := rfl
  have hmax64 : u64Max = 2 ^ 64 - 1 := rfl
  have hlag : maxPaddedTipLag = 64 := rfl
  unfold paddedRangeRejection
  by_cases horder : last < start
  · rw [if_pos horder]
    exact ⟨_, rfl, by simp; omega⟩
  rw [if_neg horder]
  by_cases htip : tip < last
  · rw [if_pos htip]
    exact ⟨_, rfl, by simp; omega⟩
  have hsub : checkedSub last start = some (last - start) := if_pos (by omega)
  have hspan : checkedAdd (last - start) 1 = some (last - start + 1) := if_pos (by omega)
  rw [if_neg htip, hsub]
  simp only [Option.bind_eq_bind, Option.bind_some]
  rw [hspan, Option.bind_some]
  by_cases hrange : maxRange < last - start + 1
  · rw [if_pos hrange]
    exact ⟨_, rfl, by simp; omega⟩
  rw [if_neg hrange]
  by_cases hpow : minPaddedRangeSpan ≤ last - start + 1 ∧ (last - start + 1).isPowerOfTwo
  · rw [if_pos hpow]
    exact ⟨none, rfl, by simp [hpow]; omega⟩
  rw [if_neg hpow]
  have hfull : roundUp (max (last - start + 1) minPaddedRangeSpan) ≤ 2 ^ 32 := by
    rw [roundUp_le_iff ⟨32, rfl⟩]
    exact max_le (by omega) (by decide)
  have hnext : checkedNextPowerOfTwo (max (last - start + 1) minPaddedRangeSpan) =
      some (roundUp (max (last - start + 1) minPaddedRangeSpan)) := if_pos (by omega)
  have hreach : checkedAdd last maxPaddedTipLag = some (last + maxPaddedTipLag) :=
    if_pos (by omega)
  rw [hnext, Option.bind_some]
  show ∃ reason, (if start % bucketAlign (last - start + 1) ≠ 0 then _ else _) = some reason ∧ _
  by_cases halign : start % bucketAlign (last - start + 1) = 0
  · rw [if_neg (not_not.mpr halign), hreach, Option.bind_some]
    have hdvd := Nat.dvd_of_mod_eq_zero halign
    by_cases hcut : last + maxPaddedTipLag < tip
    · rw [if_pos hcut]
      exact ⟨_, rfl, by simp [hpow]; omega⟩
    · rw [if_neg hcut]
      exact ⟨none, rfl, by simp [hdvd]; omega⟩
  · rw [if_pos halign]
    have hndvd : ¬ bucketAlign (last - start + 1) ∣ start :=
      fun h => halign (Nat.mod_eq_zero_of_dvd h)
    exact ⟨_, rfl, by simp [hpow, hndvd]⟩

/-- A range is taken if it is a whole bucket, or one or two aligned buckets that were cut short
near the tip. -/
theorem padded_range_rule (hlast : last ≤ u32Max) :
    paddedRangeRejection start last tip maxRange = some none ↔
      (start ≤ last ∧ last ≤ tip) ∧ last - start + 1 ≤ maxRange ∧
        ((last - start + 1).isPowerOfTwo ∧ 1024 ≤ last - start + 1 ∨
          ∃ (bucket : ℕ) (k : ℤ), bucket.isPowerOfTwo ∧ 1024 ≤ bucket ∧ (start : ℤ) = k * bucket ∧
            last < start + 2 * bucket ∧ tip ≤ last + maxPaddedTipLag) := by
  obtain ⟨reason, hreason, hiff⟩ := paddedRangeRejection_spec start tip maxRange hlast
  rw [hreason, Option.some_inj, hiff]
  constructor
  · rintro ⟨horder, hend, hle, ⟨hmin, hpow⟩ | ⟨⟨k, hk⟩, hcut⟩⟩
    · exact ⟨⟨horder, hend⟩, hle, Or.inl ⟨hpow, hmin⟩⟩
    · refine ⟨⟨horder, hend⟩, hle, Or.inr ⟨bucketAlign (last - start + 1), k,
        isPowerOfTwo_bucketAlign _, minPaddedRangeSpan_le_bucketAlign _, ?_, ?_, hcut⟩⟩
      · rw [Int.mul_comm]
        exact_mod_cast hk
      · have hspan := le_two_mul_bucketAlign (last - start + 1)
        omega
  · rintro ⟨⟨horder, hend⟩, hle, ⟨hpow, hmin⟩ | ⟨bucket, k, hpow, hmin, hk, hspan, hcut⟩⟩
    · exact ⟨horder, hend, hle, Or.inl ⟨hmin, hpow⟩⟩
    · refine ⟨horder, hend, hle, Or.inr ⟨?_, hcut⟩⟩
      have hbucket : bucket ∣ start := by
        rw [← Int.natCast_dvd_natCast, hk]
        exact Int.dvd_mul_left k bucket
      apply Nat.dvd_trans _ hbucket
      exact bucketAlign_dvd hpow hmin (by omega)

/-- A bucket that the tip cuts off, and that is admitted. -/
theorem padded_range_rule_cut_bucket :
    paddedRangeRejection 4096 5000 5064 10000 = some none ↔
      (4096 ≤ 5000 ∧ 5000 ≤ 5064) ∧ 5000 - 4096 + 1 ≤ 10000 ∧
        ((5000 - 4096 + 1).isPowerOfTwo ∧ 1024 ≤ 5000 - 4096 + 1 ∨
          ∃ (bucket : ℕ) (k : ℤ), bucket.isPowerOfTwo ∧ 1024 ≤ bucket ∧
            ((4096 : ℕ) : ℤ) = k * bucket ∧ 5000 < 4096 + 2 * bucket ∧
              5064 ≤ 5000 + maxPaddedTipLag) :=
  padded_range_rule (by decide)

end Rule

/-! ## The padding -/

section Padding

variable {start last tip : ℕ}

/-- The span of the bucket for the heights from `start` to `last`. -/
def paddedSpan (start last tip : ℕ) : ℕ :=
  shrinkSpan (tip + 1) (roundUp (max (last - start + 1) minPaddedRangeSpan))

/-- The span is the largest power of two that the chain has room for, up to the least one that
holds the range. -/
theorem paddedSpan_spec (start last tip : ℕ) :
    (paddedSpan start last tip).isPowerOfTwo ∧ paddedSpan start last tip ≤ tip + 1 ∧
      paddedSpan start last tip ≤ roundUp (max (last - start + 1) minPaddedRangeSpan) ∧
      ∀ p : ℕ, p.isPowerOfTwo → p ≤ roundUp (max (last - start + 1) minPaddedRangeSpan) →
        p ≤ tip + 1 → p ≤ paddedSpan start last tip := by
  obtain ⟨hpow, hle, hmax⟩ := halveTo_spec (Nat.succ_pos tip)
    (isPowerOfTwo_roundUp (max (last - start + 1) minPaddedRangeSpan)) le_rfl
  refine ⟨hpow, hle.trans (min_le_right _ _), hle.trans (min_le_left _ _), fun p hp hfull hroom => ?_⟩
  exact hmax p hp (le_min hfull hroom)

/-- A chain of at least one bucket has room for a bucket. -/
theorem minPaddedRangeSpan_le_paddedSpan (start last : ℕ) (htip : minPaddedRangeSpan ≤ tip + 1) :
    minPaddedRangeSpan ≤ paddedSpan start last tip := by
  apply (paddedSpan_spec start last tip).2.2.2 _ isPowerOfTwo_minPaddedRangeSpan _ htip
  exact (le_max_right _ _).trans (le_roundUp _)

/-- The bucket holds the range if the chain has room for the least one that does. -/
theorem le_paddedSpan_iff (start last tip : ℕ) :
    last - start + 1 ≤ paddedSpan start last tip ↔ roundUp (last - start + 1) ≤ tip + 1 := by
  obtain ⟨hpow, hroom, -, hmax⟩ := paddedSpan_spec start last tip
  constructor
  · intro h
    exact ((roundUp_le_iff hpow).mpr h).trans hroom
  · intro h
    apply (le_roundUp _).trans
    apply hmax _ (isPowerOfTwo_roundUp _) _ h
    rw [roundUp_le_iff (isPowerOfTwo_roundUp _)]
    exact (le_max_left _ _).trans (le_roundUp _)

/-- What the padding returns; nothing overflows. -/
theorem padBlockRange_eq (hlast : last ≤ tip) (htip : tip ≤ u32Max)
    (hspan : last - min start last + 1 ≤ maxBucket) :
    padBlockRange start last tip = some
      (let span := paddedSpan (min start last) last tip
      if span < minPaddedRangeSpan then (0, last)
      else if span ≤ last + 1 then (saturatingAdd last 1 - span, last)
      else (0, span - 1)) := by
  have hmax : u32Max = 2 ^ 32 - 1 := rfl
  have hmax64 : u64Max = 2 ^ 64 - 1 := rfl
  have hbucket : maxBucket = 2 ^ 13 := rfl
  set from' := min start last
  have hfull : roundUp (max (last - from' + 1) minPaddedRangeSpan) ≤ maxBucket := by
    rw [roundUp_le_iff isPowerOfTwo_maxBucket]
    exact max_le hspan (by decide)
  have hsat : ∀ h, h ≤ tip → saturatingAdd64 h 1 = h + 1 := fun h hh => min_eq_left (by omega)
  have hraw : saturatingAdd64 (last - from') 1 = last - from' + 1 := hsat _ (by omega)
  have hnext : powerOfTwoSpan (max (last - from' + 1) minPaddedRangeSpan) =
      some (roundUp (max (last - from' + 1) minPaddedRangeSpan)) := by
    unfold powerOfTwoSpan
    by_cases hpow : (max (last - from' + 1) minPaddedRangeSpan).isPowerOfTwo
    · rw [if_pos hpow, roundUp_eq_self hpow]
    · rw [if_neg hpow]
      exact if_pos (by omega)
  have hsmall : paddedSpan from' last tip % (u32Max + 1) = paddedSpan from' last tip := by
    apply Nat.mod_eq_of_lt
    have := (paddedSpan_spec from' last tip).2.2.1
    omega
  unfold padBlockRange
  rw [min_eq_left hlast]
  show (powerOfTwoSpan (max (saturatingAdd64 (last - from') 1) minPaddedRangeSpan)).bind _ = _
  rw [hraw, hnext, Option.bind_some]
  dsimp only
  rw [if_neg (Nat.not_lt.mpr hfull), hsat tip le_rfl, hsat last hlast]
  show (if paddedSpan from' last tip < minPaddedRangeSpan then _ else if _ then
    some (saturatingAdd last 1 - paddedSpan from' last tip % (u32Max + 1), _)
      else some (0, paddedSpan from' last tip % (u32Max + 1) - 1)) = _
  rw [hsmall, apply_ite some, apply_ite some]
  rfl

/-- The padding is right: the last height is not that of all `u32`, a chain of less than a bucket
ends near the range, and a longer one has room for the bucket that holds the range. -/
def PaddingFits (start last tip : ℕ) : Prop :=
  last < u32Max ∧
    if tip + 1 < minPaddedRangeSpan then tip ≤ last + maxPaddedTipLag
    else roundUp (last - start + 1) ≤ tip + 1

/-- A whole bucket below the tip is taken. -/
theorem paddedRangeRejection_bucket {bucket : ℕ} (hlast : last ≤ u32Max) (htip : last ≤ tip)
    (hpow : bucket.isPowerOfTwo) (hmin : minPaddedRangeSpan ≤ bucket) (hmax : bucket ≤ maxBucket)
    (hspan : last + 1 = start + bucket) :
    paddedRangeRejection start last tip maxBlocksPerRequest = some none := by
  obtain ⟨reason, hreason, hiff⟩ := paddedRangeRejection_spec start tip maxBlocksPerRequest hlast
  have hle : maxBucket ≤ maxBlocksPerRequest := by decide
  have hpos := Nat.pos_of_isPowerOfTwo hpow
  have heq : last - start + 1 = bucket := by omega
  rw [hreason, hiff.mpr ⟨by omega, htip, by omega, Or.inl (by rw [heq]; exact ⟨hmin, hpow⟩)⟩]

/-- One height more than a bucket is not taken at the last height of all. -/
theorem paddedRangeRejection_u32Max {bucket : ℕ} (hpow : bucket.isPowerOfTwo)
    (hmin : minPaddedRangeSpan ≤ bucket) (hmax : bucket ≤ maxBucket) :
    ∃ reason, paddedRangeRejection (u32Max - bucket) u32Max u32Max maxBlocksPerRequest =
      some (some reason) := by
  obtain ⟨reason, hreason, hiff⟩ := paddedRangeRejection_spec (u32Max - bucket) u32Max
    maxBlocksPerRequest (le_refl u32Max)
  have h1024 : minPaddedRangeSpan = 1024 := rfl
  have h8192 : maxBucket = 8192 := rfl
  have h32 : u32Max = 4294967295 := rfl
  have heq : u32Max - (u32Max - bucket) + 1 = bucket + 1 := by omega
  have hnone : reason ≠ none := by
    rw [Ne, hiff, heq]
    rintro ⟨-, -, -, ⟨-, hpow'⟩ | ⟨hdvd, -⟩⟩
    · have := two_mul_le_of_lt hpow hpow' (by omega)
      omega
    · -- an even alignment would divide the odd number `u32Max`
      have hbucket : bucketAlign (bucket + 1) ∣ bucket := bucketAlign_dvd hpow hmin (by omega)
      have htwo : 2 ∣ bucketAlign (bucket + 1) := by
        apply dvd_of_le ⟨1, rfl⟩ (isPowerOfTwo_bucketAlign _)
        exact le_trans (by decide) (minPaddedRangeSpan_le_bucketAlign _)
      have hodd := Nat.dvd_trans htwo ((Nat.dvd_add_right hbucket).mpr hdvd)
      rw [Nat.add_sub_cancel' (by omega)] at hodd
      omega
  obtain ⟨text, rfl⟩ := Option.ne_none_iff_exists'.mp hnone
  exact ⟨text, hreason⟩

/-- The padding of a range overflows nowhere, and it holds the range and is taken by the server
exactly when `PaddingFits`. -/
theorem padding_admitted_iff (htip : tip ≤ u32Max)
    (hspan : min last tip - min start (min last tip) + 1 ≤ 8192) :
    ∃ p q reason, padBlockRange start last tip = some (p, q) ∧
      paddedRangeRejection p q tip maxBlocksPerRequest = some reason ∧
      ((p ≤ min start (min last tip) ∧ min last tip ≤ q) ∧ reason = none ↔
        PaddingFits (min start (min last tip)) (min last tip) tip) := by
  have hmin : padBlockRange start last tip = padBlockRange start (min last tip) tip := by
    unfold padBlockRange
    rw [min_assoc, min_self]
  have hlast : min last tip ≤ tip := min_le_right _ _
  rw [hmin, padBlockRange_eq hlast htip hspan]
  generalize min last tip = last at *
  have hstart : min start last ≤ last := min_le_right _ _
  generalize min start last = start at *
  obtain ⟨hpow, hroom, hfull, -⟩ := paddedSpan_spec start last tip
  have hfits := le_paddedSpan_iff start last tip
  have h1024 : minPaddedRangeSpan = 1024 := rfl
  have h10000 : maxBlocksPerRequest = 10000 := rfl
  have h32 : u32Max = 4294967295 := rfl
  have hbucket : paddedSpan start last tip ≤ maxBucket := by
    apply hfull.trans
    rw [roundUp_le_iff isPowerOfTwo_maxBucket]
    exact max_le hspan (by decide)
  unfold PaddingFits
  by_cases hshort : tip + 1 < minPaddedRangeSpan
  · -- the whole chain up to `last`
    obtain ⟨reason, hreason, hiff⟩ := paddedRangeRejection_spec 0 tip maxBlocksPerRequest
      (show last ≤ u32Max by omega)
    have hnone : paddedSpan start last tip < minPaddedRangeSpan := by omega
    refine ⟨0, last, reason, by simp only [if_pos hnone], hreason, ?_⟩
    rw [if_pos hshort, hiff]
    constructor
    · rintro ⟨-, -, -, -, ⟨hle, -⟩ | ⟨-, hcut⟩⟩
      · omega
      · exact ⟨by omega, hcut⟩
    · rintro ⟨-, hcut⟩
      exact ⟨⟨Nat.zero_le _, le_rfl⟩, Nat.zero_le _, hlast, by omega,
        Or.inr ⟨Nat.dvd_zero _, hcut⟩⟩
  have hlong := minPaddedRangeSpan_le_paddedSpan start last
    (show minPaddedRangeSpan ≤ tip + 1 by omega)
  rw [if_neg hshort]
  simp only [if_neg (Nat.not_lt.mpr hlong)]
  by_cases hback : paddedSpan start last tip ≤ last + 1
  · simp only [if_pos hback]
    by_cases hend : last = u32Max
    · -- `end + 1` saturates: one height too many
      subst hend
      have hsat : saturatingAdd u32Max 1 = u32Max := rfl
      obtain ⟨text, htext⟩ := paddedRangeRejection_u32Max hpow hlong hbucket
      have htop : tip = u32Max := by omega
      rw [htop] at htext ⊢
      rw [hsat]
      exact ⟨_, _, _, rfl, htext, by simp⟩
    · have hsat : saturatingAdd last 1 = last + 1 := min_eq_left (by omega)
      rw [hsat]
      refine ⟨_, _, none, rfl, paddedRangeRejection_bucket (by omega) hlast hpow hlong hbucket
        (by omega), ?_⟩
      rw [← hfits]
      constructor
      · rintro ⟨⟨hp, -⟩, -⟩
        omega
      · rintro ⟨-, hle⟩
        exact ⟨⟨by omega, le_rfl⟩, rfl⟩
  · simp only [if_neg hback]
    refine ⟨_, _, none, rfl, paddedRangeRejection_bucket (by omega) (by omega) hpow hlong hbucket
      (by omega), ?_⟩
    rw [← hfits]
    constructor
    · intro _
      exact ⟨by omega, by omega⟩
    · intro _
      exact ⟨⟨Nat.zero_le _, by omega⟩, rfl⟩

/-- A request that ends at the tip. -/
theorem padding_admitted_iff_near_tip :
    ∃ p q reason, padBlockRange 4990 5000 5000 = some (p, q) ∧
      paddedRangeRejection p q 5000 maxBlocksPerRequest = some reason ∧
      ((p ≤ min 4990 (min 5000 5000) ∧ min 5000 5000 ≤ q) ∧ reason = none ↔
        PaddingFits (min 4990 (min 5000 5000)) (min 5000 5000) 5000) :=
  padding_admitted_iff (by decide) (by decide)

/-- On a chain of 1001 blocks the first eleven are padded to themselves, which the server does
not take; on one of 1501 blocks the padding of all of them leaves the first 477 out. -/
theorem short_chain_padding_fails :
    padBlockRange 0 10 1000 = some (0, 10) ∧
      (paddedRangeRejection 0 10 1000 maxBlocksPerRequest).map Option.isSome = some true ∧
      padBlockRange 0 1500 1500 = some (477, 1500) := by
  decide +kernel

end Padding

end LightWalletd
