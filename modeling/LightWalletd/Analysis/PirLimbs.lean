import LightWalletd.Analysis.DigestWire
import LightWalletd.Model.Pir

/-!
# Payloads as limbs

The limbs that the server cuts out of a payload one at a time are those of the whole payload,
and enough of them give the payload back, or nothing if it is too long to be fetched.
-/

set_option autoImplicit false

namespace LightWalletd

/-! ## Filling up with zeros -/

section Resize

variable {α : Type} [Zero α]

/-- A resized list has the size. -/
@[simp] theorem length_resizeZero (n : ℕ) (xs : List α) : (resizeZero n xs).length = n := by
  rw [resizeZero, List.length_append, List.length_take, List.length_replicate]
  omega

/-- The values of a resized list. -/
theorem getD_resizeZero {n i : ℕ} (xs : List α) (hi : i < n) :
    (resizeZero n xs).getD i 0 = xs.getD i 0 := by
  unfold resizeZero
  by_cases h : i < xs.length
  · rw [List.getD_append _ _ _ _ (by rw [List.length_take]; omega),
      List.getD_eq_getElem _ _ (by rw [List.length_take]; omega), List.getElem_take,
      List.getD_eq_getElem _ _ h]
  · rw [List.getD_append_right _ _ _ _ (by rw [List.length_take]; omega),
      List.getD_replicate _ (by rw [List.length_take]; omega),
      List.getD_eq_default _ _ (by omega)]

end Resize

/-! ## Limbs -/

/-- A limb in bytes is the chunk, filled up. -/
theorem leBytes_chunkToLimb (chunk : Bytes) :
    leBytes pirLimbBytes (chunkToLimb chunk) = resizeZero pirLimbBytes chunk := by
  have h := leBytes_leValue (resizeZero pirLimbBytes chunk)
  rwa [length_resizeZero] at h

/-- A limb fits its bytes. -/
theorem chunkToLimb_lt (chunk : Bytes) : chunkToLimb chunk < 256 ^ pirLimbBytes := by
  have h := leValue_lt (resizeZero pirLimbBytes chunk)
  rwa [length_resizeZero] at h

/-- The limb of no bytes is 0. -/
theorem chunkToLimb_nil : chunkToLimb [] = 0 := rfl

/-- The data limbs of a payload give it back. -/
theorem limbsToBytes_chunks (data : Bytes) :
    limbsToBytes ((chunksOf pirLimbBytes data).map chunkToLimb) data.length = data := by
  have hchunks : (chunksOf pirLimbBytes data).flatMap (fun c => leBytes pirLimbBytes
      (chunkToLimb c)) = (chunksOf pirLimbBytes data).flatMap
        fun c => c.map id ++ List.replicate (pirLimbBytes - c.length) 0 := by
    apply List.flatMap_congr
    intro c hc
    rw [leBytes_chunkToLimb, resizeZero, List.take_of_length_le (length_le_of_mem_chunksOf hc),
      List.map_id]
  rw [limbsToBytes, List.flatMap_map, hchunks, flatMap_chunksOf (by decide), List.map_id,
    List.take_left]

/-- The two encoders agree on a payload that can be fetched. -/
theorem payloadLimb_eq {data : Bytes} (h : data.length ≤ maxPirPayloadBytes) (j : ℕ) :
    payloadLimb data j = (bytesToLimbs data).getD j 0 := by
  unfold payloadLimb bytesToLimbs
  cases j with
  | zero =>
    rw [if_pos rfl, List.getD_cons_zero]
    omega
  | succ j =>
    rw [if_neg (Nat.succ_ne_zero j), List.getD_cons_succ, Nat.add_sub_cancel]
    dsimp only
    rw [Nat.min_comm, ← List.take_eq_take_min]
    by_cases hj : j < divCeil data.length pirLimbBytes
    · have hlen : j < ((chunksOf pirLimbBytes data).map chunkToLimb).length := by
        rwa [List.length_map, length_chunksOf]
      have hchunk : ((chunksOf pirLimbBytes data).map chunkToLimb).getD j 0 =
          chunkToLimb ((data.drop (j * pirLimbBytes)).take pirLimbBytes) := by
        rw [List.getD_eq_getElem _ _ hlen]
        simp only [chunksOf, List.getElem_map, List.getElem_range]
      rw [hchunk]
      split_ifs with hempty
      · rw [List.isEmpty_iff.mp hempty, List.take_nil, chunkToLimb_nil]
      · rfl
    · have hdrop : data.drop (j * pirLimbBytes) = [] := by
        apply List.drop_eq_nil_of_le
        apply (le_divCeil_mul (n := pirLimbBytes) (by decide) data.length).trans
        exact Nat.mul_le_mul_right _ (by omega)
      rw [hdrop, List.getD_eq_default _ _ (by rw [List.length_map, length_chunksOf]; omega)]
      rfl

/-- Every limb is below the plaintext modulus. -/
theorem payloadLimb_lt (data : Bytes) (j : ℕ) : payloadLimb data j < clueQ := by
  have hsmall : 256 ^ pirLimbBytes < clueQ := by decide
  have hmax : maxPirPayloadBytes + 1 < clueQ := by decide
  unfold payloadLimb
  dsimp only
  split_ifs
  · omega
  · omega
  · exact (chunkToLimb_lt _).trans hsmall

/-- Every limb of a column is below the modulus. -/
theorem limbColumn_lt (payloads : List Bytes) (j : ℕ) :
    ∀ limb ∈ limbColumn payloads j, limb < clueQ := by
  intro limb hlimb
  obtain ⟨data, -, rfl⟩ := List.mem_map.mp hlimb
  exact payloadLimb_lt data j

/-- A row of a column is the limb of its payload. -/
theorem getD_limbColumn {payloads : List Bytes} {i : ℕ} (hi : i < payloads.length) (j : ℕ) :
    (limbColumn payloads j).getD i 0 = payloadLimb (payloads.getD i []) j := by
  rw [List.getD_eq_getElem _ _ hi, limbColumn,
    List.getD_eq_getElem _ _ (by rwa [List.length_map]), List.getElem_map]

/-! ## Reassembly -/

/-- A payload with a limb count is neither empty nor too long. -/
theorem pirPayloadLimbCount_eq_some {len need : ℕ} (h : pirPayloadLimbCount len = some need) :
    len ≠ 0 ∧ len ≤ maxPirPayloadBytes ∧ need = 1 + divCeil len pirLimbBytes := by
  unfold pirPayloadLimbCount at h
  split_ifs at h with hlen
  have hneed := Option.some.inj h
  omega

/-- The bucket of a limb count is large enough. -/
theorem le_paddedLimbCount {len need : ℕ} (h : pirPayloadLimbCount len = some need) :
    need ≤ paddedLimbCount need := by
  obtain ⟨-, hle, rfl⟩ := pirPayloadLimbCount_eq_some h
  have hmax : divCeil len pirLimbBytes ≤ divCeil maxPirPayloadBytes pirLimbBytes :=
    divCeil_le_divCeil hle
  have hcap : 1 + divCeil maxPirPayloadBytes pirLimbBytes = maxPirLimbs := by decide
  have hpow := Nat.le_pow_clog (b := 2) (by decide)
    (min (max (1 + divCeil len pirLimbBytes) 8) maxPirLimbs)
  unfold paddedLimbCount nextPowerOfTwo
  dsimp only
  omega

/-- The first `k` limbs of a payload, with its length in front. -/
theorem map_payloadLimb {data : Bytes} (h : data.length ≤ maxPirPayloadBytes) {k : ℕ}
    (hk : 1 + divCeil data.length pirLimbBytes ≤ k) :
    ((List.range k).map (payloadLimb data)).take (1 + divCeil data.length pirLimbBytes) =
      bytesToLimbs data := by
  have hlen : (bytesToLimbs data).length = 1 + divCeil data.length pirLimbBytes := by
    rw [bytesToLimbs, List.length_cons, List.length_map, length_chunksOf, Nat.add_comm]
  apply List.ext_getElem
  · rw [List.length_take, List.length_map, List.length_range, hlen]
    omega
  · intro i _ hi
    rw [List.getElem_take, List.getElem_map, List.getElem_range, payloadLimb_eq h,
      List.getD_eq_getElem _ _ hi]

/-- Enough limbs give a payload back if it is short enough, and nothing otherwise. -/
theorem decodeLengthPrefixedLimbs_ok {data : Bytes} {k : ℕ}
    (hk : ∀ need, pirPayloadLimbCount data.length = some need → need ≤ k) :
    decodeLengthPrefixedLimbs ((List.range k).map (payloadLimb data)) =
      if data.length ≤ maxPirPayloadBytes then data else [] := by
  have hfirst : ∀ m, ((List.range (m + 1)).map (payloadLimb data)).head? =
      some (min data.length (maxPirPayloadBytes + 1)) := by
    intro m
    rw [List.range_succ_eq_map]
    rfl
  unfold decodeLengthPrefixedLimbs
  by_cases hlong : maxPirPayloadBytes < data.length
  · have hnone : (((List.range k).map (payloadLimb data)).head?.bind pirPayloadLimbCount) =
        none := by
      cases k with
      | zero => rfl
      | succ m =>
        rw [hfirst, min_eq_right (by omega)]
        rfl
    rw [hnone, if_neg (by omega)]
  · rw [if_pos (by omega)]
    by_cases hempty : data.length = 0
    · have hnone : (((List.range k).map (payloadLimb data)).head?.bind pirPayloadLimbCount) =
          none := by
        cases k with
        | zero => rfl
        | succ m =>
          rw [hfirst, hempty]
          rfl
      rw [hnone, List.eq_nil_of_length_eq_zero hempty]
    · have hcount : pirPayloadLimbCount data.length =
          some (1 + divCeil data.length pirLimbBytes) := if_neg (by omega)
      have hle := hk _ hcount
      obtain ⟨m, rfl⟩ : ∃ m, k = m + 1 := ⟨k - 1, by omega⟩
      have hneed : (((List.range (m + 1)).map (payloadLimb data)).head?.bind
          pirPayloadLimbCount) = some (1 + divCeil data.length pirLimbBytes) := by
        rw [hfirst, min_eq_left (by omega)]
        exact hcount
      have hlen : ((List.range (m + 1)).map (payloadLimb data)).getD 0 0 = data.length := by
        rw [List.getD_eq_getElem _ _ (by simp), List.getElem_map, List.getElem_range,
          payloadLimb_eq (by omega)]
        rfl
      rw [hneed]
      dsimp only
      rw [if_neg (by rw [List.length_map, List.length_range]; omega), hlen,
        map_payloadLimb (by omega) hle]
      exact limbsToBytes_chunks data

end LightWalletd
