import LightWalletd.Analysis.RingProducts

/-!
# Two decryptions of a clue

The holder of a secret gets the error of a clue directly, as a difference of two centred
coefficients, or from a digest, where the server has computed it under encryption. The difference
is not centred again, so that the two agree only as long as it stays below half the modulus.
-/

set_option autoImplicit false

namespace LightWalletd

open Polynomial SlotScheme Stateful

/-! ## Centred coefficients -/

/-- The representative of least absolute value is the one that `centerLift` computes. -/
theorem centerLift_eq_valMinAbs {u : ℕ} (hu : u < clueQ) :
    centerLift u = (u : ZMod clueQ).valMinAbs := by
  symm
  rw [ZMod.valMinAbs_spec]
  refine ⟨(centerLift_cast u).symm, ?_⟩
  have hq : clueQ = 1032193 := rfl
  unfold centerLift
  rw [Set.mem_Ioc]
  split_ifs <;> omega

/-- The difference of two centred coefficients is centred: they are in the same half, or more than
half the modulus apart. -/
def DifferenceCentred (b m : ℕ) : Prop :=
  (b ≤ clueQ / 2 ↔ m ≤ clueQ / 2) ∨ b + clueQ / 2 < m ∨ m + clueQ / 2 < b

/-- The difference of centred values is centred exactly where it does not leave the range. -/
theorem centerLift_sub_eq_iff {b m : ℕ} (hb : b < clueQ) (hm : m < clueQ) :
    centerLift b - centerLift m = ((b : ZMod clueQ) - m).valMinAbs ↔ DifferenceCentred b m := by
  have hq : clueQ = 1032193 := rfl
  have hcast : (((centerLift b - centerLift m : ℤ)) : ZMod clueQ) = (b : ZMod clueQ) - m := by
    rw [Int.cast_sub, centerLift_cast, centerLift_cast]
  rw [eq_comm, ZMod.valMinAbs_spec, and_iff_right hcast.symm, Set.mem_Ioc]
  unfold centerLift DifferenceCentred
  split_ifs <;> omega

/-! ## Direct decryption -/

section Direct

variable (s : RlweSecretKey) (ct : RlweCiphertext)

/-- The mask of a clue, `a * s` in the ring of clues. -/
noncomputable def clueMask : (ZMod clueQ)[X] :=
  (wordsPoly clueN ct.a * signedPoly clueN s.coeffs) %ₘ (X ^ clueN + 1)

variable {s ct}

/-- A coefficient of the error. -/
theorem coeff_clueError {k : ℕ} (hk : k < clueN) :
    (clueError s ct).coeff k = ((ct.b.getD k 0 : ℕ) : ZMod clueQ) - (clueMask s ct).coeff k := by
  have hsplit : clueError s ct = wordsPoly clueN ct.b %ₘ (X ^ clueN + 1) - clueMask s ct :=
    sub_modByMonic _ _ _
  rw [hsplit, coeff_sub]
  congr 1
  exact Negacyclic.coeff_ofCoeffs_modByMonic _ hk

/-- A coefficient of the mask, as the code computes it. -/
theorem getD_polyMulMod_mask (ha : ct.a.length = clueN) {k : ℕ} (hk : k < clueN) :
    (polyMulMod ct.a s.coeffs).getD k 0 = ((clueMask s ct).coeff k).val := by
  have hlen : k < (polyMulMod ct.a s.coeffs).length := by
    rw [length_polyMulMod, ha]
    exact hk
  have hlt : (polyMulMod ct.a s.coeffs).getD k 0 < clueQ := by
    rw [List.getD_eq_getElem _ _ hlen]
    exact polyMulMod_lt _ (List.getElem_mem hlen)
  have hproduct := congrArg (fun p => p.coeff k) (wordsPoly_polyMulMod ct.a s.coeffs)
  rw [ha] at hproduct
  unfold clueMask
  rw [← hproduct, wordsPoly, Negacyclic.coeff_ofCoeffs, if_pos hk, ZMod.val_cast_of_lt hlt]

/-- A coefficient of the decrypted error, as the code computes it. -/
theorem getD_decryptError (ha : ct.a.length = clueN) {k : ℕ} (hk : k < clueN) :
    (s.decryptError ct).getD k 0 =
      centerLift (ct.b.getD k 0) - centerLift ((clueMask s ct).coeff k).val := by
  unfold RlweSecretKey.decryptError
  dsimp only
  rw [List.getD_eq_getElem _ _ (by simpa using hk), List.getElem_map, List.getElem_range,
    getD_polyMulMod_mask ha hk]

/-- Direct decryption gets the centred error exactly when the difference is centred. -/
theorem decryptError_eq_iff (hct : ct.InRange) {k : ℕ} (hk : k < clueN) :
    (s.decryptError ct).getD k 0 = ((clueError s ct).coeff k).valMinAbs ↔
      DifferenceCentred (ct.b.getD k 0) ((clueMask s ct).coeff k).val := by
  have hb : ct.b.getD k 0 < clueQ := by
    rw [List.getD_eq_getElem _ _ (by rw [hct.length_b]; exact hk)]
    exact hct.b_lt _ (List.getElem_mem _)
  rw [getD_decryptError hct.length_a hk, coeff_clueError hk,
    ← centerLift_sub_eq_iff hb (ZMod.val_lt _), ZMod.natCast_zmod_val]

end Direct

/-! ## The digest -/

section Digest

variable {S : BfvScheme} {client : UnifOmrClient S}

/-- The slot of a clue in the digest, as the client reads it: centred, it is the error. -/
theorem digestSlot_eq (ideal : S.Ideal client.detSk client.detPk)
    (hs : client.clueSk.coeffs.length = clueN)
    (hternary : ∀ coeff ∈ client.clueSk.coeffs, Ternary coeff) (draws : ℕ → S.Random)
    (network : UInt8) {ct : RlweCiphertext} {chunk : List RlweCiphertext}
    (hchunk : chunk.length ≤ packingDegree) {i : ℕ} (hi : chunk[i]? = some ct) {k : ℕ}
    (hk : k < clueN) :
    ∃ (key : Bytes) (cts : List S.Ciphertext) (bytes : Bytes) (slots : List ℕ),
      client.buildDetectionKey draws network = .ok key ∧
      parseDetectionKey key = .ok (network, cts) ∧
      bitFrame cts (slotClues chunk) k = .ok bytes ∧
      client.readDigestCt bytes = .ok (slots, []) ∧
      centerLift (slots.getD i 0) = ((clueError client.clueSk ct).coeff k).valMinAbs := by
  obtain ⟨key, cts, hkey, hparse, hcarries⟩ :=
    buildDetectionKey_ok ideal hs hternary draws network
  obtain ⟨bytes, hbytes, slots, ⟨hreads, -⟩, hslots⟩ :=
    bitFrame_ok ideal hs hcarries (length_slotClues hchunk) hk
  have hread := hreads []
  rw [List.append_nil] at hread
  refine ⟨key, cts, bytes, slots, hkey, hparse, hbytes, hread, ?_⟩
  obtain ⟨hilt, hget⟩ := List.getElem?_eq_some_iff.mp hi
  have hi' : i < packingDegree := by omega
  have hslot : (slotClues chunk).getD i .impertinent = .clue ct := by
    rw [slotClues, List.getD_append _ _ _ _ (by rwa [List.length_map]),
      List.getD_eq_getElem _ _ (by rwa [List.length_map]), List.getElem_map, hget]
  have hvalue : ((slots.getD i 0 : ℕ) : ZMod clueQ) =
      ((slotClues chunk).getD i .impertinent).error client.clueSk k :=
    congrFun hslots.slots ⟨i, hi'⟩
  rw [centerLift_eq_valMinAbs (hslots.isSlots.getD_lt hi'), hvalue, hslot]
  rfl

/-- A client that decrypts a valid clue directly gets the centred value of its digest slot exactly
when the difference of the coefficient and its mask is centred. -/
theorem decryptError_digestSlot_iff (ideal : S.Ideal client.detSk client.detPk)
    (hs : client.clueSk.coeffs.length = clueN)
    (hternary : ∀ coeff ∈ client.clueSk.coeffs, Ternary coeff) (draws : ℕ → S.Random)
    (network : UInt8) {blake3 : Bytes → Bytes32} {clue : Bytes} {ct : RlweCiphertext}
    (hvalid : validateUnifomrClue blake3 clue = .ok ())
    (hct : deserializeClue blake3 clue = .ok ct) {chunk : List RlweCiphertext}
    (hchunk : chunk.length ≤ packingDegree) {i : ℕ} (hi : chunk[i]? = some ct) {k : ℕ}
    (hk : k < cluePlaintextBits) :
    ∃ (key : Bytes) (cts : List S.Ciphertext) (bytes : Bytes) (slots : List ℕ),
      client.buildDetectionKey draws network = .ok key ∧
      parseDetectionKey key = .ok (network, cts) ∧
      bitFrame cts (slotClues chunk) k = .ok bytes ∧
      client.readDigestCt bytes = .ok (slots, []) ∧
      centerLift (slots.getD i 0) = ((clueError client.clueSk ct).coeff k).valMinAbs ∧
      ((client.clueSk.decryptError ct).getD k 0 = centerLift (slots.getD i 0) ↔
        DifferenceCentred (ct.b.getD k 0) ((clueMask client.clueSk ct).coeff k).val) := by
  have hkn : k < clueN := hk.trans (by decide)
  have hrange : ct.InRange := by
    obtain ⟨-, -, ct', hct', hrange⟩ := inRange_of_validateUnifomrClue hvalid
    rw [hct] at hct'
    cases hct'
    exact hrange
  obtain ⟨key, cts, bytes, slots, hkey, hparse, hbytes, hread, hslot⟩ :=
    digestSlot_eq ideal hs hternary draws network hchunk hi hkn
  refine ⟨key, cts, bytes, slots, hkey, hparse, hbytes, hread, hslot, ?_⟩
  rw [hslot]
  exact decryptError_eq_iff hrange hkn

end Digest

/-! ## A difference that is not centred -/

/-- A client whose clue secret is one. -/
def oneClient : UnifOmrClient (plainScheme packingDegree clueQ) :=
  ⟨(), (), ⟨1 :: List.replicate (clueN - 1) 0⟩⟩

/-- A clue with the error -1. -/
def wrappingClue : RlweCiphertext :=
  ⟨516097 :: List.replicate (clueN - 1) 0, 516096 :: List.replicate (clueN - 1) 0⟩

/-- The length of a constant polynomial. -/
theorem length_constant {α : Type} (x y : α) :
    (x :: List.replicate (clueN - 1) y).length = clueN := by
  rw [List.length_cons, List.length_replicate]
  rfl

/-- The words of a constant polynomial are below the modulus. -/
theorem constant_lt {x : ℕ} (hx : x < clueQ) :
    ∀ y ∈ x :: List.replicate (clueN - 1) 0, y < clueQ := by
  intro y hy
  obtain rfl | hy := List.mem_cons.mp hy
  · exact hx
  · rw [List.eq_of_mem_replicate hy]
    decide

/-- The words of the wrapping clue are in range. -/
theorem wrappingClue_inRange : wrappingClue.InRange where
  length_a := length_constant _ _
  length_b := length_constant _ _
  a_lt := constant_lt (by decide)
  b_lt := constant_lt (by decide)

/-- The secret 1 is ternary. -/
theorem oneClient_ternary : ∀ coeff ∈ oneClient.clueSk.coeffs, Ternary coeff := by
  intro coeff hcoeff
  obtain rfl | hcoeff := List.mem_cons.mp hcoeff
  · exact .inr (.inr rfl)
  · exact .inr (.inl (List.eq_of_mem_replicate hcoeff))

/-- The polynomial with the constant coefficient 1. -/
theorem signedPoly_one (n : ℕ) : signedPoly (n + 1) (1 :: List.replicate n 0) = 1 := by
  ext k
  rw [signedPoly, Negacyclic.coeff_ofCoeffs, coeff_one]
  cases k with
  | zero => simp
  | succ k =>
    rw [if_neg (by omega : ¬ k + 1 = 0), List.getD_cons_succ]
    simp

/-- The mask of the wrapping clue. -/
theorem clueMask_wrappingClue : (clueMask oneClient.clueSk wrappingClue).coeff 0 = 516097 := by
  have hone : signedPoly clueN oneClient.clueSk.coeffs = 1 := signedPoly_one (clueN - 1)
  rw [clueMask, hone, mul_one, wordsPoly, Negacyclic.coeff_ofCoeffs_modByMonic _ (by decide)]
  rfl

/-- The clue is decrypted to 1032192, its slot to -1. -/
theorem decryptError_wraps :
    ∃ (key : Bytes) (cts : List (plainScheme packingDegree clueQ).Ciphertext) (bytes : Bytes)
      (slots : List ℕ),
      validateUnifomrClue (fun _ => Bytes32.fill 0)
        (serializeClue (fun _ => Bytes32.fill 0) wrappingClue) = .ok () ∧
      deserializeClue (fun _ => Bytes32.fill 0)
        (serializeClue (fun _ => Bytes32.fill 0) wrappingClue) = .ok wrappingClue ∧
      (∀ coeff ∈ oneClient.clueSk.coeffs, Ternary coeff) ∧
      oneClient.buildDetectionKey (fun _ => ()) 1 = .ok key ∧
      parseDetectionKey key = .ok (1, cts) ∧
      bitFrame cts (slotClues [wrappingClue]) 0 = .ok bytes ∧
      oneClient.readDigestCt bytes = .ok (slots, []) ∧
      centerLift (slots.getD 0 0) = -1 ∧
      (oneClient.clueSk.decryptError wrappingClue).getD 0 0 = 1032192 := by
  obtain ⟨key, cts, bytes, slots, hkey, hparse, hbytes, hread, hslot⟩ :=
    digestSlot_eq (plainScheme_ideal (by decide) (by decide)) (length_constant _ _)
      oneClient_ternary
      (fun _ => ()) 1 (show [wrappingClue].length ≤ packingDegree by decide)
      (show [wrappingClue][0]? = some wrappingClue from rfl) (show 0 < clueN by decide)
  refine ⟨key, cts, bytes, slots, validateUnifomrClue_serializeClue wrappingClue_inRange,
    deserializeClue_serializeClue wrappingClue_inRange.onWire, oneClient_ternary, hkey, hparse,
    hbytes, hread,
    ?_, ?_⟩
  · rw [hslot, coeff_clueError (by decide), clueMask_wrappingClue, ZMod.valMinAbs_spec]
    refine ⟨?_, by decide⟩
    decide
  · rw [getD_decryptError wrappingClue_inRange.length_a (by decide), clueMask_wrappingClue]
    decide

/-- The digest slot and the direct decryption of that clue. -/
theorem decryptError_digestSlot_iff_wrapping :
    ∃ (key : Bytes) (cts : List (plainScheme packingDegree clueQ).Ciphertext) (bytes : Bytes)
      (slots : List ℕ),
      oneClient.buildDetectionKey (fun _ => ()) 1 = .ok key ∧
      parseDetectionKey key = .ok (1, cts) ∧
      bitFrame cts (slotClues [wrappingClue]) 0 = .ok bytes ∧
      oneClient.readDigestCt bytes = .ok (slots, []) ∧
      centerLift (slots.getD 0 0) = ((clueError oneClient.clueSk wrappingClue).coeff 0).valMinAbs ∧
      ((oneClient.clueSk.decryptError wrappingClue).getD 0 0 = centerLift (slots.getD 0 0) ↔
        DifferenceCentred (wrappingClue.b.getD 0 0)
          ((clueMask oneClient.clueSk wrappingClue).coeff 0).val) :=
  decryptError_digestSlot_iff (plainScheme_ideal (by decide) (by decide)) (length_constant _ _)
    oneClient_ternary (fun _ => ()) 1
    (show validateUnifomrClue (fun _ => Bytes32.fill 0) _ = .ok () from
      validateUnifomrClue_serializeClue wrappingClue_inRange)
    (deserializeClue_serializeClue wrappingClue_inRange.onWire)
    (show [wrappingClue].length ≤ packingDegree by decide)
    (show [wrappingClue][0]? = some wrappingClue from rfl) (show 0 < cluePlaintextBits by decide)

end LightWalletd
