import Mathlib.Data.ZMod.ValMinAbs
import LightWalletd.Computation.Negacyclic
import LightWalletd.Model.Detection

/-!
# Partial decryption

A clue `(a, b)` is for the wallet with secret `s` if the first coefficients of `b - a * s`, in
the ring modulo `X ^ CLUE_N + 1`, are close to zero. The server computes just these
coefficients under encryption, for the clues of all slots at once.
-/

set_option autoImplicit false

namespace LightWalletd

open Polynomial SlotScheme

/-- The modulus is not 0. -/
instance : NeZero clueQ := ⟨by decide⟩

/-! ## What a wallet looks for -/

/-- `b - a * s` in the ring of clues. -/
noncomputable def clueError (s : RlweSecretKey) (ct : RlweCiphertext) : (ZMod clueQ)[X] :=
  (Negacyclic.ofCoeffs clueN (fun i => ((ct.b.getD i 0 : ℕ) : ZMod clueQ)) -
    Negacyclic.ofCoeffs clueN (fun i => ((ct.a.getD i 0 : ℕ) : ZMod clueQ)) *
      Negacyclic.ofCoeffs clueN fun i => ((s.coeffs.getD i 0 : ℤ) : ZMod clueQ)) %ₘ (X ^ clueN + 1)

/-- The clue is for the holder of the secret: the first coefficients of its error are within
`R_PRIME` of zero. -/
def Pertinent (s : RlweSecretKey) (ct : RlweCiphertext) : Prop :=
  ∀ k < cluePlaintextBits, ((clueError s ct).coeff k).valMinAbs.natAbs ≤ rPrime

/-- What a slot holds after partial decryption. -/
noncomputable def SlotClue.error (s : RlweSecretKey) (bit : ℕ) : SlotClue → ZMod clueQ
  | clue ct => (clueError s ct).coeff bit
  | impertinent => (clueQ / 2 : ℕ)

/-! ## Range checks -/

/-- The range check bounds the representative of least absolute value. -/
theorem inRange_iff {raw : ℕ} (h : raw < clueQ) :
    inRange raw = true ↔ (raw : ZMod clueQ).valMinAbs.natAbs ≤ rPrime := by
  have hval : (raw : ZMod clueQ).val = raw := ZMod.val_cast_of_lt h
  unfold inRange
  rw [ZMod.valMinAbs_def_pos, hval, decide_eq_true_eq]
  by_cases hhalf : raw > clueQ / 2
  · rw [if_pos hhalf, if_neg (by omega), ← Int.natAbs_neg, neg_sub]
  · rw [if_neg hhalf, if_pos (by omega)]

/-- A clue flagged 0 is in range. -/
theorem inRange_zero : inRange 0 = true := by decide

/-- A clue flagged with the middle of the ring is not. -/
theorem not_inRange_half : inRange (clueQ / 2) = false := by decide

/-! ## Slot values -/

section Slots

/-- Reducing does not change the residue. -/
theorem cast_mod (x : ℕ) : ((x % clueQ : ℕ) : ZMod clueQ) = x := ZMod.natCast_mod x clueQ

/-- The complement is the negative. -/
theorem cast_complement {x : ℕ} (h : x ≤ clueQ) : ((clueQ - x : ℕ) : ZMod clueQ) = -x := by
  rw [Nat.cast_sub h, ZMod.natCast_self, zero_sub]

/-- A mask coefficient in the ring. -/
theorem cast_aSlot (ct : RlweCiphertext) (bit j : ℕ) :
    (((SlotClue.clue ct).aSlot bit j : ℕ) : ZMod clueQ) =
      if j ≤ bit then ((ct.a.getD (bit - j) 0 : ℕ) : ZMod clueQ)
      else -((ct.a.getD (clueN + bit - j) 0 : ℕ) : ZMod clueQ) := by
  simp only [SlotClue.aSlot]
  by_cases hj : j ≤ bit
  · rw [if_pos hj, if_pos hj, cast_mod]
  · rw [if_neg hj, if_neg hj, cast_mod, cast_complement (Nat.mod_lt _ (by decide)).le, cast_mod]

/-- A mask coefficient is below the modulus. -/
theorem aSlot_lt (bit j : ℕ) (c : SlotClue) : c.aSlot bit j < clueQ := by
  cases c with
  | clue ct =>
    simp only [SlotClue.aSlot]
    split_ifs
    · exact Nat.mod_lt _ (by decide)
    · exact Nat.mod_lt _ (by decide)
  | impertinent => exact Nat.pos_of_neZero clueQ

/-- A body coefficient is below the modulus. -/
theorem bSlot_lt (bit : ℕ) (c : SlotClue) : c.bSlot bit < clueQ := by
  cases c with
  | clue ct => exact Nat.mod_lt _ (by decide)
  | impertinent => exact Nat.mod_lt _ (by decide)

/-- The error of a slot from the values the server puts into it. -/
theorem error_eq (s : RlweSecretKey) {bit : ℕ} (hbit : bit < clueN) (c : SlotClue) :
    c.error s bit = (c.bSlot bit : ZMod clueQ) - ∑ j ∈ Finset.range clueN,
      ((s.coeffs.getD j 0 : ℤ) : ZMod clueQ) * (c.aSlot bit j : ZMod clueQ) := by
  cases c with
  | clue ct =>
    simp only [cast_aSlot]
    exact (Negacyclic.coeff_sub_mul clueN _ _ _ hbit).trans (by rw [SlotClue.bSlot, cast_mod])
  | impertinent =>
    have hzero : ∑ j ∈ Finset.range clueN, ((s.coeffs.getD j 0 : ℤ) : ZMod clueQ) *
        ((SlotClue.impertinent.aSlot bit j : ℕ) : ZMod clueQ) = 0 := by
      apply Finset.sum_eq_zero
      intro j _
      simp [SlotClue.aSlot]
    rw [hzero, sub_zero, SlotClue.bSlot, cast_mod]
    rfl

variable {clues : List SlotClue}

/-- A full chunk is its own slot vector. -/
theorem slotVector_eq (value : SlotClue → ℕ) (h : clues.length = packingDegree) :
    slotVector value clues = clues.map value := by
  unfold slotVector
  rw [h, Nat.sub_self, List.replicate_zero, List.append_nil, List.take_of_length_le h.le]

/-- Residues of a full chunk are slots. -/
theorem isSlots_slotVector {value : SlotClue → ℕ} (h : clues.length = packingDegree)
    (hvalue : ∀ c, value c < clueQ) : IsSlots packingDegree clueQ (slotVector value clues) := by
  rw [slotVector_eq _ h]
  constructor
  · rw [List.length_map, h]
  · intro x hx
    obtain ⟨c, -, rfl⟩ := List.mem_map.mp hx
    exact hvalue c

/-- The residues of slot values. -/
def slotResidues (value : SlotClue → ZMod clueQ) (clues : List SlotClue) :
    Fin packingDegree → ZMod clueQ := fun i => value (clues.getD i .impertinent)

/-- The slots of a slot vector. -/
theorem slots_slotVector (value : SlotClue → ℕ) (h : clues.length = packingDegree) :
    slots packingDegree clueQ (slotVector value clues) =
      slotResidues (fun c => (value c : ZMod clueQ)) clues := by
  rw [slotVector_eq _ h]
  funext i
  have hi : (i : ℕ) < clues.length := by rw [h]; exact i.2
  unfold slots slotResidues
  rw [List.getD_eq_getElem _ _ (by rwa [List.length_map]), List.getElem_map,
    List.getD_eq_getElem _ _ hi]

end Slots

/-! ## The server's sum -/

section Server

variable {S : BfvScheme} {sk : S.SecretKey} {pk : S.PublicKey}

/-- A ciphertext of a coefficient of the secret, in every slot. -/
def CarriesCoeff (sk : S.SecretKey) (s : ℤ) (ct : S.Ciphertext) : Prop :=
  S.Carries sk ct fun _ => (s : ZMod clueQ)

/-- What the accumulator stands for. -/
def Holds (sk : S.SecretKey) : Option S.Ciphertext → (Fin packingDegree → ZMod clueQ) → Prop
  | none, f => f = 0
  | some c, f => S.Carries sk c f

/-- Slots can be encoded. -/
theorem encodeSlots_ok (ideal : S.Ideal sk pk) {v : List ℕ} (h : IsSlots packingDegree clueQ v) :
    ∃ p, encodeSlots (S := S) v = .ok p ∧ S.Encodes p (slots packingDegree clueQ v) := by
  obtain ⟨p, hp, hencodes⟩ := ideal.encode v h
  exact ⟨p, by rw [encodeSlots, hp]; rfl, hencodes⟩

/-- The loop adds up the products of the coefficients with the slot values. -/
theorem accumulate_ok (ideal : S.Ideal sk pk) {clues : List SlotClue}
    (hlen : clues.length = packingDegree) (bit : ℕ) {coeffs : List ℤ} {cts : List S.Ciphertext}
    (hkey : List.Forall₂ (CarriesCoeff sk) coeffs cts)
    (j : ℕ) (acc : Option S.Ciphertext) (f : Fin packingDegree → ZMod clueQ)
    (hacc : Holds sk acc f) :
    ∃ acc', accumulate clues bit j cts acc = .ok acc' ∧
      Holds sk acc' (f + ∑ i ∈ Finset.range coeffs.length,
        slotResidues (fun c => ((coeffs.getD i 0 : ℤ) : ZMod clueQ) *
          (c.aSlot bit (j + i) : ZMod clueQ)) clues) ∧
      (acc.isSome = true ∨ coeffs ≠ [] → acc'.isSome = true) := by
  induction hkey generalizing j acc f with
  | nil => exact ⟨acc, rfl, by simpa using hacc, by simp⟩
  | @cons s ct coeffs cts hct hkey ih =>
    obtain ⟨p, hp, hencodes⟩ := encodeSlots_ok ideal
      (isSlots_slotVector hlen (aSlot_lt bit j))
    rw [slots_slotVector _ hlen] at hencodes
    have hterm := ideal.mulPlain _ _ _ _ hct hencodes
    set term := slotResidues (fun c => (s : ZMod clueQ) * (c.aSlot bit j : ZMod clueQ)) clues
      with hdef
    have hnext : Holds sk (some (addTerm acc (S.mulPlain ct p))) (f + term) := by
      cases acc with
      | none =>
        rw [show f = 0 from hacc, zero_add]
        exact hterm
      | some prev => exact ideal.add _ _ _ _ hacc hterm
    obtain ⟨acc', hrun, hholds, hsome⟩ := ih (j + 1) _ _ hnext
    refine ⟨acc', ?_, ?_, fun _ => hsome (.inl rfl)⟩
    · rw [accumulate, hp]
      exact hrun
    · have hrest : ∑ i ∈ Finset.range coeffs.length,
          slotResidues (fun c => (((s :: coeffs).getD (i + 1) 0 : ℤ) : ZMod clueQ) *
            (c.aSlot bit (j + (i + 1)) : ZMod clueQ)) clues =
          ∑ i ∈ Finset.range coeffs.length,
            slotResidues (fun c => ((coeffs.getD i 0 : ℤ) : ZMod clueQ) *
              (c.aSlot bit (j + 1 + i) : ZMod clueQ)) clues := by
        apply Finset.sum_congr rfl
        intro i _
        rw [List.getD_cons_succ, Nat.add_assoc j 1 i, Nat.add_comm 1 i]
      rw [List.length_cons, Finset.sum_range_succ', hrest, add_comm (Finset.sum _ _), ← add_assoc]
      exact hholds

/-- Partial decryption leaves the error of its clue in every slot. -/
theorem partialDecryptSimd_ok (ideal : S.Ideal sk pk) {clues : List SlotClue}
    (hlen : clues.length = packingDegree) {bit : ℕ} (hbit : bit < clueN) {s : RlweSecretKey}
    (hs : s.coeffs.length = clueN) {cts : List S.Ciphertext}
    (hkey : List.Forall₂ (CarriesCoeff sk) s.coeffs cts) :
    ∃ c, partialDecryptSimd cts clues bit = .ok c ∧
      S.Carries sk c (slotResidues (SlotClue.error s bit) clues) := by
  have hne : s.coeffs ≠ [] := by
    rw [← List.length_pos_iff, hs]
    decide
  have hcts : cts.length = clueN := by rw [← hkey.length_eq, hs]
  obtain ⟨acc, hrun, hholds, hsome⟩ := accumulate_ok ideal hlen bit hkey 0 none 0 rfl
  obtain ⟨c, rfl⟩ := Option.isSome_iff_exists.mp (hsome (.inr hne))
  obtain ⟨ptB, hptB, hencB⟩ := encodeSlots_ok ideal
    (isSlots_slotVector hlen (bSlot_lt bit))
  obtain ⟨neg, hneg, hencNeg⟩ := encodeSlots_ok ideal
    (isSlots_replicate (show clueQ - 1 < clueQ by decide))
  have hcarries := ideal.mulPlain _ _ _ _ (ideal.subPlain _ _ _ _ hholds hencB) hencNeg
  refine ⟨S.mulPlain (S.subPlain c ptB) neg, ?_, ?_⟩
  · unfold partialDecryptSimd
    rw [List.take_of_length_le hcts.le, hrun]
    show (encodeSlots (slotVector (SlotClue.bSlot bit) clues)).bind _ = _
    rw [hptB]
    show (encodeSlots (List.replicate packingDegree (clueQ - 1))).bind _ = _
    rw [hneg]
    rfl
  · convert hcarries using 1
    funext i
    rw [slots_slotVector _ hlen, slots_replicate, zero_add, hs]
    simp only [Pi.mul_apply, Pi.sub_apply, Finset.sum_apply, slotResidues, Nat.zero_add,
      error_eq s hbit, cast_complement (show 1 ≤ clueQ by decide)]
    ring

end Server

end LightWalletd
