import LightWalletd.Analysis.DirectoryPrivacy
import LightWalletd.Analysis.RingProducts
import LightWalletd.Analysis.SparseSampling

/-!
# The noise of a clue

A public key is `b = a * s + e` for the secret `s` and a small `e`. A clue encrypted under it
differs from the product with the secret by what the key and the encryption have drawn as errors.
-/

set_option autoImplicit false

namespace LightWalletd

open Polynomial Stateful

/-! ## Draws -/

/-- What an encryption may draw: a ternary `u`, and errors up to 4. -/
structure EncryptionDraws.WellFormed (draws : EncryptionDraws) : Prop where
  length_u : draws.u.length = clueN
  ternary : ∀ x ∈ draws.u, Ternary x
  length_e1 : draws.e1.length = clueN
  e1_le : ∀ x ∈ draws.e1, |x| ≤ 4
  length_e2 : draws.e2.length = clueN
  e2_le : ∀ x ∈ draws.e2, |x| ≤ 4

section Draws

variable (rng : SeededRng)

/-- What every draw satisfies all draws satisfy. -/
theorem draws_forall {α : Type} {P : α → Prop} {next : rng.Rng → α × rng.Rng}
    (h : ∀ r, P (next r).1) (n : ℕ) (r : rng.Rng) : ∀ x ∈ (rng.draws next n r).1, P x := by
  induction n generalizing r with
  | zero => exact fun _ => nofun
  | succ n ih => exact List.forall_mem_cons.mpr ⟨h r, ih _⟩

/-- An error is 4 at most in size. -/
theorem abs_gaussianSigmaHalf_le (below : ℕ → ℕ → Bool) (r : rng.Rng) :
    |(rng.gaussianSigmaHalf below r).1| ≤ 4 := by
  unfold SeededRng.gaussianSigmaHalf
  dsimp only
  split_ifs <;> simp

/-- A sparse list has ternary coefficients. -/
theorem Sparse.ternary {weight : ℕ} {coeffs : List ℤ} (h : Sparse weight coeffs) :
    ∀ x ∈ coeffs, Ternary x := by
  intro x hx
  obtain hx | hx | hx := h.eq_or x hx
  · exact .inr (.inr hx)
  · exact .inl hx
  · exact .inr (.inl hx)

/-- The draws of an encryption have their lengths and sizes. -/
theorem encryptionDraws_wellFormed (herror : ∀ r, |(rng.sampleGaussianSigmaHalf r).1| ≤ 4)
    (r : rng.Rng) : (rng.encryptionDraws r).1.WellFormed := by
  have hsparse := sparse_shuffled rng (show clueH / 2 ≤ clueN by decide) r
  have hlen := hsparse.length_eq
  have hternary := hsparse.ternary
  unfold SeededRng.shuffled at hlen hternary
  unfold SeededRng.encryptionDraws
  generalize (List.range (clueH / 2)).foldl rng.shuffleRound
    (List.replicate clueN 0, List.range clueN, r) = st at hlen hternary ⊢
  obtain ⟨u, idxs, r₀⟩ := st
  have hlen : u.length = clueN := hlen
  generalize hn : clueN = n at hlen ⊢
  dsimp only
  have hlen1 := length_draws rng rng.sampleGaussianSigmaHalf n r₀
  have he1 := draws_forall rng (P := fun x => |x| ≤ 4) herror n r₀
  generalize rng.draws rng.sampleGaussianSigmaHalf n r₀ = d₁ at hlen1 he1 ⊢
  obtain ⟨e1, r₁⟩ := d₁
  dsimp only
  have hlen2 := length_draws rng rng.sampleGaussianSigmaHalf n r₁
  have he2 := draws_forall rng (P := fun x => |x| ≤ 4) herror n r₁
  generalize rng.draws rng.sampleGaussianSigmaHalf n r₁ = d₂ at hlen2 he2 ⊢
  exact ⟨hlen.trans hn.symm, hternary, hlen1.trans hn.symm, he1, hlen2.trans hn.symm, he2⟩

end Draws

/-! ## The noise equation -/

/-- The ring of clues. -/
abbrev ClueRing := Negacyclic.QuotientRing clueN (ZMod clueQ)

/-- The ring element of some words. -/
noncomputable def wordsRing (words : List ℕ) : ClueRing :=
  Negacyclic.residue clueN (wordsPoly clueN words)

/-- The ring element of some signed coefficients. -/
noncomputable def signedRing (coeffs : List ℤ) : ClueRing :=
  Negacyclic.residue clueN (signedPoly clueN coeffs)

/-- A key as `deserializePublicKey` returns it: any words of 64 bits. -/
structure RlwePublicKey.WellFormed (pk : RlwePublicKey) : Prop where
  length_a : pk.a.length = clueN
  length_b : pk.b.length = clueN
  a_lt : ∀ x ∈ pk.a, x < 2 ^ 64
  b_lt : ∀ x ∈ pk.b, x < 2 ^ 64

/-- A public key that is decoded has its lengths and sizes. -/
theorem wellFormed_of_deserializePublicKey {bytes : Bytes} {pk : RlwePublicKey}
    (h : deserializePublicKey bytes = .ok pk) : pk.WellFormed := by
  obtain ⟨-, rfl⟩ := deserializePublicKey_eq_ok h
  exact {
    length_a := length_readWords _ _
    length_b := length_readWords _ _
    a_lt := fun _ => readWords_lt
    b_lt := fun _ => readWords_lt }

section Noise

variable {pk : RlwePublicKey} {draws : EncryptionDraws}

/-- The product of words and signed coefficients is the product in the ring. -/
theorem wordsRing_polyMulMod {a : List ℕ} (ha : a.length = clueN) (s : List ℤ) :
    wordsRing (polyMulMod a s) = wordsRing a * signedRing s := by
  have hproduct := wordsPoly_polyMulMod a s
  rw [ha] at hproduct
  unfold wordsRing signedRing
  rw [hproduct, Negacyclic.residue_mul_modByMonic]

/-- A product and an error, coefficient by coefficient. -/
def addErrors (n : ℕ) (product : List ℕ) (e : List ℤ) : List ℕ :=
  (List.range n).map fun i => modQ (centerLift (product.getD i 0) + e.getD i 0)

/-- Adding errors keeps the length. -/
@[simp] theorem length_addErrors (n : ℕ) (product : List ℕ) (e : List ℤ) :
    (addErrors n product e).length = n := by
  rw [addErrors, List.length_map, List.length_range]

/-- The words after adding errors are below the modulus. -/
theorem addErrors_lt (n : ℕ) (product : List ℕ) (e : List ℤ) :
    ∀ x ∈ addErrors n product e, x < clueQ := by
  intro x hx
  obtain ⟨i, -, rfl⟩ := List.mem_map.mp hx
  exact modQ_lt _

/-- As polynomials, adding errors is addition. -/
theorem wordsPoly_addErrors (n : ℕ) (product : List ℕ) (e : List ℤ) :
    wordsPoly n (addErrors n product e) = wordsPoly n product + signedPoly n e := by
  unfold wordsPoly signedPoly addErrors
  rw [← Negacyclic.ofCoeffs_add]
  apply Negacyclic.ofCoeffs_congr
  intro k hk
  rw [List.getD_eq_getElem _ _ (by simpa using hk), List.getElem_map, List.getElem_range, modQ_cast,
    Int.cast_add, centerLift_cast]

/-- In the ring, adding errors is addition. -/
theorem wordsRing_addErrors (product : List ℕ) (e : List ℤ) :
    wordsRing (addErrors clueN product e) = wordsRing product + signedRing e := by
  unfold wordsRing signedRing
  rw [wordsPoly_addErrors, Negacyclic.residue_add]

/-- The ciphertext depends on the generator through its draws only. -/
theorem fst_encryptZeros (rng : SeededRng) (pk : RlwePublicKey) (r : rng.Rng) :
    (pk.encryptZeros rng r).1 = pk.encryptWith (rng.encryptionDraws r).1 := by
  unfold RlwePublicKey.encryptZeros
  generalize rng.encryptionDraws r = d
  rfl

/-- The two halves of a ciphertext. -/
theorem encryptWith_eq (pk : RlwePublicKey) (draws : EncryptionDraws) : pk.encryptWith draws =
    ⟨addErrors clueN (polyMulMod pk.a draws.u) draws.e2,
      addErrors clueN (polyMulMod pk.b draws.u) draws.e1⟩ := rfl

/-- A ciphertext has reduced coefficients, one for each power. -/
theorem encryptWith_reduced (pk : RlwePublicKey) (draws : EncryptionDraws) :
    (pk.encryptWith draws).a.length = clueN ∧ (pk.encryptWith draws).b.length = clueN ∧
      ∀ x ∈ (pk.encryptWith draws).a ++ (pk.encryptWith draws).b, x < clueQ := by
  rw [encryptWith_eq]
  have ha := addErrors_lt clueN (polyMulMod pk.a draws.u) draws.e2
  have halen := length_addErrors clueN (polyMulMod pk.a draws.u) draws.e2
  have hb := addErrors_lt clueN (polyMulMod pk.b draws.u) draws.e1
  have hblen := length_addErrors clueN (polyMulMod pk.b draws.u) draws.e1
  generalize addErrors clueN (polyMulMod pk.a draws.u) draws.e2 = a at ha halen
  generalize addErrors clueN (polyMulMod pk.b draws.u) draws.e1 = b at hb hblen
  exact ⟨halen, hblen, List.forall_mem_append.mpr ⟨ha, hb⟩⟩

/-- Encrypting under a key with the error `e`. -/
theorem encryptWith_noise (hpk : pk.WellFormed) {s e : ClueRing}
    (hkey : wordsRing pk.b = wordsRing pk.a * s + e) :
    wordsRing (pk.encryptWith draws).b - wordsRing (pk.encryptWith draws).a * s =
      e * signedRing draws.u + signedRing draws.e1 - signedRing draws.e2 * s := by
  rw [encryptWith_eq, wordsRing_addErrors, wordsRing_addErrors, wordsRing_polyMulMod hpk.length_a,
    wordsRing_polyMulMod hpk.length_b]
  linear_combination signedRing draws.u * hkey

/-- Adding one error does not overflow. -/
theorem addErrorChecked_eq {product : List ℕ} {e : List ℤ} {i x : ℕ} {y : ℤ}
    (hx : product[i]? = some x) (hy : e[i]? = some y) (hlt : x < clueQ) (hle : |y| ≤ 4) :
    addErrorChecked product e i = some (modQ (centerLift x + y)) := by
  have hq : (clueQ : ℤ) < 2 ^ 32 := by decide
  have hlift : |centerLift x| ≤ clueQ := by
    unfold centerLift
    rw [abs_le]
    split_ifs <;> omega
  have hsum : checkedInt 64 (centerLift x + y) = some (centerLift x + y) := by
    apply checkedInt_eq
    rw [abs_le] at hlift hle
    rw [abs_lt]
    omega
  unfold addErrorChecked
  rw [hx, hy, Option.bind_eq_bind, Option.bind_some, centerLiftChecked_eq hlt,
    Option.bind_eq_bind, Option.bind_some, Option.bind_some, hsum, Option.bind_some,
    modQChecked_eq]

/-- Adding the errors does not overflow. -/
theorem addErrorsChecked_eq {n : ℕ} {product : List ℕ} {e : List ℤ} (hlen : product.length = n)
    (hproduct : ∀ x ∈ product, x < clueQ) (helen : e.length = n) (he : ∀ x ∈ e, |x| ≤ 4) :
    (List.range n).mapM (addErrorChecked product e) = some (addErrors n product e) := by
  apply mapM_eq_map
  intro i hi
  have hi := List.mem_range.mp hi
  have hx : i < product.length := by omega
  have hy : i < e.length := by omega
  rw [List.getD_eq_getElem _ _ hx, List.getD_eq_getElem _ _ hy]
  exact addErrorChecked_eq (List.getElem?_eq_getElem hx) (List.getElem?_eq_getElem hy)
    (hproduct _ (List.getElem_mem hx)) (he _ (List.getElem_mem hy))

/-- Encrypting does not overflow, whatever words the key has. -/
theorem encryptWithChecked_eq (hpk : pk.WellFormed) (hdraws : draws.WellFormed) :
    pk.encryptWithChecked draws = some (pk.encryptWith draws) := by
  have hn : 8 * clueN < 2 ^ 63 := by decide
  have hproduct : ∀ a : List ℕ, a.length = clueN → (∀ x ∈ a, x < 2 ^ 64) →
      polyMulModChecked a draws.u = some (polyMulMod a draws.u) := by
    intro a ha hwords
    exact polyMulModChecked_eq (by rw [ha]; exact hn) (hdraws.length_u.trans ha.symm) hwords
      hdraws.ternary
  have hb := addErrorsChecked_eq ((length_polyMulMod pk.b draws.u).trans hpk.length_b)
    polyMulMod_lt hdraws.length_e1 hdraws.e1_le
  have ha := addErrorsChecked_eq ((length_polyMulMod pk.a draws.u).trans hpk.length_a)
    polyMulMod_lt hdraws.length_e2 hdraws.e2_le
  unfold RlwePublicKey.encryptWithChecked
  simp only [hproduct pk.b hpk.length_b hpk.b_lt, hproduct pk.a hpk.length_a hpk.a_lt, hb, ha,
    Option.bind_eq_bind, Option.bind_some, encryptWith_eq]

/-- The public key of a secret is its words and their noisy product. -/
theorem publicFromSecret_eq (rng : SeededRng) (sk : RlweSecretKey) (r : rng.Rng) :
    ∃ (words : List ℕ) (e : List ℤ), words.length = clueN ∧ (∀ x ∈ words, x < clueQ) ∧
      rng.publicFromSecret sk r = ⟨words, addErrors clueN (polyMulMod words sk.coeffs) e⟩ := by
  unfold SeededRng.publicFromSecret
  have hlen := length_draws rng rng.nextU64 clueN r
  generalize rng.draws rng.nextU64 clueN r = d at hlen ⊢
  obtain ⟨words, r'⟩ := d
  dsimp only at hlen ⊢
  generalize rng.draws rng.sampleGaussianSigmaHalf clueN r' = d'
  obtain ⟨e, -⟩ := d'
  refine ⟨words.map (· % clueQ), e, by rw [List.length_map, hlen], ?_, rfl⟩
  intro x hx
  obtain ⟨y, -, rfl⟩ := List.mem_map.mp hx
  exact Nat.mod_lt y (by decide)

/-- The keys the server makes are of this kind, with the errors they draw. -/
theorem publicFromSecret_noise (rng : SeededRng) (sk : RlweSecretKey) (r : rng.Rng) :
    (rng.publicFromSecret sk r).WellFormed ∧ ∃ e : List ℤ,
      wordsRing (rng.publicFromSecret sk r).b =
        wordsRing (rng.publicFromSecret sk r).a * signedRing sk.coeffs + signedRing e := by
  have hq : clueQ < 2 ^ 64 := by decide
  obtain ⟨words, e, hlen, hwords, hpk⟩ := publicFromSecret_eq rng sk r
  rw [hpk]
  have hkey : wordsRing (addErrors clueN (polyMulMod words sk.coeffs) e) =
      wordsRing words * signedRing sk.coeffs + signedRing e := by
    rw [wordsRing_addErrors, wordsRing_polyMulMod hlen]
  have hb := addErrors_lt clueN (polyMulMod words sk.coeffs) e
  have hblen := length_addErrors clueN (polyMulMod words sk.coeffs) e
  generalize addErrors clueN (polyMulMod words sk.coeffs) e = b at hkey hb hblen
  exact ⟨⟨hlen, hblen, fun x hx => (hwords x hx).trans hq, fun x hx => (hb x hx).trans hq⟩, e, hkey⟩

/-- A clue for a key with the error `e` is off the product with the secret by
`e * u + e1 - e2 * s`. Its products are exact for any words, and nothing overflows. -/
theorem encrypted_clue_noise (rng : SeededRng) (below : ℕ → ℕ → Bool) (r : rng.Rng)
    (hpk : pk.WellFormed) {s e : ClueRing} (hkey : wordsRing pk.b = wordsRing pk.a * s + e) :
    let draws := ((rng.withThresholds below).encryptionDraws r).1
    let ct := (pk.encryptZeros (rng.withThresholds below) r).1
    wordsRing ct.b - wordsRing ct.a * s =
        e * signedRing draws.u + signedRing draws.e1 - signedRing draws.e2 * s ∧
      (ct.a.length = clueN ∧ ct.b.length = clueN ∧ ∀ x ∈ ct.a ++ ct.b, x < clueQ) ∧
      pk.encryptWithChecked draws = some ct ∧
      (∀ bytes pk', deserializePublicKey bytes = .ok pk' → pk'.WellFormed) ∧
      ∀ (a : List ℕ) (t : List ℤ), 8 * a.length < 2 ^ 63 → t.length = a.length →
        (∀ x ∈ a, x < 2 ^ 64) → (∀ x ∈ t, Ternary x) →
        polyMulModChecked a t = some (polyMulMod a t) ∧
          (polyMulMod a t).length = a.length ∧ (∀ x ∈ polyMulMod a t, x < clueQ) ∧
          wordsPoly a.length (polyMulMod a t) =
            (wordsPoly a.length a * signedPoly a.length t) %ₘ (X ^ a.length + 1) := by
  intro draws ct
  have hdraws : draws.WellFormed :=
    encryptionDraws_wellFormed (rng.withThresholds below) (abs_gaussianSigmaHalf_le rng below) r
  have hct : ct = pk.encryptWith draws := fst_encryptZeros (rng.withThresholds below) pk r
  refine ⟨?_, ?_, ?_, fun _ _ => wellFormed_of_deserializePublicKey, ?_⟩
  · rw [hct]
    exact encryptWith_noise hpk hkey
  · rw [hct]
    exact encryptWith_reduced pk draws
  · rw [hct]
    exact encryptWithChecked_eq hpk hdraws
  · intro a t hlen ht hwords hternary
    exact ⟨polyMulModChecked_eq hlen ht hwords hternary, length_polyMulMod a t, polyMulMod_lt,
      wordsPoly_polyMulMod a t⟩

end Noise

/-- A generator that counts. -/
def countingRng : SeededRng where
  Rng := ℕ
  fromSeed _ := 0
  nextU32 r := (r % 2 ^ 32, r + 1)
  nextU64 r := (r % 2 ^ 64, r + 1)
  sampleGaussianSigmaHalf r := (1, r + 1)

/-- A key that the generator makes for a secret with two coefficients. -/
def countingSecret : RlweSecretKey := ⟨1 :: -1 :: List.replicate (clueN - 2) 0⟩

/-- A public key of the counting generator. -/
def countingKey : RlwePublicKey := countingRng.publicFromSecret countingSecret (7 : ℕ)

/-- A clue for the key. -/
theorem encrypted_clue_noise_counting :
    ∃ (e : List ℤ) (draws : EncryptionDraws) (ct : RlweCiphertext),
      let rng := countingRng.withThresholds fun k m => decide (m < (k + 1) * 2 ^ 51)
      draws = (rng.encryptionDraws (5 : ℕ)).1 ∧ ct = (countingKey.encryptZeros rng (5 : ℕ)).1 ∧
        wordsRing ct.b - wordsRing ct.a * signedRing countingSecret.coeffs =
          signedRing e * signedRing draws.u + signedRing draws.e1 -
            signedRing draws.e2 * signedRing countingSecret.coeffs := by
  obtain ⟨hpk, e, hkey⟩ : countingKey.WellFormed ∧ ∃ e : List ℤ, wordsRing countingKey.b =
      wordsRing countingKey.a * signedRing countingSecret.coeffs + signedRing e :=
    publicFromSecret_noise countingRng countingSecret (7 : ℕ)
  obtain ⟨hnoise, -⟩ := encrypted_clue_noise countingRng
    (fun k m => decide (m < (k + 1) * 2 ^ 51)) (5 : ℕ) hpk hkey
  exact ⟨e, _, _, rfl, rfl, hnoise⟩

end LightWalletd
