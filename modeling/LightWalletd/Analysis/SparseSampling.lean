import LightWalletd.Computation.PartialShuffle
import LightWalletd.Model.ClueEncryption
import Mathlib.Data.Stream.Init

/-!
# Sparse coefficients

A secret and the mask of an encryption are drawn by a partial shuffle of the positions, so that
their weights are exact. The shuffle is split from the words it reads: `drawn` are the offsets and
signs that the rounds make of these words, and any offsets and signs come from some words.
-/

set_option autoImplicit false

namespace LightWalletd

open PartialShuffle

/-! ## The rounds -/

namespace SeededRng

variable (rng : SeededRng)

/-- The offset and the sign of round `i`. -/
def draw (i : ℕ) (r : rng.Rng) : (ℕ × ℤ) × rng.Rng :=
  let (u, r) := rng.nextU32 r
  let (v, r) := rng.nextU32 r
  ((u % (clueN - i), if v % 2 = 0 then 1 else -1), r)

/-- The offsets and signs of `k` rounds from round `i` on. -/
def drawn : ℕ → ℕ → rng.Rng → List (ℕ × ℤ) × rng.Rng
  | _, 0, r => ([], r)
  | i, k + 1, r =>
    let (draw, r) := rng.draw i r
    let (draws, r) := drawn (i + 1) k r
    (draw :: draws, r)

/-- The state after `k` rounds. -/
def shuffled (k : ℕ) (r : rng.Rng) : List ℤ × List ℕ × rng.Rng :=
  (List.range k).foldl rng.shuffleRound (List.replicate clueN 0, List.range clueN, r)

/-- A random secret is a shuffle of its weight. -/
theorem random_eq (r : rng.Rng) :
    (RlweSecretKey.random rng r).1.coeffs = (rng.shuffled clueH r).1 := by
  unfold RlweSecretKey.random shuffled
  generalize (List.range clueH).foldl rng.shuffleRound _ = st
  rfl

/-- The mask of an encryption is a shuffle of half that weight. -/
theorem encryptionDraws_u (r : rng.Rng) :
    (rng.encryptionDraws r).1.u = (rng.shuffled (clueH / 2) r).1 := by
  unfold encryptionDraws shuffled
  generalize (List.range (clueH / 2)).foldl rng.shuffleRound _ = st
  rfl

/-- What the rounds do depends on the words through the offsets and signs only. -/
theorem foldl_shuffleRound (k i : ℕ) (st : List ℤ × List ℕ) (r : rng.Rng) :
    (List.range' i k).foldl rng.shuffleRound (st.1, st.2, r) =
      ((rounds i (rng.drawn i k r).1 st).1, (rounds i (rng.drawn i k r).1 st).2,
        (rng.drawn i k r).2) := by
  induction k generalizing i st r with
  | zero => rfl
  | succ k ih =>
    rw [List.range'_succ, List.foldl_cons]
    exact ih (i + 1) (round st i (rng.draw i r).1) (rng.draw i r).2

/-- A shuffle is its draws, round by round. -/
theorem shuffled_eq (k : ℕ) (r : rng.Rng) :
    ((rng.shuffled k r).1, (rng.shuffled k r).2.1) =
      rounds 0 (rng.drawn 0 k r).1 (List.replicate clueN 0, List.range clueN) := by
  have hrun := rng.foldl_shuffleRound k 0 (List.replicate clueN 0, List.range clueN) r
  rw [← List.range_eq_range'] at hrun
  unfold shuffled
  rw [hrun]

/-- `k` rounds draw `k` times. -/
@[simp] theorem length_drawn (i k : ℕ) (r : rng.Rng) : (rng.drawn i k r).1.length = k := by
  induction k generalizing i r with
  | zero => rfl
  | succ k ih => exact congrArg (· + 1) (ih (i + 1) (rng.draw i r).2)

/-- An offset is reduced to the positions that are left. -/
theorem fits_drawn {i k : ℕ} (hik : i + k ≤ clueN) (r : rng.Rng) :
    OffsetsFit clueN i (rng.drawn i k r).1 := by
  induction k generalizing i r with
  | zero => exact trivial
  | succ k ih =>
    refine ⟨?_, ih (by omega) (rng.draw i r).2⟩
    have hmod : (rng.nextU32 r).1 % (clueN - i) < clueN - i := Nat.mod_lt _ (by omega)
    show i + (rng.nextU32 r).1 % (clueN - i) < clueN
    omega

/-- A sign that is drawn is 1 or -1. -/
theorem sign_of_mem_drawn {i k : ℕ} {r : rng.Rng} :
    ∀ draw ∈ (rng.drawn i k r).1, draw.2 = 1 ∨ draw.2 = -1 := by
  induction k generalizing i r with
  | zero => exact fun _ => nofun
  | succ k ih =>
    refine List.forall_mem_cons.mpr ⟨?_, ih⟩
    exact ite_eq_or_eq _ _ _

/-- The state after `k` rounds: as many positions hold a sign. -/
theorem chosen_shuffled {k : ℕ} (hk : k ≤ clueN) (r : rng.Rng) :
    Chosen (fun _ x => x = 1 ∨ x = -1) 0 clueN k
      ((rng.shuffled k r).1, (rng.shuffled k r).2.1) := by
  have hfits : OffsetsFit clueN 0 (rng.drawn 0 k r).1 := rng.fits_drawn (by omega) r
  have hrounds := (Chosen.start (fun _ x => x = 1 ∨ x = -1) (0 : ℤ) clueN).rounds hfits
    fun draw hdraw _ => rng.sign_of_mem_drawn draw hdraw
  rw [length_drawn, Nat.zero_add] at hrounds
  rw [shuffled_eq]
  exact hrounds

end SeededRng

/-! ## Streams -/

/-- The generator that reads the words of a stream. A word of 64 bits is two of 32. -/
def SeededRng.ofWords (fromSeed : Bytes32 → Stream' UInt32) (below : ℕ → ℕ → Bool) : SeededRng :=
  SeededRng.withThresholds
    { Rng := Stream' UInt32
      fromSeed := fromSeed
      nextU32 := fun words => (words.head.toNat, words.tail)
      nextU64 := fun words =>
        (words.head.toNat + 2 ^ 32 * words.tail.head.toNat, words.tail.tail)
      sampleGaussianSigmaHalf := fun words => (0, words) } below

section Words

variable (fromSeed : Bytes32 → Stream' UInt32) (below : ℕ → ℕ → Bool)

/-- Offsets that fit and signs come from some words. -/
theorem exists_drawn {draws : List (ℕ × ℤ)} {i : ℕ} (hfits : OffsetsFit clueN i draws)
    (hsign : ∀ draw ∈ draws, draw.2 = 1 ∨ draw.2 = -1) : ∃ words : Stream' UInt32,
      ((SeededRng.ofWords fromSeed below).drawn i draws.length words).1 = draws := by
  induction draws generalizing i with
  | nil => exact ⟨.const 0, rfl⟩
  | cons draw draws ih =>
    obtain ⟨offset, sign⟩ := draw
    obtain ⟨hoffset, hfits⟩ := hfits
    obtain ⟨hdraw, hdraws⟩ := List.forall_mem_cons.mp hsign
    obtain ⟨words, hwords⟩ := ih hfits hdraws
    have hword : (UInt32.ofNat offset).toNat % (clueN - i) = offset := by
      have hsize : clueN < 2 ^ 32 := by decide
      have hlt : i + offset < clueN := hoffset
      rw [UInt32.toNat_ofNat_of_lt' (by change offset < 2 ^ 32; omega)]
      exact Nat.mod_eq_of_lt (by omega)
    have hdraws : ∀ v : UInt32, (if v.toNat % 2 = 0 then 1 else -1) = sign → ∃ words,
        ((SeededRng.ofWords fromSeed below).drawn i (draws.length + 1) words).1 =
          (offset, sign) :: draws := by
      intro v hv
      refine ⟨.cons (.ofNat offset) (.cons v words), ?_⟩
      show ((UInt32.ofNat offset).toNat % (clueN - i), if v.toNat % 2 = 0 then 1 else -1) ::
        ((SeededRng.ofWords fromSeed below).drawn (i + 1) draws.length words).1 = _
      rw [hword, hv, hwords]
    obtain hsign | hsign := hdraw
    · exact hdraws 0 hsign.symm
    · exact hdraws 1 hsign.symm

/-- Every set of positions is drawn from some words, with any signs. -/
theorem exists_shuffled {k : ℕ} {S : Finset ℕ} (sign : ℕ → ℤ)
    (hS : S ⊆ Finset.range clueN) (hcard : S.card = k) (hsign : ∀ p, sign p = 1 ∨ sign p = -1) :
    ∃ words : Stream' UInt32, ∀ p,
      ((SeededRng.ofWords fromSeed below).shuffled k words).1.getD p 0 =
        if p ∈ S then sign p else 0 := by
  have hstart : Chosen (fun p x => x = sign p) (0 : ℤ) clueN 0
      (List.replicate clueN 0, List.range clueN) := .start _ _ _
  have hfresh : ∀ p ∈ S.toList,
      p < clueN ∧ p ∉ (List.replicate clueN (0 : ℤ), List.range clueN).2.take 0 := by
    intro p hp
    rw [List.take_zero]
    exact ⟨Finset.mem_range.mp (hS (Finset.mem_toList.mp hp)), List.not_mem_nil⟩
  obtain ⟨draws, hfits, hmarks, hchosen, htake⟩ :=
    exists_rounds S.toList hstart S.nodup_toList hfresh
  have hlen : draws.length = k := by
    have := congrArg List.length hmarks
    simpa [hcard] using this
  have hsigns : ∀ draw ∈ draws, draw.2 = 1 ∨ draw.2 = -1 := by
    intro draw hdraw
    have hmem : draw.2 ∈ S.toList.map sign := hmarks ▸ List.mem_map_of_mem hdraw
    obtain ⟨p, -, hp⟩ := List.mem_map.mp hmem
    rw [← hp]
    exact hsign p
  obtain ⟨words, hwords⟩ := exists_drawn fromSeed below hfits hsigns
  rw [hlen] at hwords
  have hst := (SeededRng.ofWords fromSeed below).shuffled_eq k words
  rw [hwords] at hst
  rw [← hst] at hchosen htake
  refine ⟨words, fun p => ?_⟩
  have hmem : p ∈ ((SeededRng.ofWords fromSeed below).shuffled k words).2.1.take
      (0 + S.toList.length) ↔ p ∈ S := by
    rw [htake]
    simp
  by_cases hp : p ∈ S
  · rw [if_pos hp]
    exact hchosen.marked p (hmem.mpr hp)
  · rw [if_neg hp]
    exact hchosen.unmarked p (mt hmem.mp hp)

end Words

/-! ## Weights -/

/-- As many coefficients as `weight` are 1 or -1, and the others are 0. -/
structure Sparse (weight : ℕ) (coeffs : List ℤ) : Prop where
  length_eq : coeffs.length = clueN
  weight_eq : coeffs.countP (fun x => decide (x = 1 ∨ x = -1)) = weight
  eq_or : ∀ x ∈ coeffs, x = 1 ∨ x = -1 ∨ x = 0

/-- No round marks a position a second time. -/
theorem sparse_shuffled (rng : SeededRng) {k : ℕ} (hk : k ≤ clueN) (r : rng.Rng) :
    Sparse k (rng.shuffled k r).1 := by
  have hchosen := rng.chosen_shuffled hk r
  have hvalues : ∀ x ∈ (rng.shuffled k r).1, x = 1 ∨ x = -1 ∨ x = 0 := by
    intro x hx
    obtain rfl | ⟨_, rfl | rfl⟩ := hchosen.mem_values hx <;> simp
  have hmark : ∀ (_ : ℕ) (x : ℤ), x = 1 ∨ x = -1 → x ≠ 0 := by
    rintro _ x (rfl | rfl) <;> decide
  refine ⟨hchosen.length_eq, ?_, hvalues⟩
  have hcount : (rng.shuffled k r).1.countP (fun x => decide (x ≠ 0)) = k := by
    rw [← card_support]
    exact hchosen.card_support hk hmark
  refine Eq.trans (List.countP_congr ?_) hcount
  intro x hx
  obtain rfl | rfl | rfl := hvalues x hx <;> simp

/-- Every support of the right size is reached by some words. -/
theorem support_shuffled (fromSeed : Bytes32 → Stream' UInt32) (below : ℕ → ℕ → Bool) {k : ℕ}
    {S : Finset ℕ} (hS : S ⊆ Finset.range clueN) (hcard : S.card = k) :
    ∃ words, support 0 ((SeededRng.ofWords fromSeed below).shuffled k words).1 = S := by
  have hk : k ≤ clueN := by
    rw [← hcard, ← Finset.card_range clueN]
    exact Finset.card_le_card hS
  obtain ⟨words, hwords⟩ := exists_shuffled fromSeed below (fun _ => 1) hS hcard
    fun _ => .inl rfl
  have hlen : ((SeededRng.ofWords fromSeed below).shuffled k words).1.length = clueN :=
    (sparse_shuffled (.ofWords fromSeed below) hk words).length_eq
  refine ⟨words, ?_⟩
  ext p
  rw [support, Finset.mem_filter, hwords, hlen]
  by_cases hp : p ∈ S
  · simpa [hp] using hS hp
  · simp [hp]

/-- A secret and a mask have exact weights whatever the generator, no round leaves the positions
other than permuted, and no set of positions is left out. -/
theorem sparse_sampling (fromSeed : Bytes32 → Stream' UInt32) (below : ℕ → ℕ → Bool) :
    (∀ (rng : SeededRng) (r : rng.Rng),
      Sparse clueH (RlweSecretKey.random rng r).1.coeffs ∧
      Sparse (clueH / 2) (rng.encryptionDraws r).1.u ∧
      ∀ k ≤ clueH, (rng.shuffled k r).2.1.Perm (List.range clueN)) ∧
    (∀ S ⊆ Finset.range clueN, S.card = clueH → ∃ words,
      support 0 (RlweSecretKey.random (.ofWords fromSeed below) words).1.coeffs = S) ∧
    ∀ S ⊆ Finset.range clueN, S.card = clueH / 2 → ∃ words,
      support 0 ((SeededRng.ofWords fromSeed below).encryptionDraws words).1.u = S := by
  have hsecret : clueH ≤ clueN := by decide
  have hmask : clueH / 2 ≤ clueN := by decide
  refine ⟨fun rng r => ⟨?_, ?_, ?_⟩, ?_, ?_⟩
  · rw [rng.random_eq]
    exact sparse_shuffled rng hsecret r
  · rw [rng.encryptionDraws_u]
    exact sparse_shuffled rng hmask r
  · intro k hk
    exact (rng.chosen_shuffled (hk.trans hsecret) r).perm
  · intro S hS hcard
    obtain ⟨words, hwords⟩ := support_shuffled fromSeed below hS hcard
    refine ⟨words, ?_⟩
    rw [SeededRng.random_eq]
    exact hwords
  · intro S hS hcard
    obtain ⟨words, hwords⟩ := support_shuffled fromSeed below hS hcard
    refine ⟨words, ?_⟩
    rw [SeededRng.encryptionDraws_u]
    exact hwords

/-- Some words draw the first 80 positions. -/
theorem sparse_sampling_first : ∃ words, support 0 (RlweSecretKey.random
    (.ofWords (fun _ => .const 0) fun _ _ => true) words).1.coeffs = Finset.range clueH := by
  apply (sparse_sampling _ _).2.1
  · exact Finset.range_mono (by decide)
  · exact Finset.card_range clueH

end LightWalletd
