import Mathlib.RingTheory.AdjoinRoot

/-!
# Negacyclic products

Products of polynomials modulo `X ^ n + 1`. A product of two polynomials below degree `n` is
below degree `2 * n`, and its upper half wraps around with a change of sign.
-/

set_option autoImplicit false

namespace Negacyclic

open Polynomial

variable {R : Type*} [CommRing R]

/-- The polynomial with the coefficients `a 0, …, a (n - 1)`. -/
noncomputable def ofCoeffs (n : ℕ) (a : ℕ → R) : R[X] := ∑ i ∈ Finset.range n, C (a i) * X ^ i

/-- The coefficients below the degree are those that were given. -/
@[simp] theorem coeff_ofCoeffs (n : ℕ) (a : ℕ → R) (k : ℕ) :
    (ofCoeffs n a).coeff k = if k < n then a k else 0 := by
  simp only [ofCoeffs, finsetSum_coeff, coeff_C_mul_X_pow]
  rw [Finset.sum_ite_eq]
  simp only [Finset.mem_range]

/-- Only the coefficients below the degree matter. -/
theorem ofCoeffs_congr {n : ℕ} {a b : ℕ → R} (h : ∀ k < n, a k = b k) :
    ofCoeffs n a = ofCoeffs n b := by
  apply Finset.sum_congr rfl
  intro k hk
  rw [h k (Finset.mem_range.mp hk)]

/-- Coefficients are added one by one. -/
theorem ofCoeffs_add (n : ℕ) (a b : ℕ → R) :
    ofCoeffs n (fun k => a k + b k) = ofCoeffs n a + ofCoeffs n b := by
  simp only [ofCoeffs, C_add, add_mul, Finset.sum_add_distrib]

/-- The modulus is monic. -/
theorem monic_modulus {n : ℕ} (hn : 0 < n) : (X ^ n + 1 : R[X]).Monic := by
  simpa using monic_X_pow_add_C (1 : R) (n := n) (by omega)

/-- The remainder modulo `X ^ n + 1` of a polynomial below degree `2 * n`. -/
theorem coeff_modByMonic {n : ℕ} {p : R[X]} (hp : ∀ m, 2 * n ≤ m → p.coeff m = 0) {k : ℕ}
    (hk : k < n) : (p %ₘ (X ^ n + 1)).coeff k = p.coeff k - p.coeff (n + k) := by
  nontriviality R
  set low := ofCoeffs n p.coeff with hlow
  set high := ofCoeffs n fun i => p.coeff (n + i) with hhigh
  have hmonic : (X ^ n + 1 : R[X]).Monic := monic_modulus (by omega)
  have hsplit : p = low + X ^ n * high := by
    ext m
    rw [coeff_add, mul_comm, coeff_mul_X_pow']
    simp only [hlow, hhigh, coeff_ofCoeffs]
    by_cases hm : m < n
    · rw [if_pos hm, if_neg (by omega), add_zero]
    · rw [if_neg hm, if_pos (by omega), zero_add]
      by_cases hm' : m < 2 * n
      · rw [if_pos (by omega), Nat.add_sub_cancel' (by omega)]
      · rw [if_neg (by omega), hp m (by omega)]
  have hdegree : (low - high).degree < (X ^ n + 1 : R[X]).degree := by
    have hn : (X ^ n + 1 : R[X]).degree = n := by
      simpa using degree_X_pow_add_C (R := R) (n := n) (by omega) 1
    rw [hn]
    apply (degree_lt_iff_coeff_zero _ _).mpr
    intro m hm
    rw [coeff_sub, hlow, hhigh, coeff_ofCoeffs, coeff_ofCoeffs, if_neg (by omega),
      if_neg (by omega), sub_zero]
  have hrem : p %ₘ (X ^ n + 1) = low - high :=
    (div_modByMonic_unique high (low - high) hmonic
      ⟨by rw [hsplit]; ring, hdegree⟩).2
  rw [hrem, coeff_sub, hlow, hhigh, coeff_ofCoeffs, coeff_ofCoeffs, if_pos hk, if_pos hk]

/-- A polynomial below degree `n` is its own remainder. -/
theorem coeff_ofCoeffs_modByMonic {n : ℕ} (a : ℕ → R) {k : ℕ} (hk : k < n) :
    (ofCoeffs n a %ₘ (X ^ n + 1)).coeff k = a k := by
  have hhigh : ∀ m, 2 * n ≤ m → (ofCoeffs n a).coeff m = 0 := by
    intro m hm
    rw [coeff_ofCoeffs, if_neg (by omega)]
  rw [coeff_modByMonic hhigh hk, coeff_ofCoeffs, coeff_ofCoeffs, if_pos hk, if_neg (by omega),
    sub_zero]

/-- A coefficient of the full product. -/
theorem coeff_mul_ofCoeffs (p : R[X]) (n : ℕ) (s : ℕ → R) (m : ℕ) :
    (p * ofCoeffs n s).coeff m =
      ∑ j ∈ Finset.range n, s j * if j ≤ m then p.coeff (m - j) else 0 := by
  simp only [ofCoeffs, Finset.mul_sum, finsetSum_coeff]
  apply Finset.sum_congr rfl
  intro j hj
  rw [← mul_assoc, mul_comm p, mul_assoc, coeff_C_mul, coeff_mul_X_pow']

/-- A coefficient of a product, by the pairs of indices that add up to it. -/
theorem coeff_ofCoeffs_mul (n : ℕ) (a s : ℕ → R) (m : ℕ) :
    (ofCoeffs n a * ofCoeffs n s).coeff m =
      ∑ i ∈ Finset.range n, ∑ j ∈ Finset.range n, if i + j = m then a i * s j else 0 := by
  simp only [ofCoeffs, Finset.sum_mul_sum, finsetSum_coeff]
  apply Finset.sum_congr rfl
  intro i _
  apply Finset.sum_congr rfl
  intro j _
  have hprod : C (a i) * X ^ i * (C (s j) * X ^ j) = C (a i * s j) * X ^ (i + j) := by
    rw [C_mul, pow_add]
    ring
  rw [hprod, coeff_C_mul_X_pow]
  exact if_congr eq_comm rfl rfl

/-- The product modulo `X ^ n + 1`: the pairs of indices that add up to `k`, less those that
wrap around to `k`. -/
theorem ofCoeffs_wrap {n : ℕ} (hn : 0 < n) (a s : ℕ → R) :
    ofCoeffs n (fun k => ∑ i ∈ Finset.range n, ∑ j ∈ Finset.range n,
      if i + j = k then a i * s j else if i + j = n + k then -(a i * s j) else 0) =
    (ofCoeffs n a * ofCoeffs n s) %ₘ (X ^ n + 1) := by
  nontriviality R
  ext k
  rw [coeff_ofCoeffs]
  by_cases hk : k < n
  · have hhigh : ∀ m, 2 * n ≤ m → (ofCoeffs n a * ofCoeffs n s).coeff m = 0 := by
      intro m hm
      rw [coeff_ofCoeffs_mul]
      apply Finset.sum_eq_zero
      intro i hi
      apply Finset.sum_eq_zero
      intro j hj
      rw [Finset.mem_range] at hi hj
      rw [if_neg (by omega)]
    rw [if_pos hk, coeff_modByMonic hhigh hk, coeff_ofCoeffs_mul, coeff_ofCoeffs_mul,
      ← Finset.sum_sub_distrib]
    apply Finset.sum_congr rfl
    intro i _
    rw [← Finset.sum_sub_distrib]
    apply Finset.sum_congr rfl
    intro j _
    by_cases hlow : i + j = k
    · rw [if_pos hlow, if_pos hlow, if_neg (by omega), sub_zero]
    · rw [if_neg hlow, if_neg hlow, zero_sub]
      by_cases hwrap : i + j = n + k
      · rw [if_pos hwrap, if_pos hwrap]
      · rw [if_neg hwrap, if_neg hwrap, neg_zero]
  · rw [if_neg hk]
    have hdegree := degree_modByMonic_lt (ofCoeffs n a * ofCoeffs n s)
      (monic_modulus (R := R) hn)
    have hn' : (X ^ n + 1 : R[X]).degree = n := by
      simpa using degree_X_pow_add_C (R := R) hn 1
    rw [hn'] at hdegree
    exact ((degree_lt_iff_coeff_zero _ _).mp hdegree k (by omega)).symm

/-- A coefficient of `b - a * s` modulo `X ^ n + 1`. -/
theorem coeff_sub_mul (n : ℕ) (a b s : ℕ → R) {k : ℕ} (hk : k < n) :
    ((ofCoeffs n b - ofCoeffs n a * ofCoeffs n s) %ₘ (X ^ n + 1)).coeff k =
      b k - ∑ j ∈ Finset.range n, s j * if j ≤ k then a (k - j) else -a (n + k - j) := by
  have hhigh : ∀ m, 2 * n ≤ m → (ofCoeffs n b - ofCoeffs n a * ofCoeffs n s).coeff m = 0 := by
    intro m hm
    rw [coeff_sub, coeff_ofCoeffs, if_neg (by omega), coeff_mul_ofCoeffs, zero_sub, neg_eq_zero]
    apply Finset.sum_eq_zero
    intro j hj
    rw [Finset.mem_range] at hj
    rw [coeff_ofCoeffs, if_neg (by omega : ¬ m - j < n), ite_self, mul_zero]
  rw [coeff_modByMonic hhigh hk, coeff_sub, coeff_sub, coeff_ofCoeffs, coeff_ofCoeffs, if_pos hk,
    if_neg (by omega), coeff_mul_ofCoeffs, coeff_mul_ofCoeffs, zero_sub, sub_neg_eq_add,
    sub_add, ← Finset.sum_sub_distrib]
  congr 1
  apply Finset.sum_congr rfl
  intro j hj
  rw [Finset.mem_range] at hj
  rw [coeff_ofCoeffs, coeff_ofCoeffs, if_pos (by omega : j ≤ n + k), ← mul_sub]
  congr 1
  by_cases hjk : j ≤ k
  · rw [if_pos hjk, if_pos hjk, if_pos (by omega), if_neg (by omega), sub_zero]
  · rw [if_neg hjk, if_neg hjk, if_pos (by omega), zero_sub]

/-! ## The ring -/

/-- The ring of polynomials modulo `X ^ n + 1`. -/
abbrev QuotientRing (n : ℕ) (R : Type*) [CommRing R] := AdjoinRoot (X ^ n + 1 : R[X])

/-- The class of a polynomial. -/
noncomputable def residue (n : ℕ) (p : R[X]) : QuotientRing n R := AdjoinRoot.mk _ p

/-- A coefficient of a sum in the quotient is the sum of both. -/
theorem residue_add (n : ℕ) (p q : R[X]) : residue n (p + q) = residue n p + residue n q :=
  map_add _ p q

/-- A product and its remainder are the same in the ring. -/
theorem residue_mul_modByMonic (n : ℕ) (p q : R[X]) :
    residue n ((p * q) %ₘ (X ^ n + 1)) = residue n p * residue n q := by
  have hdiv : (p * q) %ₘ (X ^ n + 1) - p * q = (X ^ n + 1) * -((p * q) /ₘ (X ^ n + 1)) := by
    have := modByMonic_add_div (p * q) (X ^ n + 1)
    linear_combination this
  unfold residue
  rw [← map_mul]
  apply AdjoinRoot.mk_eq_mk.mpr
  exact ⟨_, hdiv⟩

end Negacyclic
