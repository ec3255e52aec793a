import LightWalletd.Analysis.DetectionExact
import LightWalletd.Model.ClueEncryption

/-!
# Products of clue polynomials

The double loop of `polyMulMod` adds up, for each coefficient, the products that land in it. What
it returns is the product modulo `X ^ n + 1`. For a ternary factor each row of the loop
changes a coefficient at most once, so that no sum on the way leaves the machine integers.
-/

set_option autoImplicit false

namespace LightWalletd

open Polynomial Stateful

/-! ## Reductions -/

/-- `mod_q` is the residue. -/
theorem modQ_cast (x : ℤ) : ((modQ x : ℕ) : ZMod clueQ) = (x : ZMod clueQ) := by
  have hq : (clueQ : ℤ) ≠ 0 := by decide
  have hlower : -(clueQ : ℤ) < x.tmod clueQ := by
    have := Int.lt_tmod_of_pos x (show (0 : ℤ) < clueQ by decide)
    omega
  have htmod : ((x.tmod clueQ : ℤ) : ZMod clueQ) = (x : ZMod clueQ) := by
    rw [Int.tmod_def]
    push_cast
    rw [ZMod.natCast_self]
    ring
  unfold modQ
  dsimp only
  rw [← Int.cast_natCast, Int.toNat_of_nonneg (by split_ifs <;> omega)]
  by_cases hneg : x.tmod clueQ < 0
  · rw [if_pos hneg, Int.cast_add, htmod, Int.cast_natCast, ZMod.natCast_self, add_zero]
  · rw [if_neg hneg, htmod]

/-- `mod_q` is below the modulus. -/
theorem modQ_lt (x : ℤ) : modQ x < clueQ := by
  have hupper := Int.tmod_lt_of_pos x (show (0 : ℤ) < clueQ by decide)
  have hlower := Int.lt_tmod_of_pos x (show (0 : ℤ) < clueQ by decide)
  unfold modQ
  dsimp only
  split_ifs <;> omega

/-- `center_lift` is the same residue. -/
theorem centerLift_cast (u : ℕ) : ((centerLift u : ℤ) : ZMod clueQ) = (u : ZMod clueQ) := by
  unfold centerLift
  split_ifs
  · rw [Int.cast_sub, Int.cast_natCast, Int.cast_natCast, ZMod.natCast_self, sub_zero]
  · rw [Int.cast_natCast]

/-! ## The double loop -/

/-- What the product of the coefficients `i` and `j` adds to coefficient `k`. -/
def wrapTerm (a : List ℕ) (s : List ℤ) (k i j : ℕ) : ℤ :=
  if i + j = k then a.getD i 0 * s.getD j 0
  else if i + j = a.length + k then -(a.getD i 0 * s.getD j 0)
  else 0

section Loop

variable {a : List ℕ} {s : List ℤ}

/-- Adding a product keeps the length. -/
@[simp] theorem length_addProduct (i : ℕ) (out : List ℤ) (j : ℕ) :
    (addProduct a s i out j).length = out.length := by
  unfold addProduct
  dsimp only
  split_ifs <;> simp

/-- A round adds one product to one coefficient. -/
theorem getD_addProduct {out : List ℤ} {i j k : ℕ} (hout : out.length = a.length)
    (hk : k < a.length) :
    (addProduct a s i out j).getD k 0 = out.getD k 0 + wrapTerm a s k i j := by
  unfold addProduct wrapTerm
  dsimp only
  by_cases hzero : (a.getD i 0 : ℤ) = 0 ∨ s.getD j 0 = 0
  · rw [if_pos hzero, mul_eq_zero.mpr hzero, neg_zero, ite_self, ite_self, add_zero]
  rw [if_neg hzero]
  by_cases hlow : i + j < a.length
  · rw [if_pos hlow, getD_set (by omega), if_neg (by omega : ¬ i + j = a.length + k)]
    split_ifs with hik
    · rw [hik]
    · rw [add_zero]
  · rw [if_neg hlow, getD_set (by omega), if_neg (by omega : ¬ i + j = k)]
    by_cases hik : i + j - a.length = k
    · rw [if_pos hik, if_pos (by omega), hik, sub_eq_add_neg]
    · rw [if_neg hik, if_neg (by omega), add_zero]

/-- The accumulator after `m` rounds of row `i`. -/
def rowPrefix (a : List ℕ) (s : List ℤ) (i m : ℕ) (out : List ℤ) : List ℤ :=
  (List.range m).foldl (addProduct a s i) out

/-- The accumulator after `i` rows. -/
def rowsPrefix (a : List ℕ) (s : List ℤ) (i : ℕ) : List ℤ :=
  (List.range i).foldl (fun out i => rowPrefix a s i a.length out) (List.replicate a.length 0)

/-- One more product of a row. -/
theorem rowPrefix_succ (i m : ℕ) (out : List ℤ) :
    rowPrefix a s i (m + 1) out = addProduct a s i (rowPrefix a s i m out) m := by
  unfold rowPrefix
  rw [List.range_succ, List.foldl_append]
  rfl

/-- One more row. -/
theorem rowsPrefix_succ (i : ℕ) :
    rowsPrefix a s (i + 1) = rowPrefix a s i a.length (rowsPrefix a s i) := by
  unfold rowsPrefix
  rw [List.range_succ, List.foldl_append]
  rfl

/-- A row keeps the length. -/
@[simp] theorem length_rowPrefix (i m : ℕ) (out : List ℤ) :
    (rowPrefix a s i m out).length = out.length := by
  induction m with
  | zero => rfl
  | succ m ih => rw [rowPrefix_succ, length_addProduct, ih]

/-- The rows keep the length. -/
@[simp] theorem length_rowsPrefix (i : ℕ) : (rowsPrefix a s i).length = a.length := by
  induction i with
  | zero => exact List.length_replicate
  | succ i ih => rw [rowsPrefix_succ, length_rowPrefix, ih]

/-- The coefficients after part of a row. -/
theorem getD_rowPrefix {out : List ℤ} {i m k : ℕ} (hout : out.length = a.length)
    (hk : k < a.length) :
    (rowPrefix a s i m out).getD k 0 =
      out.getD k 0 + ∑ j ∈ Finset.range m, wrapTerm a s k i j := by
  induction m with
  | zero => simp [rowPrefix]
  | succ m ih =>
    rw [rowPrefix_succ, getD_addProduct (by simpa using hout) hk, ih, Finset.sum_range_succ,
      add_assoc]

/-- The coefficients after some rows. -/
theorem getD_rowsPrefix {i k : ℕ} (hk : k < a.length) :
    (rowsPrefix a s i).getD k 0 =
      ∑ i ∈ Finset.range i, ∑ j ∈ Finset.range a.length, wrapTerm a s k i j := by
  induction i with
  | zero => simp [rowsPrefix, hk]
  | succ i ih =>
    rw [rowsPrefix_succ, getD_rowPrefix (length_rowsPrefix i) hk, ih, Finset.sum_range_succ]

/-- `poly_mul_mod` is all rows, reduced. -/
theorem polyMulMod_eq (a : List ℕ) (s : List ℤ) :
    polyMulMod a s = (rowsPrefix a s a.length).map fun x => modQ (x % clueQ) := rfl

end Loop

/-! ## Exactness -/

/-- The polynomial of some words. -/
noncomputable def wordsPoly (n : ℕ) (words : List ℕ) : (ZMod clueQ)[X] :=
  Negacyclic.ofCoeffs n fun i => ((words.getD i 0 : ℕ) : ZMod clueQ)

/-- The polynomial of some signed coefficients. -/
noncomputable def signedPoly (n : ℕ) (coeffs : List ℤ) : (ZMod clueQ)[X] :=
  Negacyclic.ofCoeffs n fun i => ((coeffs.getD i 0 : ℤ) : ZMod clueQ)

/-- The product has the length of its first factor. -/
@[simp] theorem length_polyMulMod (a : List ℕ) (s : List ℤ) :
    (polyMulMod a s).length = a.length := by
  rw [polyMulMod_eq, List.length_map, length_rowsPrefix]

/-- A coefficient of the product. -/
theorem getD_polyMulMod {a : List ℕ} {s : List ℤ} {k : ℕ} (hk : k < a.length) :
    (polyMulMod a s).getD k 0 = modQ ((rowsPrefix a s a.length).getD k 0 % clueQ) := by
  rw [polyMulMod_eq, List.getD_eq_getElem _ _ (by simpa using hk), List.getElem_map,
    List.getD_eq_getElem _ _ (by simpa using hk)]

/-- The coefficients of a product are below the modulus. -/
theorem polyMulMod_lt {a : List ℕ} {s : List ℤ} : ∀ x ∈ polyMulMod a s, x < clueQ := by
  rw [polyMulMod_eq]
  intro x hx
  obtain ⟨y, -, rfl⟩ := List.mem_map.mp hx
  exact modQ_lt _

/-- `polyMulMod` multiplies modulo `X ^ n + 1`. -/
theorem wordsPoly_polyMulMod (a : List ℕ) (s : List ℤ) :
    wordsPoly a.length (polyMulMod a s) =
      (wordsPoly a.length a * signedPoly a.length s) %ₘ (X ^ a.length + 1) := by
  obtain hn | hn := Nat.eq_zero_or_pos a.length
  · unfold wordsPoly signedPoly
    rw [hn]
    simp [Negacyclic.ofCoeffs]
  · unfold wordsPoly signedPoly
    rw [← Negacyclic.ofCoeffs_wrap hn]
    apply Negacyclic.ofCoeffs_congr
    intro k hk
    rw [getD_polyMulMod hk, modQ_cast, ZMod.intCast_mod, getD_rowsPrefix hk, Int.cast_sum]
    apply Finset.sum_congr rfl
    intro i _
    rw [Int.cast_sum]
    apply Finset.sum_congr rfl
    intro j _
    unfold wrapTerm
    split_ifs
    · push_cast
      rfl
    · push_cast
      rfl
    · exact Int.cast_zero

/-! ## Bounds -/

section Bounds

variable {a : List ℕ} {s : List ℤ} {bound : ℤ}

/-- The magnitude of the products. -/
def ProductsWithin (a : List ℕ) (s : List ℤ) (bound : ℤ) : Prop :=
  ∀ i < a.length, ∀ j < a.length, |(a.getD i 0 : ℤ) * s.getD j 0| ≤ bound

/-- A row has one product at most for a coefficient. -/
theorem abs_rowSum_le (hbound : ProductsWithin a s bound) {i k m : ℕ} (hi : i < a.length)
    (hm : m ≤ a.length) (hk : k < a.length) :
    |∑ j ∈ Finset.range m, wrapTerm a s k i j| ≤ bound := by
  have hnonneg : 0 ≤ bound := le_trans (abs_nonneg _) (hbound i hi k hk)
  set only := if i ≤ k then k - i else a.length + k - i with hdef
  have hterm : ∀ j ∈ Finset.range m, |wrapTerm a s k i j| ≤ if j = only then bound else 0 := by
    intro j hj
    have hj := Finset.mem_range.mp hj
    unfold wrapTerm
    by_cases hjo : j = only
    · rw [if_pos hjo]
      split_ifs
      · exact hbound i hi j (by omega)
      · rw [abs_neg]
        exact hbound i hi j (by omega)
      · simpa using hnonneg
    · rw [if_neg hjo, if_neg (by split_ifs at hdef <;> omega),
        if_neg (by split_ifs at hdef <;> omega), abs_zero]
  calc |∑ j ∈ Finset.range m, wrapTerm a s k i j|
      ≤ ∑ j ∈ Finset.range m, |wrapTerm a s k i j| := Finset.abs_sum_le_sum_abs _ _
    _ ≤ ∑ j ∈ Finset.range m, if j = only then bound else 0 := Finset.sum_le_sum hterm
    _ ≤ bound := by
      rw [Finset.sum_ite_eq']
      split_ifs
      · exact le_rfl
      · exact hnonneg

/-- A coefficient of the accumulator, at any point of the double loop. -/
theorem abs_getD_rowPrefix_le (hbound : ProductsWithin a s bound) {i m k : ℕ} (hi : i < a.length)
    (hm : m ≤ a.length) (hk : k < a.length) :
    |(rowPrefix a s i m (rowsPrefix a s i)).getD k 0| ≤ (i + 1) * bound := by
  have hrows : |∑ i ∈ Finset.range i, ∑ j ∈ Finset.range a.length, wrapTerm a s k i j| ≤
      i * bound := by
    calc |∑ i ∈ Finset.range i, ∑ j ∈ Finset.range a.length, wrapTerm a s k i j|
        ≤ ∑ i ∈ Finset.range i, |∑ j ∈ Finset.range a.length, wrapTerm a s k i j| :=
          Finset.abs_sum_le_sum_abs _ _
      _ ≤ ∑ i ∈ Finset.range i, bound := by
        apply Finset.sum_le_sum
        intro i' hi'
        have hi' := Finset.mem_range.mp hi'
        exact abs_rowSum_le hbound (by omega) le_rfl hk
      _ = i * bound := by simp
  rw [getD_rowPrefix (length_rowsPrefix i) hk, getD_rowsPrefix hk]
  apply (abs_add_le _ _).trans
  rw [add_mul, one_mul]
  exact add_le_add hrows (abs_rowSum_le hbound hi hm hk)

end Bounds

/-! ## Machine integers -/

section Machine

variable {a : List ℕ} {s : List ℤ}

/-- A small value passes the check of its width. -/
theorem checkedInt_eq {bits : ℕ} {x : ℤ} (h : |x| < 2 ^ (bits - 1)) :
    checkedInt bits x = some x := by
  obtain ⟨hlower, hupper⟩ := abs_lt.mp h
  exact if_pos ⟨hlower.le, hupper⟩

/-- `mod_q` does not overflow. -/
@[simp] theorem modQChecked_eq (x : ℤ) : modQChecked x = some (modQ x) := by
  have hupper := Int.tmod_lt_of_pos x (show (0 : ℤ) < clueQ by decide)
  have hlower := Int.lt_tmod_of_pos x (show (0 : ℤ) < clueQ by decide)
  have hq : (clueQ : ℤ) < 2 ^ (64 - 1) := by decide
  unfold modQChecked modQ
  dsimp only
  by_cases hneg : x.tmod clueQ < 0
  · rw [if_pos hneg, if_pos hneg, checkedInt_eq (by rw [abs_lt]; omega)]
    rfl
  · rw [if_neg hneg, if_neg hneg]
    rfl

/-- `center_lift` of a residue does not overflow. -/
theorem centerLiftChecked_eq {u : ℕ} (h : u < clueQ) :
    centerLiftChecked u = some (centerLift u) := by
  have hq : (clueQ : ℤ) < 2 ^ (64 - 1) := by decide
  have hu : checkedInt 64 u = some (u : ℤ) := checkedInt_eq (by rw [abs_lt]; omega)
  unfold centerLiftChecked centerLift
  rw [hu]
  show (if (u : ℤ) > clueQ / 2 then checkedInt 64 (u - clueQ) else some (u : ℤ)) = _
  split_ifs
  · exact checkedInt_eq (by rw [abs_lt]; omega)
  · rfl

/-- A round does not overflow if its factors, its product and the coefficient it leaves are
machine integers. -/
theorem addProductChecked_eq {out : List ℤ} {i j : ℕ} (hs : s.length = a.length)
    (hout : out.length = a.length) (hi : i < a.length) (hj : j < a.length)
    (hfactor : |(a.getD i 0 : ℤ)| < 2 ^ 127) (hterm : |(a.getD i 0 : ℤ) * s.getD j 0| < 2 ^ 127)
    (hnew : ∀ k < a.length, |(addProduct a s i out j).getD k 0| < 2 ^ 127) :
    addProductChecked a s i out j = some (addProduct a s i out j) := by
  have hread : s[j]? = some (s.getD j 0) := by
    rw [List.getD_eq_getElem _ _ (by omega), List.getElem?_eq_getElem (by omega)]
  have hword : checkedInt 128 (a.getD i 0) = some (a.getD i 0 : ℤ) := checkedInt_eq hfactor
  unfold addProduct at hnew
  unfold addProductChecked addProduct
  dsimp only at hnew ⊢
  rw [hword, hread]
  show (if (a.getD i 0 : ℤ) = 0 then some out else if s.getD j 0 = 0 then some out else _) = _
  by_cases hai : (a.getD i 0 : ℤ) = 0
  · rw [if_pos hai, if_pos (.inl hai)]
  by_cases hsj : s.getD j 0 = 0
  · rw [if_neg hai, if_pos hsj, if_pos (.inr hsj)]
  rw [if_neg (not_or.mpr ⟨hai, hsj⟩)] at hnew ⊢
  rw [if_neg hai, if_neg hsj, checkedInt_eq hterm]
  show (if i + j < a.length then _ else _) = _
  by_cases hlow : i + j < a.length
  · rw [if_pos hlow] at hnew ⊢
    rw [if_pos hlow]
    have hsum := hnew (i + j) hlow
    rw [getD_set (by omega), if_pos rfl] at hsum
    rw [checkedInt_eq hsum]
    rfl
  · rw [if_neg hlow] at hnew ⊢
    rw [if_neg hlow]
    have hsum := hnew (i + j - a.length) (by omega)
    rw [getD_set (by omega), if_pos rfl] at hsum
    rw [checkedInt_eq hsum]
    rfl

/-- The products of words with a ternary factor. -/
theorem productsWithin_words (hwords : ∀ x ∈ a, x < 2 ^ 64) (hs : s.length = a.length)
    (hternary : ∀ x ∈ s, Ternary x) : ProductsWithin a s (2 ^ 64) := by
  intro i hi j hj
  have hword : a.getD i 0 < 2 ^ 64 := by
    rw [List.getD_eq_getElem _ _ hi]
    exact hwords _ (List.getElem_mem hi)
  have hcoeff : |s.getD j 0| ≤ 1 := by
    rw [List.getD_eq_getElem _ _ (by omega)]
    obtain h | h | h := hternary _ (List.getElem_mem (by omega : j < s.length))
    · simp [h]
    · simp [h]
    · simp [h]
  rw [abs_mul, Nat.abs_cast]
  calc (a.getD i 0 : ℤ) * |s.getD j 0| ≤ (a.getD i 0 : ℤ) * 1 := by gcongr
    _ ≤ 2 ^ 64 := by
      rw [mul_one]
      exact_mod_cast hword.le

/-- On words and a ternary factor `polyMulMod` does not overflow. The length is that of a list of
words in at most `2 ^ 63` bytes. -/
theorem polyMulModChecked_eq (hlen : 8 * a.length < 2 ^ 63) (hs : s.length = a.length)
    (hwords : ∀ x ∈ a, x < 2 ^ 64) (hternary : ∀ x ∈ s, Ternary x) :
    polyMulModChecked a s = some (polyMulMod a s) := by
  have hbound := productsWithin_words hwords hs hternary
  have hprefix : ∀ i < a.length, ∀ m ≤ a.length, ∀ k < a.length,
      |(rowPrefix a s i m (rowsPrefix a s i)).getD k 0| < 2 ^ 127 := by
    intro i hi m hm k hk
    apply (abs_getD_rowPrefix_le hbound hi hm hk).trans_lt
    omega
  have hrow : ∀ i < a.length, (List.range a.length).foldlM (addProductChecked a s i)
      (rowsPrefix a s i) = some (rowPrefix a s i a.length (rowsPrefix a s i)) := by
    intro i hi
    apply foldlM_range_eq
    intro j hj
    have hterm := hbound i hi j hj
    have hword : a.getD i 0 < 2 ^ 64 := by
      rw [List.getD_eq_getElem _ _ hi]
      exact hwords _ (List.getElem_mem hi)
    have hlen : (rowPrefix a s i j (rowsPrefix a s i)).length = a.length :=
      (length_rowPrefix i j _).trans (length_rowsPrefix i)
    apply addProductChecked_eq hs hlen hi hj
    · rw [abs_lt]
      omega
    · omega
    · intro k hk
      have hnext := hprefix i hi (j + 1) hj k hk
      rw [rowPrefix_succ] at hnext
      exact hnext
  have hrows : (List.range a.length).foldlM (fun out i =>
      (List.range a.length).foldlM (addProductChecked a s i) out) (List.replicate a.length 0) =
      some (rowsPrefix a s a.length) := foldlM_range_eq hrow
  unfold polyMulModChecked
  dsimp only
  rw [hrows, polyMulMod_eq]
  apply mapM_eq_map
  intro x _
  have hlower := Int.emod_nonneg x (show (clueQ : ℤ) ≠ 0 by decide)
  have hupper := Int.emod_lt_of_pos x (show (0 : ℤ) < clueQ by decide)
  have hq : (clueQ : ℤ) < 2 ^ (64 - 1) := by decide
  rw [checkedInt_eq (by rw [abs_lt]; omega)]
  exact modQChecked_eq _

end Machine

end LightWalletd
