import LightWalletd.Analysis.HintCodec
import LightWalletd.Computation.Loops
import LightWalletd.Model.Detection

/-!
# Frames and chunks

Frames are read back one after the other, whatever follows them; the chunks of a list, each
filled up to full length, are the list with its end filled up; and matched heights come out
sorted, each of them once.
-/

set_option autoImplicit false

namespace LightWalletd

/-! ## Frames -/

section Frames

variable {α : Type} {read : Bytes → Except String (α × Bytes)}

/-- A value is read back from its bytes, whatever follows them. -/
def Reads (read : Bytes → Except String (α × Bytes)) (x : α) (bytes : Bytes) : Prop :=
  ∀ rest, read (bytes ++ rest) = .ok (x, rest)

/-- A frame is four bytes longer than its content. -/
theorem length_frame (bytes : Bytes) : (frame bytes).length = 4 + bytes.length := by
  rw [frame, List.length_append, length_leBytes]

/-- A frame is read back as its content. -/
theorem reads_frame (noLength noBytes : String) {bytes : Bytes} (h : bytes.length < 2 ^ 32) :
    Reads (readFrame noLength noBytes) bytes (frame bytes) := by
  intro rest
  have hwire : frame bytes ++ rest = leBytes 4 bytes.length ++ (bytes ++ rest) := by
    rw [frame, List.append_assoc]
  have htake : (frame bytes ++ rest).take 4 = leBytes 4 bytes.length := by
    rw [hwire, List.take_left' (length_leBytes 4 _)]
  have hdrop : (frame bytes ++ rest).drop 4 = bytes ++ rest := by
    rw [hwire, List.drop_left' (length_leBytes 4 _)]
  unfold readFrame
  rw [if_neg (by rw [List.length_append, length_frame]; omega)]
  simp only [htake, hdrop, leValue_leBytes_of_lt (n := 4) (v := bytes.length) (by simpa using h)]
  rw [if_neg (by rw [List.length_append]; omega), List.take_left, List.drop_left]

/-- Parts that are read one by one are read one after the other. -/
theorem reads_many {xs : List α} {parts : List Bytes}
    (h : List.Forall₂ (Reads read) xs parts) :
    Reads (readMany read xs.length) xs parts.flatten := by
  induction h with
  | nil => exact fun rest => rfl
  | @cons x part xs parts hx _ ih =>
    intro rest
    rw [List.length_cons, List.flatten_cons, List.append_assoc, readMany, hx]
    show (readMany read xs.length (parts.flatten ++ rest)).bind _ = _
    rw [ih rest]
    rfl

/-- Frames of at least `k` bytes make up that many bytes together. -/
theorem mul_le_length_flatten {k : ℕ} {xs : List α} {parts : List Bytes}
    (h : List.Forall₂ (fun _ part => k ≤ part.length) xs parts) :
    xs.length * k ≤ parts.flatten.length := by
  induction h with
  | nil => simp
  | cons h _ ih =>
    rw [List.length_cons, List.flatten_cons, List.length_append, Nat.succ_mul]
    omega

end Frames

/-! ## Chunks -/

section Chunks

variable {α β : Type} {n : ℕ}

/-- No items fill no chunk. -/
theorem divCeil_zero (n : ℕ) : divCeil 0 n = 0 := by
  rw [divCeil, if_pos (Nat.zero_mod n), Nat.zero_div]

/-- One chunk more for `n` items more. -/
theorem divCeil_of_pos (hn : 0 < n) {a : ℕ} (ha : 0 < a) :
    divCeil a n = divCeil (a - n) n + 1 := by
  unfold divCeil
  by_cases h : a < n
  · rw [Nat.sub_eq_zero_of_le h.le, Nat.mod_eq_of_lt h, Nat.div_eq_of_lt h, if_neg (by omega),
      if_pos (Nat.zero_mod n), Nat.zero_div]
  · rw [Nat.mod_eq_sub_mod (by omega), Nat.div_eq_sub_div hn (by omega)]
    split_ifs <;> rfl

/-- The chunks have room for all items. -/
theorem le_divCeil_mul (hn : 0 < n) (a : ℕ) : a ≤ divCeil a n * n := by
  have hsplit := Nat.div_add_mod' a n
  unfold divCeil
  split_ifs with h
  · omega
  · have hlt := Nat.mod_lt a hn
    rw [Nat.add_mul]
    omega

/-- More items need no fewer chunks. -/
theorem divCeil_le_divCeil {a b : ℕ} (h : a ≤ b) : divCeil a n ≤ divCeil b n := by
  have ha := Nat.div_add_mod' a n
  have hb := Nat.div_add_mod' b n
  have hdiv := Nat.div_le_div_right (c := n) h
  unfold divCeil
  split_ifs with h1 h2
  · exact hdiv
  · omega
  · rcases hdiv.lt_or_eq with hlt | heq
    · exact hlt
    · rw [heq] at ha
      omega
  · omega

/-- No items make no chunks. -/
theorem chunksOf_nil : chunksOf n ([] : List α) = [] := by
  rw [chunksOf, List.length_nil, divCeil_zero]
  rfl

/-- The first chunk, then the chunks of the rest. -/
theorem chunksOf_of_ne_nil (hn : 0 < n) {xs : List α} (h : xs ≠ []) :
    chunksOf n xs = xs.take n :: chunksOf n (xs.drop n) := by
  unfold chunksOf
  rw [divCeil_of_pos hn (List.length_pos_iff.mpr h), List.range_succ_eq_map, List.map_cons,
    List.map_map, Nat.zero_mul, List.drop_zero, List.length_drop]
  congr 1
  apply List.map_congr_left
  intro i _
  show (xs.drop ((i + 1) * n)).take n = ((xs.drop n).drop (i * n)).take n
  rw [List.drop_drop, Nat.succ_mul, Nat.add_comm]

/-- The number of chunks. -/
theorem length_chunksOf (n : ℕ) (xs : List α) :
    (chunksOf n xs).length = divCeil xs.length n := by
  rw [chunksOf, List.length_map, List.length_range]

/-- A chunk has `n` items at most. -/
theorem length_le_of_mem_chunksOf {xs c : List α} (hc : c ∈ chunksOf n xs) : c.length ≤ n := by
  obtain ⟨i, -, rfl⟩ := List.mem_map.mp hc
  exact List.length_take_le _ _

/-- The filled up chunks of a list are the list, filled up. -/
theorem flatMap_chunksOf (hn : 0 < n) (f : α → β) (p : β) (xs : List α) :
    (chunksOf n xs).flatMap (fun c => c.map f ++ List.replicate (n - c.length) p) =
      xs.map f ++ List.replicate (divCeil xs.length n * n - xs.length) p := by
  induction hlen : xs.length using Nat.strong_induction_on generalizing xs with
  | _ len ih =>
    by_cases hxs : xs = []
    · rw [hxs] at hlen ⊢
      rw [chunksOf_nil, ← hlen]
      simp [divCeil_zero]
    · have hpos := List.length_pos_iff.mpr hxs
      have hdrop : (xs.drop n).length = len - n := by rw [List.length_drop, hlen]
      rw [chunksOf_of_ne_nil hn hxs, List.flatMap_cons, ih (len - n) (by omega) _ hdrop,
        divCeil_of_pos hn (by omega : 0 < len), List.length_take, hlen]
      by_cases hle : len ≤ n
      · rw [List.drop_eq_nil_of_le (by omega), List.take_of_length_le (by omega),
          Nat.sub_eq_zero_of_le hle, divCeil_zero, min_eq_right hle]
        simp
      · rw [min_eq_left (by omega), Nat.sub_self, List.replicate_zero, List.append_nil,
          ← List.append_assoc, ← List.map_append, List.take_append_drop, Nat.add_mul]
        congr 2
        omega

end Chunks

/-! ## Matched heights -/

section Matches

/-- Dropping repeats from a list drops no item. -/
theorem mem_destutter' (x a : ℕ) (l : List ℕ) :
    x ∈ l.destutter' (· ≠ ·) a ↔ x = a ∨ x ∈ l := by
  induction l generalizing a with
  | nil => simp
  | cons b l ih =>
    by_cases h : a = b
    · rw [List.destutter'_cons_neg _ (not_not.mpr h), ih, List.mem_cons, h]
      tauto
    · rw [List.destutter'_cons_pos _ h, List.mem_cons, ih, List.mem_cons]

/-- The same from its first item on. -/
theorem mem_destutter {x : ℕ} {l : List ℕ} : x ∈ l.destutter (· ≠ ·) ↔ x ∈ l := by
  cases l with
  | nil => rfl
  | cons a l => rw [List.destutter_cons', mem_destutter', List.mem_cons]

/-- Removing repetitions from a sorted list leaves it strictly sorted. -/
theorem pairwise_lt_destutter {l : List ℕ} (h : l.Pairwise (· ≤ ·)) :
    (l.destutter (· ≠ ·)).Pairwise (· < ·) := by
  have hle := List.isChain_iff_getElem.mp
    (h.sublist (List.destutter_sublist (· ≠ ·) l)).isChain
  have hne := List.isChain_iff_getElem.mp (List.isChain_destutter (R := (· ≠ ·)) l)
  apply List.isChain_iff_pairwise.mp
  apply List.isChain_iff_getElem.mpr
  intro i hi
  exact lt_of_le_of_ne (hle i hi) (hne i hi)

/-- A sorted list of numbers is sorted. -/
theorem pairwise_mergeSort (l : List ℕ) :
    (l.mergeSort fun a b => decide (a ≤ b)).Pairwise (· ≤ ·) := by
  have hsorted : (l.mergeSort fun a b => decide (a ≤ b)).Pairwise
      fun a b => decide (a ≤ b) = true :=
    List.pairwise_mergeSort (by simpa using fun a b c => Nat.le_trans)
      (by simpa using Nat.le_total) l
  simpa only [decide_eq_true_eq] using hsorted

/-- The matches come in increasing order. -/
theorem pairwise_rangeCheckMatches (slots slotHeights : List ℕ) :
    (rangeCheckMatches slots slotHeights).Pairwise (· < ·) := by
  apply pairwise_lt_destutter
  exact pairwise_mergeSort _

/-- A height matches exactly where a slot of it is in range. -/
theorem mem_rangeCheckMatches {slots slotHeights : List ℕ} {h : ℕ} :
    h ∈ rangeCheckMatches slots slotHeights ↔
      ∃ raw, (h, raw) ∈ slotHeights.zip slots ∧ inRange raw = true := by
  unfold rangeCheckMatches
  rw [mem_destutter, List.mem_mergeSort, List.mem_map]
  constructor
  · rintro ⟨⟨h', raw⟩, hmem, rfl⟩
    exact ⟨raw, List.mem_filter.mp hmem⟩
  · rintro ⟨raw, hmem⟩
    exact ⟨(h, raw), List.mem_filter.mpr hmem, rfl⟩

end Matches

end LightWalletd
