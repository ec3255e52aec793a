import Mathlib.Algebra.Order.Group.Nat
import Mathlib.Tactic.NormNum
import LightWalletd.Model.ClueHints

/-!
# The clue list codec

Little-endian numbers are read back exactly when they fit. A clue list is read back entry by
entry, except that the largest index is the mark for no index: `storedIndex` says what an index
is after the round trip.
-/

set_option autoImplicit false

namespace LightWalletd

/-! ## Little-endian numbers -/

/-- Little-endian bytes have their length. -/
@[simp] theorem length_leBytes (n v : ℕ) : (leBytes n v).length = n := by
  induction n generalizing v with
  | zero => rfl
  | succ n ih => rw [leBytes, List.length_cons, ih]

/-- The digits keep the number modulo `256 ^ n`. -/
theorem leValue_leBytes (n v : ℕ) : leValue (leBytes n v) = v % 256 ^ n := by
  induction n generalizing v with
  | zero => simp [leBytes, leValue, Nat.mod_one]
  | succ n ih =>
    have hdigit : (UInt8.ofNat v).toNat = v % 256 := UInt8.toNat_ofNat'
    rw [leBytes, leValue, ih, hdigit, pow_succ', Nat.mod_mul]

/-- A number that fits its bytes is read back. -/
theorem leValue_leBytes_of_lt {n v : ℕ} (h : v < 256 ^ n) : leValue (leBytes n v) = v := by
  rw [leValue_leBytes, Nat.mod_eq_of_lt h]

/-- The digits of a number are those it was read from. -/
theorem leBytes_leValue (bytes : Bytes) : leBytes bytes.length (leValue bytes) = bytes := by
  induction bytes with
  | nil => rfl
  | cons b bytes ih =>
    have hb : b.toNat < 256 := b.toNat_lt
    have hlow : UInt8.ofNat (b.toNat + 256 * leValue bytes) = b := by
      apply UInt8.toNat_inj.mp
      rw [UInt8.toNat_ofNat', Nat.add_mul_mod_self_left, Nat.mod_eq_of_lt hb]
    have hhigh : (b.toNat + 256 * leValue bytes) / 256 = leValue bytes := by omega
    rw [List.length_cons, leValue, leBytes, hlow, hhigh, ih]

/-- A number with `n` digits is below `256 ^ n`. -/
theorem leValue_lt (bytes : Bytes) : leValue bytes < 256 ^ bytes.length := by
  induction bytes with
  | nil => simp [leValue]
  | cons b bs ih =>
    have hb : b.toNat < 256 := b.toNat_lt
    rw [leValue, List.length_cons, pow_succ]
    omega

/-- `n` bytes hold a number below `256 ^ n`. -/
theorem leValue_take_lt (n : ℕ) (bytes : Bytes) : leValue (bytes.take n) < 256 ^ n := by
  apply lt_of_lt_of_le (leValue_lt _)
  apply Nat.pow_le_pow_right (by norm_num)
  exact List.length_take_le n bytes

/-! ## Entries -/

/-- What an index is read back as: the largest one stands for none. -/
def storedIndex (idx : Option ℕ) : Option ℕ := decodeIndex (idx.getD u32Max)

/-- No index is stored as no index. -/
@[simp] theorem storedIndex_none : storedIndex none = none := by
  simp [storedIndex, decodeIndex]

/-- The last index is stored as no index. -/
@[simp] theorem storedIndex_last : storedIndex (some u32Max) = none := by
  simp [storedIndex, decodeIndex]

/-- Any other index is stored as it is. -/
theorem storedIndex_of_ne {idx : Option ℕ} (h : idx ≠ some u32Max) : storedIndex idx = idx := by
  cases idx with
  | none => exact storedIndex_none
  | some i =>
    have hi : i ≠ u32Max := fun e => h (congrArg some e)
    simp [storedIndex, decodeIndex, hi]

/-- The fields of an entry fit their four bytes. -/
structure FitsEntry (c : Option ℕ × Bytes) : Prop where
  index : ∀ i, c.1 = some i → i ≤ u32Max
  clue : c.2.length ≤ u32Max

/-- An entry as it is read back. -/
def storedEntry (c : Option ℕ × Bytes) : Option ℕ × Bytes := (storedIndex c.1, c.2)

/-- The bytes of one entry. -/
def entryBytes (c : Option ℕ × Bytes) : Bytes :=
  leBytes 4 (c.1.getD u32Max) ++ leBytes 4 c.2.length ++ c.2

/-- The marker of a clue fits four bytes. -/
theorem getD_lt_of_fits {c : Option ℕ × Bytes} (h : FitsEntry c) :
    c.1.getD u32Max < 256 ^ 4 := by
  have hmax : u32Max < 256 ^ 4 := by decide
  cases hidx : c.1 with
  | none => exact hmax
  | some i => exact lt_of_le_of_lt (h.index i hidx) hmax

/-- The stored list is the magic bytes, then the entries. -/
theorem encodeOmrClueHints_eq {clues : List (Option ℕ × Bytes)} (h : ∀ c ∈ clues, FitsEntry c) :
    encodeOmrClueHints clues = omrClueListMagic ++ clues.flatMap entryBytes := by
  unfold encodeOmrClueHints
  congr 1
  apply List.flatMap_congr
  intro c hc
  have hlen := (h c hc).clue
  simp [entryBytes, hlen]

/-- Reading a list starts with its first entry. -/
theorem decodeOmrClueList_cons {c : Option ℕ × Bytes} (h : FitsEntry c) (fuel : ℕ) (rest : Bytes) :
    decodeOmrClueList (fuel + 1) (entryBytes c ++ rest) =
      storedEntry c :: decodeOmrClueList fuel rest := by
  have hidx := getD_lt_of_fits h
  have hclue : c.2.length < 256 ^ 4 := lt_of_le_of_lt h.clue (by decide)
  have hindex : leValue ((entryBytes c ++ rest).take 4) = c.1.getD u32Max := by
    rw [← leValue_leBytes_of_lt hidx]
    rfl
  have hlength : leValue (((entryBytes c ++ rest).drop 4).take 4) = c.2.length := by
    rw [← leValue_leBytes_of_lt hclue]
    rfl
  have hbody : (entryBytes c ++ rest).drop 8 = c.2 ++ rest := by
    simp [entryBytes, List.append_assoc, List.drop_append]
  have htotal : (entryBytes c ++ rest).length = 8 + c.2.length + rest.length := by
    simp [entryBytes]
    omega
  have hrest : (entryBytes c ++ rest).drop (8 + c.2.length) = rest := by
    rw [← List.drop_drop, hbody, List.drop_left]
  rw [decodeOmrClueList]
  simp only [hindex, hlength, hbody, hrest, htotal, List.take_left]
  rw [if_neg (by omega), if_neg (by omega)]
  rfl

/-- An encoded list is read back entry by entry. -/
theorem decodeOmrClueList_entries {clues : List (Option ℕ × Bytes)}
    (h : ∀ c ∈ clues, FitsEntry c) {fuel : ℕ} (hfuel : clues.length ≤ fuel) :
    decodeOmrClueList fuel (clues.flatMap entryBytes) = clues.map storedEntry := by
  induction clues generalizing fuel with
  | nil =>
    cases fuel with
    | zero => rfl
    | succ fuel => simp [decodeOmrClueList]
  | cons c clues ih =>
    cases fuel with
    | zero => simp at hfuel
    | succ fuel =>
      have hc := h c (List.mem_cons_self ..)
      have htail : ∀ c' ∈ clues, FitsEntry c' := fun c' hc' => h c' (List.mem_cons_of_mem _ hc')
      rw [List.flatMap_cons, decodeOmrClueList_cons hc, ih htail (by simpa using hfuel)]
      rfl

/-- Every entry has a byte at least. -/
theorem length_le_length_entries (clues : List (Option ℕ × Bytes)) :
    clues.length ≤ (clues.flatMap entryBytes).length := by
  induction clues with
  | nil => exact le_rfl
  | cons c clues ih =>
    simp only [List.flatMap_cons, List.length_append, List.length_cons, entryBytes,
      length_leBytes]
    omega

/-- The round trip of a clue list. -/
theorem decode_encodeOmrClueHints {clues : List (Option ℕ × Bytes)}
    (h : ∀ c ∈ clues, FitsEntry c) :
    decodeOmrClueHints (encodeOmrClueHints clues) = clues.map storedEntry := by
  have hmagic : omrClueListMagic.isPrefixOf (omrClueListMagic ++ clues.flatMap entryBytes) := by
    simp [List.isPrefixOf_iff_prefix]
  have hdrop : (omrClueListMagic ++ clues.flatMap entryBytes).drop 4 =
      clues.flatMap entryBytes := rfl
  rw [encodeOmrClueHints_eq h]
  unfold decodeOmrClueHints
  rw [if_pos hmagic, hdrop]
  apply decodeOmrClueList_entries h
  have hsize := length_le_length_entries clues
  simp only [List.length_append]
  omega

/-! ## What can be read -/

/-- An entry that was read fits, and its index is not the largest one. -/
structure ReadEntry (c : Option ℕ × Bytes) : Prop extends FitsEntry c where
  indexed : c.1 ≠ some u32Max

/-- An entry that was read is stored as it is. -/
theorem storedEntry_of_read {c : Option ℕ × Bytes} (h : ReadEntry c) : storedEntry c = c :=
  Prod.ext (storedIndex_of_ne h.indexed) rfl

/-- A list that is read has readable entries. -/
theorem readEntry_of_mem_decodeOmrClueList {fuel : ℕ} {rest : Bytes} {c : Option ℕ × Bytes}
    (h : c ∈ decodeOmrClueList fuel rest) : ReadEntry c := by
  induction fuel generalizing rest with
  | zero => simp [decodeOmrClueList] at h
  | succ fuel ih =>
    rw [decodeOmrClueList] at h
    by_cases hshort : rest.length < 8
    · simp [hshort] at h
    · by_cases hcut : rest.length < 8 + leValue ((rest.drop 4).take 4)
      · simp [hshort, hcut] at h
      · simp only [hshort, hcut, if_false, List.mem_cons] at h
        rcases h with rfl | h
        · have hidx := leValue_take_lt 4 rest
          have hlen := leValue_take_lt 4 (rest.drop 4)
          have hbound : (256 : ℕ) ^ 4 = u32Max + 1 := by decide
          refine ⟨⟨fun i hi => ?_, ?_⟩, ?_⟩
          · by_cases hmark : leValue (rest.take 4) = u32Max
            · simp [decodeIndex, hmark] at hi
            · simp only [decodeIndex, hmark, if_false, Option.some.injEq] at hi
              omega
          · have := List.length_take_le (leValue ((rest.drop 4).take 4)) (rest.drop 8)
            show ((rest.drop 8).take (leValue ((rest.drop 4).take 4))).length ≤ u32Max
            omega
          · by_cases hmark : leValue (rest.take 4) = u32Max
            · simp [decodeIndex, hmark]
            · simp [decodeIndex, hmark]
        · exact ih h

/-- A row that is read has readable entries. -/
theorem readEntry_of_mem_decode {stored : Bytes} {c : Option ℕ × Bytes}
    (h : c ∈ decodeOmrClueHints stored) : ReadEntry c := by
  unfold decodeOmrClueHints at h
  by_cases hmagic : omrClueListMagic.isPrefixOf stored = true
  · rw [if_pos hmagic] at h
    exact readEntry_of_mem_decodeOmrClueList h
  · simp [hmagic] at h

/-- Adding an entry to a list that was read adds that entry as it will be read. -/
theorem decode_encode_append {clues : List (Option ℕ × Bytes)} {c : Option ℕ × Bytes}
    (hclues : ∀ c' ∈ clues, ReadEntry c') (hc : FitsEntry c) :
    decodeOmrClueHints (encodeOmrClueHints (clues ++ [c])) = clues ++ [storedEntry c] := by
  have hfits : ∀ c' ∈ clues ++ [c], FitsEntry c' := by
    intro c' hc'
    rcases List.mem_append.mp hc' with hin | hin
    · exact (hclues c' hin).toFitsEntry
    · rwa [List.mem_singleton.mp hin]
  rw [decode_encodeOmrClueHints hfits, List.map_append]
  congr 1
  rw [List.map_congr_left (fun c' hc' => storedEntry_of_read (hclues c' hc')), List.map_id']

end LightWalletd
