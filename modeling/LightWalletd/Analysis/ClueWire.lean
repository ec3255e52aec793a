import LightWalletd.Analysis.HintCodec
import LightWalletd.Model.Unifomr

/-!
# Clues on the wire

A clue is read back from its wire form, and what is read has this wire form: the two are inverse
to each other. What passes validation is the wire form of a clue in range.
-/

set_option autoImplicit false

namespace LightWalletd

/-- The words of a list are read back, whatever follows them. -/
theorem readWords_flatMap {words : List ℕ} (h : ∀ w ∈ words, w < 256 ^ 8) (rest : Bytes) :
    readWords words.length (words.flatMap (leBytes 8) ++ rest) = words := by
  induction words with
  | nil => rfl
  | cons w words ih =>
    have hw := h w (List.mem_cons_self ..)
    have hfirst : (leBytes 8 w ++ (words.flatMap (leBytes 8) ++ rest)).take 8 = leBytes 8 w := rfl
    have hothers : (leBytes 8 w ++ (words.flatMap (leBytes 8) ++ rest)).drop 8 =
        words.flatMap (leBytes 8) ++ rest := rfl
    rw [List.flatMap_cons, List.append_assoc, List.length_cons, readWords, hfirst, hothers,
      leValue_leBytes_of_lt hw, ih fun w' hw' => h w' (List.mem_cons_of_mem _ hw')]

/-- The length of words in bytes. -/
theorem length_flatMap_words (words : List ℕ) :
    (words.flatMap (leBytes 8)).length = 8 * words.length := by
  induction words with
  | nil => rfl
  | cons w words ih =>
    rw [List.flatMap_cons, List.length_append, length_leBytes, ih, List.length_cons]
    omega

/-- Reading `n` words gives `n` words. -/
@[simp] theorem length_readWords (n : ℕ) (bytes : Bytes) : (readWords n bytes).length = n := by
  induction n generalizing bytes with
  | zero => rfl
  | succ n ih => rw [readWords, List.length_cons, ih]

/-- A word that is read fits its bytes. -/
theorem readWords_lt {n w : ℕ} {bytes : Bytes} (hw : w ∈ readWords n bytes) : w < 256 ^ 8 := by
  induction n generalizing bytes with
  | zero => cases hw
  | succ n ih =>
    obtain rfl | hw := List.mem_cons.mp hw
    · exact leValue_take_lt 8 bytes
    · exact ih hw

/-- The words that are read have the bytes they were read from. -/
theorem flatMap_readWords {n : ℕ} {bytes : Bytes} (h : 8 * n ≤ bytes.length) :
    (readWords n bytes).flatMap (leBytes 8) = bytes.take (8 * n) := by
  induction n generalizing bytes with
  | zero => rfl
  | succ n ih =>
    have hfirst : leBytes 8 (leValue (bytes.take 8)) = bytes.take 8 := by
      have hdigits := leBytes_leValue (bytes.take 8)
      rwa [List.length_take, Nat.min_eq_left (by omega)] at hdigits
    rw [readWords, List.flatMap_cons, hfirst, ih (by rw [List.length_drop]; omega),
      show 8 * (n + 1) = 8 + 8 * n by omega, List.take_add]

/-- A clue whose wire form says what it is: the dimension is one of those that are read, and the
coefficients are `u64`. -/
structure RlweCiphertext.OnWire (ct : RlweCiphertext) : Prop where
  length_b : ct.b.length = ct.a.length
  pos : 1 ≤ ct.a.length
  le : ct.a.length ≤ 4096
  a_lt : ∀ x ∈ ct.a, x < 256 ^ 8
  b_lt : ∀ x ∈ ct.b, x < 256 ^ 8

/-- A clue as `validateUnifomrClue` wants it. -/
structure RlweCiphertext.InRange (ct : RlweCiphertext) : Prop where
  length_a : ct.a.length = clueN
  length_b : ct.b.length = clueN
  a_lt : ∀ x ∈ ct.a, x < clueQ
  b_lt : ∀ x ∈ ct.b, x < clueQ

/-- A clue of zeros. -/
def zeroCiphertext : RlweCiphertext := ⟨List.replicate clueN 0, List.replicate clueN 0⟩

/-- The zero ciphertext is in range. -/
theorem inRange_zeroCiphertext : zeroCiphertext.InRange where
  length_a := List.length_replicate
  length_b := List.length_replicate
  a_lt := by
    intro x hx
    rw [List.eq_of_mem_replicate hx]
    decide
  b_lt := by
    intro x hx
    rw [List.eq_of_mem_replicate hx]
    decide

variable {blake3 : Bytes → Bytes32} {ct : RlweCiphertext}

/-- The checksum has four bytes. -/
theorem length_clueChecksum (body : Bytes) : (clueChecksum blake3 body).length = 4 := by
  rw [clueChecksum, List.length_take, (blake3 body).2]
  rfl

/-- Words in range fit their bytes. -/
theorem RlweCiphertext.InRange.onWire (h : ct.InRange) : ct.OnWire where
  length_b := h.length_b.trans h.length_a.symm
  pos := by
    rw [h.length_a]
    decide
  le := by
    rw [h.length_a]
    decide
  a_lt := fun x hx => (h.a_lt x hx).trans (by decide)
  b_lt := fun x hx => (h.b_lt x hx).trans (by decide)

/-- The length of a serialised clue. -/
theorem length_serializeClue (blake3 : Bytes → Bytes32) (h : ct.OnWire) :
    (serializeClue blake3 ct).length = 4 + 16 * ct.a.length + 4 := by
  unfold serializeClue
  simp only [List.length_append, length_clueChecksum, length_flatMap_words, length_leBytes,
    h.length_b, List.length_cons, List.length_nil]
  omega

/-- The wire form of a clue is read back. -/
theorem deserializeClue_serializeClue (h : ct.OnWire) :
    deserializeClue blake3 (serializeClue blake3 ct) = .ok ct := by
  set n := ct.a.length with hndef
  set words := ct.a.flatMap (leBytes 8) ++ ct.b.flatMap (leBytes 8) with hwords
  set body : Bytes := [clueVersion, schemeUnifomr] ++ leBytes 2 n ++ words with hbody
  have hwire : serializeClue blake3 ct = body ++ clueChecksum blake3 body := by
    unfold serializeClue
    simp only [hbody, hwords, List.append_assoc, hndef]
  have hpos := h.pos
  have hle := h.le
  have hlen := length_serializeClue blake3 h
  rw [hwire, ← hndef] at hlen
  have hbodyLen : body.length = 4 + 16 * n := by
    rw [List.length_append, length_clueChecksum] at hlen
    omega
  rw [hwire]
  have hn : leValue (((body ++ clueChecksum blake3 body).drop 2).take 2) = n := by
    have hsmall : n < 256 ^ 2 := by omega
    rw [← leValue_leBytes_of_lt hsmall]
    rfl
  have ha : readWords n ((body ++ clueChecksum blake3 body).drop 4) = ct.a := by
    have hdrop : (body ++ clueChecksum blake3 body).drop 4 = ct.a.flatMap (leBytes 8) ++
        (ct.b.flatMap (leBytes 8) ++ clueChecksum blake3 body) := by
      rw [← List.append_assoc, ← hwords]
      rfl
    rw [hdrop]
    exact readWords_flatMap h.a_lt _
  have hb : readWords n ((body ++ clueChecksum blake3 body).drop (4 + 8 * n)) = ct.b := by
    have hdrop : (body ++ clueChecksum blake3 body).drop (4 + 8 * n) =
        ct.b.flatMap (leBytes 8) ++ clueChecksum blake3 body := by
      have hlenA : (ct.a.flatMap (leBytes 8)).length = 8 * n := length_flatMap_words ct.a
      have hfour : (body ++ clueChecksum blake3 body).drop 4 = ct.a.flatMap (leBytes 8) ++
          (ct.b.flatMap (leBytes 8) ++ clueChecksum blake3 body) := by
        rw [← List.append_assoc, ← hwords]
        rfl
      rw [← List.drop_drop, hfour, ← hlenA, List.drop_left]
    rw [hdrop, hndef, ← h.length_b]
    exact readWords_flatMap h.b_lt _
  have hversion : (body ++ clueChecksum blake3 body).getD 0 0 = clueVersion := rfl
  have hscheme : (body ++ clueChecksum blake3 body).getD 1 0 = schemeUnifomr := rfl
  have hcut : (body ++ clueChecksum blake3 body).length - 4 = body.length := by omega
  unfold deserializeClue
  rw [if_neg (by omega)]
  simp only [hversion, hscheme, hn, hcut, ne_eq, not_true_eq_false, if_false, List.take_left,
    List.drop_left, ha, hb]
  rw [if_neg (by omega), if_neg (by omega)]

/-- The wire form of a clue passes validation. -/
theorem validateUnifomrClue_serializeClue (h : ct.InRange) :
    validateUnifomrClue blake3 (serializeClue blake3 ct) = .ok () := by
  have hlen := length_serializeClue blake3 h.onWire
  rw [h.length_a] at hlen
  have hne : (serializeClue blake3 ct).isEmpty = false := by
    rw [List.isEmpty_eq_false_iff, ← List.length_pos_iff, hlen]
    decide
  have hrange : ((ct.a ++ ct.b).any fun x => decide (clueQ ≤ x)) = false := by
    rw [List.any_eq_false]
    intro x hx
    rcases List.mem_append.mp hx with hx | hx
    · simpa using h.a_lt x hx
    · simpa using h.b_lt x hx
  unfold validateUnifomrClue
  rw [hne, if_neg Bool.false_ne_true, hlen, if_neg (by decide),
    deserializeClue_serializeClue h.onWire]
  show (if ct.a.length ≠ clueN ∨ ct.b.length ≠ clueN then _ else _) = _
  rw [if_neg (by simp [h.length_a, h.length_b]), hrange, if_neg Bool.false_ne_true]

/-- What passes validation is a clue in range, in wire form. -/
theorem inRange_of_validateUnifomrClue {clue : Bytes}
    (h : validateUnifomrClue blake3 clue = .ok ()) :
    clue ≠ [] ∧ clue.length ≤ unifomrMaxClueSize ∧
      ∃ ct, deserializeClue blake3 clue = .ok ct ∧ ct.InRange := by
  unfold validateUnifomrClue at h
  split_ifs at h with hempty hlarge
  refine ⟨by simpa using hempty, by omega, ?_⟩
  cases hct : deserializeClue blake3 clue with
  | error e =>
    rw [hct] at h
    cases h
  | ok ct =>
    rw [hct] at h
    change (if ct.a.length ≠ clueN ∨ ct.b.length ≠ clueN then _ else _) = _ at h
    split_ifs at h with hdim hrange
    push Not at hdim
    rw [Bool.not_eq_true, List.any_eq_false] at hrange
    refine ⟨ct, rfl, hdim.1, hdim.2, fun x hx => ?_, fun x hx => ?_⟩
    · simpa using hrange x (List.mem_append_left _ hx)
    · simpa using hrange x (List.mem_append_right _ hx)

/-- What is read has the wire form it was read from. -/
theorem serializeClue_of_deserializeClue {bytes : Bytes}
    (h : deserializeClue blake3 bytes = .ok ct) : serializeClue blake3 ct = bytes ∧ ct.OnWire := by
  unfold deserializeClue at h
  dsimp only at h
  split_ifs at h with hshort hversion hscheme hdim hlen hchecksum
  cases h
  set n := leValue ((bytes.drop 2).take 2) with hn
  have hheader : [clueVersion, schemeUnifomr] ++ leBytes 2 n = bytes.take 4 := by
    obtain _ | ⟨version, _ | ⟨scheme, rest⟩⟩ := bytes
    · simp at hshort
    · simp at hshort
    · have hdigits := leBytes_leValue (rest.take 2)
      have htwo : (rest.take 2).length = 2 := by
        rw [List.length_cons, List.length_cons] at hshort
        rw [List.length_take]
        omega
      rw [htwo] at hdigits
      rw [hn, ← not_not.mp hversion, ← not_not.mp hscheme]
      show version :: scheme :: leBytes 2 (leValue (rest.take 2)) = _
      rw [hdigits]
      rfl
  have hbody : [clueVersion, schemeUnifomr] ++
      leBytes 2 (readWords n (bytes.drop 4)).length ++
      (readWords n (bytes.drop 4)).flatMap (leBytes 8) ++
      (readWords n (bytes.drop (4 + 8 * n))).flatMap (leBytes 8) =
        bytes.take (bytes.length - 4) := by
    rw [length_readWords, hheader, flatMap_readWords (by rw [List.length_drop]; omega),
      flatMap_readWords (by rw [List.length_drop]; omega), ← List.take_add, ← List.take_add]
    congr 1
    omega
  constructor
  · unfold serializeClue
    dsimp only
    rw [hbody, not_not.mp hchecksum, List.take_append_drop]
  · push Not at hdim
    refine ⟨?_, ?_, ?_, fun x => readWords_lt, fun x => readWords_lt⟩
    · rw [length_readWords, length_readWords]
    · rw [length_readWords]
      omega
    · rw [length_readWords]
      omega

/-- Validation accepts the wire forms of clues in range; reading and writing are inverse to each
other on the clues that are read. -/
theorem clue_grammar (blake3 : Bytes → Bytes32) :
    (∀ c, validateUnifomrClue blake3 c = .ok () ↔
      ∃ ct : RlweCiphertext, ct.InRange ∧ c = serializeClue blake3 ct) ∧
    (∀ ct : RlweCiphertext, ct.OnWire → deserializeClue blake3 (serializeClue blake3 ct) = .ok ct) ∧
    ∀ c ct, deserializeClue blake3 c = .ok ct → serializeClue blake3 ct = c := by
  refine ⟨?_, ?_, ?_⟩
  · intro c
    constructor
    · intro h
      obtain ⟨-, -, ct, hct, hrange⟩ := inRange_of_validateUnifomrClue h
      exact ⟨ct, hrange, (serializeClue_of_deserializeClue hct).1.symm⟩
    · rintro ⟨ct, hrange, rfl⟩
      exact validateUnifomrClue_serializeClue hrange
  · intro ct h
    exact deserializeClue_serializeClue h
  · intro c ct h
    exact (serializeClue_of_deserializeClue h).1

/-- The zero clue is valid and decodes to the zero ciphertext. -/
theorem clue_grammar_zero :
    validateUnifomrClue (fun _ => .fill 0) (serializeClue (fun _ => .fill 0) zeroCiphertext) =
      .ok () ∧
    deserializeClue (fun _ => .fill 0) (serializeClue (fun _ => .fill 0) zeroCiphertext) =
      .ok zeroCiphertext := by
  obtain ⟨hvalid, hread, -⟩ := clue_grammar fun _ => .fill 0
  constructor
  · exact (hvalid _).mpr ⟨zeroCiphertext, inRange_zeroCiphertext, rfl⟩
  · exact hread zeroCiphertext inRange_zeroCiphertext.onWire

end LightWalletd
