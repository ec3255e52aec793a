import LightWalletd.Analysis.HintCodec
import LightWalletd.Model.Envelope

/-!
# The grammar of the envelope

What the parser of the envelope accepts is the tag, a memo and a clue behind their lengths, and
the raw transaction, in one way only. Stripping the envelope is parsing it, and no index is out of
range.
-/

set_option autoImplicit false

namespace LightWalletd

/-- The wire form of an envelope. -/
def OmrEnvelope.encode (e : OmrEnvelope) : Bytes :=
  omrEnvelopeTag ++ leBytes 2 e.omrMemo.length ++ e.omrMemo ++ leBytes 4 e.fheClue.length ++
    e.fheClue ++ e.rawTx

/-- The limits of an envelope. -/
structure OmrEnvelope.InLimits (e : OmrEnvelope) : Prop where
  memo_le : e.omrMemo.length ≤ maxOmrMemoBytes
  clue_le : e.fheClue.length ≤ maxFheClueBytes

variable {e : OmrEnvelope} {data : Bytes}

/-- The digits of a number at the front are read back. -/
theorem leValue_take_leBytes {n v : ℕ} (h : v < 256 ^ n) (rest : Bytes) :
    leValue ((leBytes n v ++ rest).take n) = v := by
  rw [List.take_append_of_le_length (by rw [length_leBytes]),
    List.take_of_length_le (by rw [length_leBytes]), leValue_leBytes_of_lt h]

/-- An envelope is read back from its wire form. -/
theorem parseEnvelope_encode (h : e.InLimits) : parseEnvelope e.encode = some e := by
  have hmemo := h.memo_le
  have hclue := h.clue_le
  unfold maxOmrMemoBytes at hmemo
  unfold maxFheClueBytes at hclue
  set afterMemo := leBytes 4 e.fheClue.length ++ (e.fheClue ++ e.rawTx) with hafterMemo
  have hlength : e.encode.length = 8 + e.omrMemo.length + e.fheClue.length + e.rawTx.length := by
    unfold OmrEnvelope.encode omrEnvelopeTag
    simp only [List.length_append, length_leBytes, List.length_cons, List.length_nil]
    omega
  have htag : omrEnvelopeTag.isPrefixOf e.encode = true := by
    unfold OmrEnvelope.encode
    simp
  have htwo : e.encode.drop 2 = leBytes 2 e.omrMemo.length ++ (e.omrMemo ++ afterMemo) := by
    unfold OmrEnvelope.encode
    simp only [List.append_assoc, hafterMemo]
    rfl
  have hfour : e.encode.drop 4 = e.omrMemo ++ afterMemo := by
    rw [show 4 = 2 + 2 by rfl, ← List.drop_drop, htwo, List.drop_left' (length_leBytes 2 _)]
  have hend : e.encode.drop (4 + e.omrMemo.length) = afterMemo := by
    rw [← List.drop_drop, hfour, List.drop_left]
  have hstart : e.encode.drop (4 + e.omrMemo.length + 4) = e.fheClue ++ e.rawTx := by
    rw [← List.drop_drop, hend, hafterMemo, List.drop_left' (length_leBytes 4 _)]
  have hraw : e.encode.drop (4 + e.omrMemo.length + 4 + e.fheClue.length) = e.rawTx := by
    rw [← List.drop_drop, hstart, List.drop_left]
  have hmemoLen : leValue ((e.encode.drop 2).take 2) = e.omrMemo.length := by
    rw [htwo, leValue_take_leBytes (by omega)]
  have hclueLen : leValue ((e.encode.drop (4 + e.omrMemo.length)).take 4) = e.fheClue.length := by
    rw [hend, hafterMemo, leValue_take_leBytes (by omega)]
  unfold parseEnvelope maxOmrMemoBytes maxFheClueBytes
  rw [if_neg (by omega), htag, Bool.not_true, if_neg Bool.false_ne_true]
  dsimp only
  rw [hmemoLen, if_neg (by omega), if_neg (by omega), hclueLen, if_neg (by omega),
    if_neg (by omega), hfour, hstart, hraw, List.take_left, List.take_left]

/-- What is read has the wire form it was read from. -/
theorem encode_of_parseEnvelope (h : parseEnvelope data = some e) :
    data = e.encode ∧ e.InLimits := by
  unfold parseEnvelope at h
  dsimp only at h
  split_ifs at h with hshort htag hmemo hmemoEnd hclue hclueEnd
  cases h
  set memoLen := leValue ((data.drop 2).take 2) with hmemoLen
  set clueLen := leValue ((data.drop (4 + memoLen)).take 4) with hclueLen
  have hlengths : ((data.drop 4).take memoLen).length = memoLen ∧
      ((data.drop (4 + memoLen + 4)).take clueLen).length = clueLen := by
    simp only [List.length_take, List.length_drop]
    omega
  have htagged : omrEnvelopeTag = data.take 2 := by
    rw [Bool.not_eq_true, Bool.not_eq_false', List.isPrefixOf_iff_prefix] at htag
    exact List.prefix_iff_eq_take.mp htag
  have hdigits : leBytes 2 memoLen = (data.drop 2).take 2 ∧
      leBytes 4 clueLen = (data.drop (4 + memoLen)).take 4 := by
    have htwo := leBytes_leValue ((data.drop 2).take 2)
    have hfour := leBytes_leValue ((data.drop (4 + memoLen)).take 4)
    rw [List.length_take, List.length_drop, Nat.min_eq_left (by omega)] at htwo hfour
    exact ⟨htwo, hfour⟩
  constructor
  · unfold OmrEnvelope.encode
    dsimp only
    rw [hlengths.1, hlengths.2, hdigits.1, hdigits.2, htagged, ← List.take_add, ← List.take_add,
      ← List.take_add, ← List.take_add, List.take_append_drop]
  · exact ⟨hlengths.1.trans_le (not_lt.mp hmemo), hlengths.2.trans_le (not_lt.mp hclue)⟩

/-! ## Indices -/

/-- A slice within bounds. -/
theorem slice_eq {lo hi : ℕ} (h : lo ≤ hi ∧ hi ≤ data.length) :
    Indexed.slice data lo hi = some ((data.drop lo).take (hi - lo)) := if_pos h

/-- The tag is found by its two bytes. -/
theorem tagged_eq (h : 2 ≤ data.length) :
    Indexed.tagged data = some (omrEnvelopeTag.isPrefixOf data) := by
  obtain _ | ⟨first, _ | ⟨second, rest⟩⟩ := data
  · simp at h
  · simp at h
  · unfold Indexed.tagged Indexed.byteAt omrEnvelopeTag
    by_cases hfirst : first = 79
    · by_cases hsecond : second = 50
      · simp [hfirst, hsecond]
      · simp [List.isPrefixOf, hfirst, hsecond, Ne.symm hsecond]
    · simp [List.isPrefixOf, hfirst, Ne.symm hfirst]

/-- The two length bytes of an envelope. -/
theorem memoLen_eq (data : Bytes) (h : 4 ≤ data.length) :
    ∃ low high, Indexed.byteAt data 2 = some low ∧ Indexed.byteAt data 3 = some high ∧
      leValue [low, high] = leValue ((data.drop 2).take 2) := by
  obtain _ | ⟨b₀, _ | ⟨b₁, _ | ⟨low, _ | ⟨high, rest⟩⟩⟩⟩ := data
  · simp at h
  · simp at h
  · simp at h
  · simp at h
  · exact ⟨low, high, rfl, rfl, rfl⟩

/-- No index of the parser is out of range. -/
theorem indexed_parseEnvelope (data : Bytes) :
    Indexed.parseEnvelope data = some (parseEnvelope data) := by
  unfold Indexed.parseEnvelope parseEnvelope
  by_cases hshort : data.length < 5
  · rw [if_pos hshort, if_pos hshort]
    rfl
  rw [if_neg hshort, if_neg hshort, tagged_eq (by omega)]
  cases htag : omrEnvelopeTag.isPrefixOf data with
  | false => rfl
  | true =>
    obtain ⟨low, high, hlow, hhigh, hmemoLen⟩ := memoLen_eq data (by omega)
    show Indexed.parseO2 data = _
    unfold Indexed.parseO2
    rw [hlow, hhigh]
    simp only [bind, Option.bind, hmemoLen, Bool.not_true, if_neg Bool.false_ne_true]
    set memoLen := leValue ((data.drop 2).take 2)
    by_cases hmemo : maxOmrMemoBytes < memoLen
    · rw [if_pos hmemo, if_pos hmemo]
      rfl
    rw [if_neg hmemo, if_neg hmemo]
    by_cases hmemoEnd : data.length < 4 + memoLen + 4
    · rw [if_pos hmemoEnd, if_pos hmemoEnd]
      rfl
    rw [if_neg hmemoEnd, if_neg hmemoEnd, slice_eq (by omega), Nat.add_sub_cancel_left]
    dsimp only
    set clueLen := leValue ((data.drop (4 + memoLen)).take 4)
    by_cases hclue : maxFheClueBytes < clueLen
    · rw [if_pos hclue, if_pos hclue]
      rfl
    rw [if_neg hclue, if_neg hclue]
    have hsum : ¬ u64Max < 4 + memoLen + 4 + clueLen := by
      unfold maxOmrMemoBytes at hmemo
      unfold maxFheClueBytes at hclue
      unfold u64Max
      omega
    rw [if_neg hsum]
    by_cases hclueEnd : data.length < 4 + memoLen + 4 + clueLen
    · rw [if_pos hclueEnd, if_pos hclueEnd]
      rfl
    rw [if_neg hclueEnd, if_neg hclueEnd, slice_eq (by omega), slice_eq (by omega),
      slice_eq (by omega), Nat.add_sub_cancel_left, Nat.add_sub_cancel_left]
    have hrest : (data.drop (4 + memoLen + 4 + clueLen)).take
        (data.length - (4 + memoLen + 4 + clueLen)) = data.drop (4 + memoLen + 4 + clueLen) :=
      List.take_of_length_le (by rw [List.length_drop])
    rw [hrest]
    rfl

/-- Stripping the envelope is parsing it where the tag is, and no index is out of range. -/
theorem indexed_stripEnvelope (data : Bytes) : Indexed.stripEnvelope data =
    some (if omrEnvelopeTag <+: data then (parseEnvelope data).map OmrEnvelope.rawTx
      else some data) := by
  unfold Indexed.stripEnvelope
  by_cases hshort : data.length < 2
  · have htag : ¬ omrEnvelopeTag <+: data := fun h => Nat.not_le_of_lt hshort h.length_le
    rw [if_pos hshort, if_neg htag]
    rfl
  rw [if_neg hshort, tagged_eq (by omega), indexed_parseEnvelope]
  cases htag : omrEnvelopeTag.isPrefixOf data with
  | false =>
    have hnot : ¬ omrEnvelopeTag <+: data := by
      rw [← List.isPrefixOf_iff_prefix, htag]
      exact Bool.false_ne_true
    rw [if_neg hnot]
    rfl
  | true =>
    rw [if_pos (List.isPrefixOf_iff_prefix.mp htag)]
    rfl

/-! ## The grammar -/

/-- The parser accepts the wire forms of envelopes in the limits, each in one way; stripping is
parsing where the tag is; no index is out of range. -/
theorem envelope_grammar :
    (∀ d e, parseEnvelope d = some e ↔ d = e.encode ∧ e.InLimits) ∧
    (∀ e e' : OmrEnvelope, e.InLimits → e'.InLimits → e.encode = e'.encode → e = e') ∧
    (∀ e : OmrEnvelope, e.InLimits → parseEnvelope e.encode = some e) ∧
    (∀ d, Indexed.stripEnvelope d =
      some (if omrEnvelopeTag <+: d then (parseEnvelope d).map OmrEnvelope.rawTx else some d)) ∧
    ∀ d, Indexed.parseEnvelope d = some (parseEnvelope d) := by
  refine ⟨?_, ?_, ?_, indexed_stripEnvelope, indexed_parseEnvelope⟩
  · intro d e
    constructor
    · exact encode_of_parseEnvelope
    · rintro ⟨rfl, h⟩
      exact parseEnvelope_encode h
  · intro e e' h h' hencode
    have hparsed := parseEnvelope_encode h
    rw [hencode, parseEnvelope_encode h'] at hparsed
    exact (Option.some.inj hparsed).symm
  · intro e h
    exact parseEnvelope_encode h

/-- An envelope of a clue, an encrypted part and a transaction of two bytes. -/
theorem envelope_grammar_small :
    parseEnvelope [79, 50, 1, 0, 7, 1, 0, 0, 0, 9, 5, 6] = some ⟨[7], [9], [5, 6]⟩ ∧
    Indexed.stripEnvelope [79, 50, 1, 0, 7, 1, 0, 0, 0, 9, 5, 6] = some (some [5, 6]) := by
  obtain ⟨-, -, hread, hstrip, -⟩ := envelope_grammar
  have hparse := hread ⟨[7], [9], [5, 6]⟩ ⟨by decide, by decide⟩
  refine ⟨hparse, ?_⟩
  rw [hstrip, if_pos (by decide)]
  exact congrArg some (congrArg (Option.map OmrEnvelope.rawTx) hparse)

end LightWalletd
