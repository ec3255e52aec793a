import Mathlib.Data.List.Sort
import LightWalletd.Analysis.DigestCoverage
import LightWalletd.Analysis.DigestWire
import LightWalletd.Analysis.PartialDecryption

/-!
# Detection is exact

With an ideal encryption, the heights a client reads out of a digest are those of the clues
that are for it: the key is read back by the server, each chunk by the client, and the slot of
a clue is in range in all bits exactly if the clue is pertinent.
-/

set_option autoImplicit false

namespace LightWalletd

open SlotScheme Stateful

variable {S : BfvScheme}

/-- A label does not touch a result. -/
theorem labelled_ok {α : Type} (label : String) (a : α) : labelled label (.ok a) = .ok a := rfl

/-! ## The key -/

section Key

variable {sk : S.SecretKey} {pk : S.PublicKey}

/-- The coefficients a clue secret may have. -/
def Ternary (coeff : ℤ) : Prop := coeff = -1 ∨ coeff = 0 ∨ coeff = 1

/-- The slot of a coefficient is below the modulus. -/
theorem coeffSlot_lt {coeff : ℤ} (h : Ternary coeff) : coeffSlot coeff < clueQ := by
  obtain rfl | rfl | rfl := h <;> decide

/-- The slot of a coefficient is the coefficient in the ring. -/
theorem cast_coeffSlot {coeff : ℤ} (h : Ternary coeff) :
    (coeffSlot coeff : ZMod clueQ) = (coeff : ZMod clueQ) := by
  obtain rfl | rfl | rfl := h
  · rw [show coeffSlot (-1) = clueQ - 1 by decide, cast_complement (by decide)]
    simp
  · simp [coeffSlot]
  · rw [show coeffSlot 1 = 1 by decide]
    simp

/-- A ciphertext of two polynomials at level 0 is fresh. -/
theorem checkFreshCiphertext_ok {ct : S.Ciphertext} (hpoly : S.polynomials ct = 2)
    (hlevel : S.level ct = .ok 0) : checkFreshCiphertext ct = .ok () := by
  rw [checkFreshCiphertext, if_neg (not_not.mpr hpoly), hlevel]
  rfl

/-- A coefficient is written so that the server reads a ciphertext of it. -/
theorem keyFrame_ok (ideal : S.Ideal sk pk) {coeff : ℤ} (h : Ternary coeff) (r : S.Random) :
    ∃ bytes, keyFrame pk coeff r = .ok bytes ∧
      ∃ ct, Reads readKeyCt ct bytes ∧ CarriesCoeff sk coeff ct := by
  obtain ⟨pt, hpt, hencodes⟩ := ideal.encode _ (isSlots_replicate (coeffSlot_lt h))
  rw [slots_replicate, cast_coeffSlot h] at hencodes
  obtain ⟨ct, hct, hpoly, hcarries⟩ := ideal.encrypt pt _ r hencodes
  refine ⟨frame (S.toBytes ct), ?_, ct, ?_, hcarries⟩
  · rw [keyFrame, hpt, labelled_ok]
    show (labelled _ (S.encrypt pk pt r)).bind _ = _
    rw [hct]
    rfl
  · intro rest
    rw [readKeyCt, reads_frame _ _ (ideal.length_toBytes ct) rest]
    show (labelled _ (S.fromBytes (S.toBytes ct))).bind _ = _
    rw [ideal.fromBytes_toBytes, labelled_ok]
    show (labelled _ (checkFreshCiphertext ct)).bind _ = _
    rw [checkFreshCiphertext_ok hpoly hcarries.level]
    rfl

/-- The server reads the coefficients of the secret out of the key. -/
theorem buildDetectionKey_ok {client : UnifOmrClient S}
    (ideal : S.Ideal client.detSk client.detPk) (hs : client.clueSk.coeffs.length = clueN)
    (hternary : ∀ coeff ∈ client.clueSk.coeffs, Ternary coeff) (draws : ℕ → S.Random)
    (network : UInt8) :
    ∃ key cts, client.buildDetectionKey draws network = .ok key ∧
      parseDetectionKey key = .ok (network, cts) ∧
      List.Forall₂ (CarriesCoeff client.detSk) client.clueSk.coeffs cts := by
  obtain ⟨frames, hframes, hrel⟩ := mapM_ok fun p (hp : p ∈ client.clueSk.coeffs.zipIdx) =>
    keyFrame_ok ideal (hternary p.1 (List.fst_mem_of_mem_zipIdx hp)) (draws p.2)
  obtain ⟨cts, hreads, hcarries⟩ := exists_between hrel
  have hkey : List.Forall₂ (CarriesCoeff client.detSk) client.clueSk.coeffs cts := by
    have hmap := List.forall₂_map_left_iff (f := Prod.fst).mpr hcarries
    rwa [List.zipIdx_map_fst] at hmap
  have hcts : cts.length = clueN := by rw [← hkey.length_eq, hs]
  have hbody : readMany readKeyCt clueN frames.flatten = .ok (cts, []) := by
    have hmany := reads_many hreads []
    rwa [List.append_nil, hcts] at hmany
  have hn : leValue (leBytes 2 clueN) = clueN := leValue_leBytes_of_lt (by decide)
  refine ⟨[0x02, network, schemeUnifomr] ++ leBytes 2 clueN ++ frames.flatten, cts, ?_, ?_, hkey⟩
  · rw [UnifOmrClient.buildDetectionKey, hframes]
    rfl
  · have hlen : ¬ ([0x02, network, schemeUnifomr] ++ leBytes 2 clueN ++
        frames.flatten).length < 5 := by
      simp
    have htake : ((([0x02, network, schemeUnifomr] ++ leBytes 2 clueN ++
        frames.flatten).drop 3).take 2) = leBytes 2 clueN := rfl
    have hdrop : ([0x02, network, schemeUnifomr] ++ leBytes 2 clueN ++
        frames.flatten).drop 5 = frames.flatten := rfl
    unfold parseDetectionKey
    rw [if_neg hlen, if_neg (by simp), if_neg (by simp), htake, hn, hdrop]
    show (if clueN ≠ clueN then _ else _) = _
    rw [if_neg (by simp), hbody]
    rfl

end Key

/-! ## The digest -/

section Digest

variable {client : UnifOmrClient S} {cts : List S.Ciphertext}

open Classical in
/-- The slot of a clue: zero if it is for the wallet. -/
noncomputable def clueFlag (s : RlweSecretKey) (ct : RlweCiphertext) : ℕ :=
  if Pertinent s ct then 0 else clueQ / 2

/-- A pertinent clue has the flag 0. -/
theorem clueFlag_of_pertinent {s : RlweSecretKey} {ct : RlweCiphertext} (h : Pertinent s ct) :
    clueFlag s ct = 0 := if_pos h

/-- Any other clue has the flag in the middle of the ring. -/
theorem clueFlag_of_not_pertinent {s : RlweSecretKey} {ct : RlweCiphertext}
    (h : ¬ Pertinent s ct) : clueFlag s ct = clueQ / 2 := if_neg h

/-- The flag is in range exactly for a pertinent clue. -/
theorem inRange_clueFlag {s : RlweSecretKey} {ct : RlweCiphertext} :
    inRange (clueFlag s ct) = true ↔ Pertinent s ct := by
  by_cases h : Pertinent s ct
  · simp [clueFlag_of_pertinent h, h, inRange_zero]
  · simp [clueFlag_of_not_pertinent h, h, not_inRange_half]

/-- The slots of a chunk, filled up with slots that are out of range. -/
noncomputable def paddedFlags (s : RlweSecretKey) (chunk : List RlweCiphertext) : List ℕ :=
  chunk.map (clueFlag s) ++ List.replicate (packingDegree - chunk.length) (clueQ / 2)

/-- A chunk is filled up to the packing degree. -/
theorem length_slotClues {chunk : List RlweCiphertext} (h : chunk.length ≤ packingDegree) :
    (slotClues chunk).length = packingDegree := by
  rw [slotClues, List.length_append, List.length_map, List.length_replicate]
  omega

/-- What the client reads of one bit of a chunk. -/
structure BitSlots (s : RlweSecretKey) (clues : List SlotClue) (bit : ℕ) (v : List ℕ) : Prop where
  isSlots : IsSlots packingDegree clueQ v
  slots : slots packingDegree clueQ v = slotResidues (SlotClue.error s bit) clues

/-- The slot of a clue is in range if the bit of its error is. -/
theorem BitSlots.inRange_iff {s : RlweSecretKey} {clues : List SlotClue} {bit : ℕ} {v : List ℕ}
    (h : BitSlots s clues bit v) {i : ℕ} (hi : i < packingDegree) :
    inRange (v.getD i 0) = true ↔
      ((clues.getD i .impertinent).error s bit).valMinAbs.natAbs ≤ rPrime := by
  rw [LightWalletd.inRange_iff (h.isSlots.getD_lt hi)]
  have hslot := congrFun h.slots ⟨i, hi⟩
  rw [show ((v.getD i 0 : ℕ) : ZMod clueQ) = _ from hslot]
  rfl

/-- One bit of a chunk is written so that the client reads its errors. -/
theorem bitFrame_ok (ideal : S.Ideal client.detSk client.detPk)
    (hs : client.clueSk.coeffs.length = clueN)
    (hkey : List.Forall₂ (CarriesCoeff client.detSk) client.clueSk.coeffs cts)
    {clues : List SlotClue} (hlen : clues.length = packingDegree) {bit : ℕ} (hbit : bit < clueN) :
    ∃ bytes, bitFrame cts clues bit = .ok bytes ∧
      ∃ v, (Reads client.readDigestCt v bytes ∧ 4 ≤ bytes.length) ∧
        BitSlots client.clueSk clues bit v := by
  obtain ⟨ct, hct, hcarries⟩ := partialDecryptSimd_ok ideal hlen hbit hs hkey
  obtain ⟨low, hlow, pt, hpt, v, hv, hisSlots, hslots⟩ := ideal.switchDown _ _ hcarries
  refine ⟨frame (S.toBytes low), ?_, v, ⟨?_, by rw [length_frame]; omega⟩, hisSlots, hslots⟩
  · rw [bitFrame, hct]
    show ((S.switchDown ct).mapError _).bind _ = _
    rw [hlow]
    rfl
  · intro rest
    rw [UnifOmrClient.readDigestCt, reads_frame _ _ (ideal.length_toBytes low) rest]
    show (labelled _ (S.fromBytes (S.toBytes low))).bind _ = _
    rw [ideal.fromBytes_toBytes, labelled_ok]
    show (labelled _ (S.decrypt client.detSk low)).bind _ = _
    rw [hpt, labelled_ok]
    show (labelled _ (S.decode pt)).bind _ = _
    rw [hv, labelled_ok]
    show (if v.length < packingDegree then _ else _) = _
    rw [if_neg hisSlots.length.not_lt]
    rfl

/-- All bits together flag the clues that are for the wallet. -/
theorem chunkFlags_eq {s : RlweSecretKey} {chunk : List RlweCiphertext}
    (hchunk : chunk.length ≤ packingDegree) {bits : List (List ℕ)}
    (h : List.Forall₂ (BitSlots s (slotClues chunk)) (List.range cluePlaintextBits) bits) :
    chunkFlags bits = paddedFlags s chunk := by
  have hall : ∀ i < packingDegree, (bits.all fun v => inRange (v.getD i 0)) = true ↔
      ∀ k < cluePlaintextBits,
        (((slotClues chunk).getD i .impertinent).error s k).valMinAbs.natAbs ≤ rPrime := by
    intro i hi
    rw [all_iff_of_forall₂ (h.imp fun k v hv => hv.inRange_iff hi)]
    simp only [List.mem_range]
  have hlen : (paddedFlags s chunk).length = packingDegree := by
    rw [paddedFlags, List.length_append, List.length_map, List.length_replicate]
    omega
  apply List.ext_getElem
  · rw [hlen, chunkFlags, List.length_map, List.length_range]
  · intro i hi _
    have hi' : i < packingDegree := by simpa [chunkFlags] using hi
    simp only [chunkFlags, List.getElem_map, List.getElem_range]
    by_cases hclue : i < chunk.length
    · have hslot : (slotClues chunk).getD i .impertinent = .clue chunk[i] := by
        rw [slotClues, List.getD_append _ _ _ _ (by rwa [List.length_map]),
          List.getD_eq_getElem _ _ (by rwa [List.length_map]), List.getElem_map]
      have hflag : (paddedFlags s chunk)[i] = clueFlag s chunk[i] := by
        simp only [paddedFlags]
        rw [List.getElem_append_left (by rwa [List.length_map]), List.getElem_map]
      have hpertinent : (bits.all fun v => inRange (v.getD i 0)) = true ↔
          Pertinent s chunk[i] := by
        rw [hall i hi', hslot]
        rfl
      rw [hflag]
      by_cases h : Pertinent s chunk[i]
      · rw [clueFlag_of_pertinent h, if_pos (hpertinent.mpr h)]
      · rw [clueFlag_of_not_pertinent h, if_neg (fun hp => h (hpertinent.mp hp))]
    · have hslot : (slotClues chunk).getD i .impertinent = .impertinent := by
        rw [slotClues, List.getD_append_right _ _ _ _ (by rw [List.length_map]; omega),
          List.getD_replicate _ (by rw [List.length_map]; omega)]
      have hflag : (paddedFlags s chunk)[i] = clueQ / 2 := by
        simp only [paddedFlags]
        rw [List.getElem_append_right (by rw [List.length_map]; omega), List.getElem_replicate]
      rw [hflag, if_neg]
      rw [hall i hi', hslot]
      intro hrange
      have hhalf := (inRange_iff (show clueQ / 2 < clueQ by decide)).mpr (hrange 0 (by decide))
      rw [not_inRange_half] at hhalf
      exact Bool.false_ne_true hhalf

/-- A chunk is written so that the client reads its flags. -/
theorem chunkFrames_ok (ideal : S.Ideal client.detSk client.detPk)
    (hs : client.clueSk.coeffs.length = clueN)
    (hkey : List.Forall₂ (CarriesCoeff client.detSk) client.clueSk.coeffs cts)
    {chunk : List RlweCiphertext} (hchunk : chunk.length ≤ packingDegree) :
    ∃ bytes, chunkFrames cts chunk = .ok bytes ∧
      Reads client.readDigestChunk (paddedFlags client.clueSk chunk) bytes ∧
      cluePlaintextBits * 4 ≤ bytes.length := by
  have hbit : ∀ k ∈ List.range cluePlaintextBits, k < clueN := by
    intro k hk
    exact (List.mem_range.mp hk).trans (by decide)
  obtain ⟨frames, hframes, hrel⟩ := mapM_ok fun k hk =>
    bitFrame_ok ideal hs hkey (length_slotClues hchunk) (hbit k hk)
  obtain ⟨bits, hreads, hbits⟩ := exists_between hrel
  have hcount : bits.length = cluePlaintextBits := by rw [← hbits.length_eq, List.length_range]
  refine ⟨frames.flatten, ?_, ?_, ?_⟩
  · rw [chunkFrames, hframes]
    rfl
  · intro rest
    have hmany := reads_many (hreads.imp fun _ _ h => h.1) rest
    rw [hcount] at hmany
    rw [UnifOmrClient.readDigestChunk, hmany]
    show Except.ok (chunkFlags bits, rest) = _
    rw [chunkFlags_eq hchunk hbits]
  · rw [← hcount]
    exact mul_le_length_flatten (hreads.imp fun _ _ h => h.2)

/-- A digest is its chunks behind their number, written so that the client reads their flags. -/
theorem encodeMessages_frames (ideal : S.Ideal client.detSk client.detPk)
    (hs : client.clueSk.coeffs.length = clueN) {key : Bytes} {network : UInt8}
    (hparse : parseDetectionKey key = .ok (network, cts))
    (hkey : List.Forall₂ (CarriesCoeff client.detSk) client.clueSk.coeffs cts)
    (messages : List RlweCiphertext) :
    ∃ chunks, UnifOmrDetector.encodeMessages S ⟨network⟩ key messages =
        .ok ([digestFormatVersion] ++ leBytes 4 (divCeil messages.length packingDegree) ++
          chunks.flatten) ∧
      List.Forall₂ (fun flags bytes => Reads client.readDigestChunk flags bytes ∧
          cluePlaintextBits * 4 ≤ bytes.length)
        ((chunksOf packingDegree messages).map (paddedFlags client.clueSk)) chunks := by
  obtain ⟨chunks, hchunks, hrel⟩ := mapM_ok fun chunk
    (hchunk : chunk ∈ chunksOf packingDegree messages) =>
      chunkFrames_ok ideal hs hkey (length_le_of_mem_chunksOf hchunk)
  refine ⟨chunks, ?_, List.forall₂_map_left_iff.mpr hrel⟩
  unfold UnifOmrDetector.encodeMessages
  rw [hparse]
  show (if network ≠ network then _ else if cts.length ≠ clueN then _ else _) = _
  rw [if_neg (by simp), if_neg (by rw [← hkey.length_eq, hs]; simp), hchunks]
  rfl

/-- The client goes by the number of chunks that a digest gives. -/
theorem decryptDigestSlots_wire (count : ℕ) (body : Bytes) :
    client.decryptDigestSlots ([digestFormatVersion] ++ leBytes 4 count ++ body) =
      let chunkCount := leValue (leBytes 4 count)
      let maxChunks := divCeil maxOmrMessages packingDegree
      if maxChunks < chunkCount then
        .error ("digest chunk_count " ++ toString chunkCount ++ " exceeds max " ++
          toString maxChunks)
      else if body.length < chunkCount * (cluePlaintextBits * 4) then
        .error ("digest chunk_count " ++ toString chunkCount ++ " exceeds remaining " ++
          toString body.length ++ " bytes")
      else (readMany client.readDigestChunk chunkCount body).bind fun r =>
        if r.2 ≠ [] then .error "trailing digest bytes" else .ok r.1.flatten := by
  have hlong : ¬ ([digestFormatVersion] ++ leBytes 4 count ++ body).length < 5 := by
    simp
  have htake : (([digestFormatVersion] ++ leBytes 4 count ++ body).drop 1).take 4 =
      leBytes 4 count := rfl
  have hdrop : ([digestFormatVersion] ++ leBytes 4 count ++ body).drop 5 = body := rfl
  unfold UnifOmrClient.decryptDigestSlots
  simp only [htake, hdrop]
  rw [if_neg hlong, if_neg (by simp)]
  rfl

/-- The client opens the digest of a list of clues to their flags and padding. -/
theorem encodeMessages_ok (ideal : S.Ideal client.detSk client.detPk)
    (hs : client.clueSk.coeffs.length = clueN) {key : Bytes} {network : UInt8}
    (hparse : parseDetectionKey key = .ok (network, cts))
    (hkey : List.Forall₂ (CarriesCoeff client.detSk) client.clueSk.coeffs cts)
    {messages : List RlweCiphertext} (hcap : messages.length ≤ maxOmrMessages) :
    ∃ digest, UnifOmrDetector.encodeMessages S ⟨network⟩ key messages = .ok digest ∧
      client.decryptDigestSlots digest = .ok (messages.map (clueFlag client.clueSk) ++
        List.replicate (divCeil messages.length packingDegree * packingDegree - messages.length)
          (clueQ / 2)) := by
  obtain ⟨chunks, hencode, hrel⟩ := encodeMessages_frames ideal hs hparse hkey messages
  set count := divCeil messages.length packingDegree with hcount
  have hlen : (chunksOf packingDegree messages).length = count := length_chunksOf _ _
  have hmax : count ≤ divCeil maxOmrMessages packingDegree := divCeil_le_divCeil hcap
  have hbody := reads_many (hrel.imp fun _ _ h => h.1) []
  rw [List.append_nil, List.length_map, hlen] at hbody
  have hsize := mul_le_length_flatten (hrel.imp fun _ _ h => h.2)
  rw [List.length_map, hlen] at hsize
  have hn : leValue (leBytes 4 count) = count := by
    apply leValue_leBytes_of_lt
    exact hmax.trans_lt (by decide)
  refine ⟨_, hencode, ?_⟩
  rw [decryptDigestSlots_wire]
  simp only [hn]
  rw [if_neg (by omega), if_neg (by omega), hbody]
  show Except.ok _ = _
  rw [← List.flatMap_def]
  exact congrArg Except.ok (flatMap_chunksOf (by decide) _ _ _)

end Digest

/-! ## Matches -/

section Matches

variable {client : UnifOmrClient S}

/-- The flags of a list of clues, mapped to their heights. -/
theorem mem_matches (s : RlweSecretKey) (rows : List (ℕ × RlweCiphertext)) (padding : List ℕ)
    (h : ℕ) :
    h ∈ rangeCheckMatches ((rows.map Prod.snd).map (clueFlag s) ++ padding) (rows.map Prod.fst) ↔
      ∃ ct, (h, ct) ∈ rows ∧ Pertinent s ct := by
  have hzip : (rows.map Prod.fst).zip ((rows.map Prod.snd).map (clueFlag s) ++ padding) =
      rows.map fun r => (r.1, clueFlag s r.2) := by
    rw [← List.append_nil (rows.map Prod.fst), List.zip_append (by simp), List.map_map,
      List.zip_map', List.zip_nil_left, List.append_nil]
    rfl
  rw [mem_rangeCheckMatches, hzip]
  constructor
  · rintro ⟨raw, hmem, hraw⟩
    obtain ⟨⟨h', ct⟩, hrow, heq⟩ := List.mem_map.mp hmem
    obtain ⟨rfl, rfl⟩ := Prod.mk.inj heq
    exact ⟨ct, hrow, inRange_clueFlag.mp hraw⟩
  · rintro ⟨ct, hrow, hct⟩
    exact ⟨clueFlag s ct, List.mem_map.mpr ⟨(h, ct), hrow, rfl⟩, inRange_clueFlag.mpr hct⟩

/-- From the key of a client to its matches, over clues with their heights. -/
theorem detect_ok (ideal : S.Ideal client.detSk client.detPk)
    (hs : client.clueSk.coeffs.length = clueN)
    (hternary : ∀ coeff ∈ client.clueSk.coeffs, Ternary coeff) (draws : ℕ → S.Random)
    (network : UInt8) {rows : List (ℕ × RlweCiphertext)} (hcap : rows.length ≤ maxOmrMessages) :
    ∃ key digest flags, client.buildDetectionKey draws network = .ok key ∧
      UnifOmrDetector.encodeMessages S ⟨network⟩ key (rows.map Prod.snd) = .ok digest ∧
      client.decryptDigestSlots digest = .ok flags ∧
      (∀ h, h ∈ rangeCheckMatches flags (rows.map Prod.fst) ↔
        ∃ ct, (h, ct) ∈ rows ∧ Pertinent client.clueSk ct) ∧
      ∀ i flag, rows.length ≤ i → flags[i]? = some flag → inRange flag = false := by
  obtain ⟨key, cts, hbuild, hparse, hkey⟩ :=
    buildDetectionKey_ok ideal hs hternary draws network
  obtain ⟨digest, hencode, hdecrypt⟩ := encodeMessages_ok ideal hs hparse hkey
    (show (rows.map Prod.snd).length ≤ maxOmrMessages by rwa [List.length_map])
  refine ⟨key, digest, _, hbuild, hencode, hdecrypt, mem_matches _ _ _, ?_⟩
  intro i flag hi hflag
  rw [List.getElem?_append_right (by simpa using hi)] at hflag
  rw [List.eq_of_mem_replicate (List.mem_of_getElem? hflag), not_inRange_half]

/-- A list of clues as notes, one to a height. -/
def singleNotes (clues : List (ℕ × Bytes)) : List (ℕ × List ClueNote) :=
  clues.map fun c => (c.1, [⟨c.2⟩])

/-- The ring elements of a valid clue are those of its wire form. -/
theorem clueCiphertext?_of_valid {blake3 : Bytes → Bytes32} {clue : Bytes}
    (h : validateUnifomrClue blake3 clue = .ok ()) :
    ∃ ct, deserializeClue blake3 clue = .ok ct ∧ clueCiphertext? blake3 clue = some ct := by
  obtain ⟨-, -, ct, hct, -⟩ := inRange_of_validateUnifomrClue h
  refine ⟨ct, hct, ?_⟩
  unfold clueCiphertext?
  rw [h, hct]
  rfl

section Flattened

variable {blake3 : Bytes → Bytes32} {clues : List (ℕ × Bytes)}

/-- Every valid clue has a slot, with its height. -/
theorem heights_noteClues (h : ∀ c ∈ clues, validateUnifomrClue blake3 c.2 = .ok ()) :
    (noteClues blake3 (singleNotes clues)).map Prod.fst = clues.map Prod.fst := by
  induction clues with
  | nil => rfl
  | cons c clues ih =>
    obtain ⟨ct, -, hct⟩ := clueCiphertext?_of_valid (h c (List.mem_cons_self ..))
    rw [List.map_cons, ← ih fun c' hc' => h c' (List.mem_cons_of_mem _ hc')]
    simp [noteClues, singleNotes, hct]

/-- A ciphertext stands in the notes exactly where a clue decodes to it. -/
theorem mem_noteClues (hvalid : ∀ c ∈ clues, validateUnifomrClue blake3 c.2 = .ok ()) (h : ℕ)
    (ct : RlweCiphertext) : (h, ct) ∈ noteClues blake3 (singleNotes clues) ↔
      ∃ clue, (h, clue) ∈ clues ∧ deserializeClue blake3 clue = .ok ct := by
  have hiff : ∀ clue, (h, clue) ∈ clues →
      (clueCiphertext? blake3 clue = some ct ↔ deserializeClue blake3 clue = .ok ct) := by
    intro clue hclue
    obtain ⟨ct', hct', hsome⟩ := clueCiphertext?_of_valid (hvalid _ hclue)
    rw [hct', hsome, Option.some_inj, Except.ok.injEq]
  simp only [noteClues, singleNotes, List.mem_flatMap, List.mem_map, List.mem_filterMap]
  constructor
  · rintro ⟨n, ⟨c, hc, rfl⟩, ct', ⟨note, hnote, hct'⟩, heq⟩
    rw [List.mem_singleton] at hnote
    obtain ⟨rfl, rfl⟩ := Prod.mk.inj heq
    rw [hnote] at hct'
    exact ⟨c.2, hc, (hiff c.2 hc).mp hct'⟩
  · rintro ⟨clue, hclue, hct⟩
    exact ⟨_, ⟨(h, clue), hclue, rfl⟩, ct,
      ⟨⟨clue⟩, List.mem_singleton_self _, (hiff clue hclue).mpr hct⟩, rfl⟩

end Flattened

/-- The heights a client reads out of the digest of valid clues are, in ascending order and
each of them once, the heights of the clues that are for it. Padding is never in range. -/
theorem detection_exact (ideal : S.Ideal client.detSk client.detPk)
    (hs : client.clueSk.coeffs.length = clueN)
    (hternary : ∀ coeff ∈ client.clueSk.coeffs, Ternary coeff) (draws : ℕ → S.Random)
    (network : UInt8) (blake3 : Bytes → Bytes32) (clues : List (ℕ × Bytes))
    (hvalid : ∀ c ∈ clues, validateUnifomrClue blake3 c.2 = .ok ())
    (hcap : clues.length ≤ maxOmrMessages) :
    ∃ messages slotHeights key digest flags,
      flattenMessages blake3 (singleNotes clues) = (messages, slotHeights) ∧
      slotHeights = clues.map Prod.fst ∧
      client.buildDetectionKey draws network = .ok key ∧
      UnifOmrDetector.encodeMessages S ⟨network⟩ key messages = .ok digest ∧
      client.decryptDigestSlots digest = .ok flags ∧
      (rangeCheckMatches flags slotHeights).Pairwise (· < ·) ∧
      (∀ h, h ∈ rangeCheckMatches flags slotHeights ↔
        ∃ clue ct, (h, clue) ∈ clues ∧ deserializeClue blake3 clue = .ok ct ∧
          Pertinent client.clueSk ct) ∧
      ∀ i flag, clues.length ≤ i → flags[i]? = some flag → inRange flag = false := by
  set rows := noteClues blake3 (singleNotes clues)
  have hheights : rows.map Prod.fst = clues.map Prod.fst := heights_noteClues hvalid
  have hlen : rows.length = clues.length := by
    simpa using congrArg List.length hheights
  obtain ⟨key, digest, flags, hbuild, hencode, hdecrypt, hmatches, hpadding⟩ :=
    detect_ok ideal hs hternary draws network (hlen.trans_le hcap)
  refine ⟨rows.map Prod.snd, rows.map Prod.fst, key, digest, flags, flattenMessages_eq _, hheights,
    hbuild, hencode, hdecrypt, pairwise_rangeCheckMatches _ _, ?_, ?_⟩
  · intro h
    rw [hmatches]
    constructor
    · rintro ⟨ct, hrow, hct⟩
      obtain ⟨clue, hclue, hdes⟩ := (mem_noteClues hvalid h ct).mp hrow
      exact ⟨clue, ct, hclue, hdes, hct⟩
    · rintro ⟨clue, ct, hclue, hdes, hct⟩
      exact ⟨ct, (mem_noteClues hvalid h ct).mpr ⟨clue, hclue, hdes⟩, hct⟩
  · intro i flag hi
    exact hpadding i flag (hlen.trans_le hi)

end Matches

/-! ## A scheme without secrets -/

/-- The ideal scheme whose ciphertexts are the slots themselves. -/
def plainScheme (degree t : ℕ) : SlotScheme degree t where
  SecretKey := Unit
  PublicKey := Unit
  Plaintext := Fin degree → ZMod t
  Ciphertext := Fin degree → ZMod t
  Random := Unit
  encode v := if v.length ≤ degree then .ok (slots degree t v) else .error "TooManyValues"
  decode p := .ok (List.ofFn fun i => (p i).val)
  encrypt _ p _ := .ok p
  decrypt _ c := .ok c
  add c d := c + d
  subPlain c p := c - p
  mulPlain c p := c * p
  switchDown c := .ok c
  polynomials _ := 2
  level _ := .ok 0
  toBytes c := (List.ofFn fun i => (c i).val).flatMap (leBytes 8)
  fromBytes bytes := .ok (slots degree t (readWords degree bytes))

section Plain

variable {degree t : ℕ} [NeZero t]

/-- The slots of a list of values are the values. -/
theorem slots_ofFn (f : Fin degree → ZMod t) :
    slots degree t (List.ofFn fun i => (f i).val) = f := by
  funext i
  unfold slots
  rw [List.getD_eq_getElem _ _ (by rw [List.length_ofFn]; exact i.2), List.getElem_ofFn,
    ZMod.natCast_zmod_val]

/-- A list of values has its slots. -/
theorem isSlots_ofFn (f : Fin degree → ZMod t) :
    IsSlots degree t (List.ofFn fun i => (f i).val) := by
  constructor
  · rw [List.length_ofFn]
  · intro x hx
    obtain ⟨i, rfl⟩ := List.mem_ofFn.mp hx
    exact ZMod.val_lt _

/-- A plaintext of the plain scheme encodes itself. -/
theorem plainScheme_encodes (f : Fin degree → ZMod t) : (plainScheme degree t).Encodes f f :=
  ⟨_, rfl, isSlots_ofFn f, slots_ofFn f⟩

/-- A ciphertext of the plain scheme carries itself. -/
theorem plainScheme_carries (f : Fin degree → ZMod t) :
    (plainScheme degree t).Carries () f f := ⟨rfl, f, rfl, plainScheme_encodes f⟩

/-- It encodes nothing else. -/
theorem eq_of_encodes {p f : Fin degree → ZMod t} (h : (plainScheme degree t).Encodes p f) :
    p = f := by
  obtain ⟨v, hv, -, rfl⟩ := h
  rw [← Except.ok.inj hv, slots_ofFn]

/-- It carries nothing else. -/
theorem eq_of_carries {c f : Fin degree → ZMod t} (h : (plainScheme degree t).Carries () c f) :
    c = f := by
  obtain ⟨p, hp, hencodes⟩ := h.decrypts
  rw [show c = p from Except.ok.inj hp, eq_of_encodes hencodes]

/-- The slots are read back from their wire form. -/
theorem slots_wire (ht : t < 256 ^ 8) (f : Fin degree → ZMod t) :
    slots degree t (readWords degree ((List.ofFn fun i => (f i).val).flatMap (leBytes 8))) = f := by
  have hsmall : ∀ w ∈ List.ofFn fun i => (f i).val, w < 256 ^ 8 :=
    fun w hw => ((isSlots_ofFn f).lt w hw).trans ht
  have hwords := readWords_flatMap hsmall []
  rw [List.length_ofFn, List.append_nil] at hwords
  rw [hwords, slots_ofFn]

omit [NeZero t] in
/-- Its length in bytes. -/
theorem length_toBytes_plainScheme (c : Fin degree → ZMod t) :
    ((plainScheme degree t).toBytes c).length = 8 * degree := by
  show ((List.ofFn fun i => (c i).val).flatMap (leBytes 8)).length = _
  rw [length_flatMap_words, List.length_ofFn]

/-- The plain scheme is ideal. -/
theorem plainScheme_ideal (hdegree : 8 * degree < 2 ^ 32) (ht : t < 256 ^ 8) :
    (plainScheme degree t).Ideal () () where
  encode v hv := ⟨_, if_pos hv.length.le, plainScheme_encodes _⟩
  encrypt p f _ h := ⟨p, rfl, rfl, eq_of_encodes h ▸ plainScheme_carries p⟩
  add c d f g hc hd := by
    rw [← eq_of_carries hc, ← eq_of_carries hd]
    exact plainScheme_carries _
  subPlain c p f g hc hp := by
    rw [← eq_of_carries hc, ← eq_of_encodes hp]
    exact plainScheme_carries _
  mulPlain c p f g hc hp := by
    rw [← eq_of_carries hc, ← eq_of_encodes hp]
    exact plainScheme_carries _
  switchDown c f h := ⟨c, rfl, h.decrypts⟩
  fromBytes_toBytes c := congrArg Except.ok (slots_wire ht c)
  length_toBytes c := (length_toBytes_plainScheme c).trans_lt hdegree

end Plain

/-- A client whose clue secret is zero. -/
def zeroClient : UnifOmrClient (plainScheme packingDegree clueQ) :=
  ⟨(), (), ⟨List.replicate clueN 0⟩⟩

/-- A clue without error. -/
def zeroClue : RlweCiphertext := ⟨List.replicate clueN 0, List.replicate clueN 0⟩

/-- The words of the zero clue are in range. -/
theorem zeroClue_inRange : zeroClue.InRange := inRange_zeroCiphertext

/-- A clue whose error is half the modulus all over. -/
def foreignClue : RlweCiphertext := ⟨List.replicate clueN 0, List.replicate clueN (clueQ / 2)⟩

/-- So are those of the other clue. -/
theorem foreignClue_inRange : foreignClue.InRange where
  length_a := List.length_replicate
  length_b := List.length_replicate
  a_lt := inRange_zeroCiphertext.a_lt
  b_lt := by
    intro x hx
    rw [List.eq_of_mem_replicate hx]
    decide

/-- Nothing is subtracted for a secret of zeros. -/
theorem coeff_clueError_zeroClient (ct : RlweCiphertext) {k : ℕ} (hk : k < clueN) :
    (clueError zeroClient.clueSk ct).coeff k = ((ct.b.getD k 0 : ℕ) : ZMod clueQ) := by
  have hsecret : Negacyclic.ofCoeffs clueN
      (fun i => ((zeroClient.clueSk.coeffs.getD i 0 : ℤ) : ZMod clueQ)) = 0 := by
    refine (Negacyclic.ofCoeffs_congr fun i hi => ?_).trans
      (show Negacyclic.ofCoeffs clueN (fun _ => (0 : ZMod clueQ)) = 0 from ?_)
    · show (((List.replicate clueN (0 : ℤ)).getD i 0 : ℤ) : ZMod clueQ) = 0
      rw [List.getD_replicate 0 hi, Int.cast_zero]
    · ext k
      rw [Negacyclic.coeff_ofCoeffs, ite_self, Polynomial.coeff_zero]
  unfold clueError
  rw [hsecret, mul_zero, sub_zero, Negacyclic.coeff_ofCoeffs_modByMonic _ hk]

/-- The zero clue is for the wallet. -/
theorem pertinent_zeroClue : Pertinent zeroClient.clueSk zeroClue := by
  intro k hk
  have hlt : k < clueN := hk.trans (by decide)
  rw [coeff_clueError_zeroClient zeroClue hlt]
  show (((List.replicate clueN 0).getD k 0 : ℕ) : ZMod clueQ).valMinAbs.natAbs ≤ rPrime
  rw [List.getD_replicate 0 hlt, Nat.cast_zero, ZMod.valMinAbs_zero]
  exact Nat.zero_le _

/-- The other clue is not. -/
theorem not_pertinent_foreignClue : ¬ Pertinent zeroClient.clueSk foreignClue := by
  intro h
  have hzero : 0 < clueN := by decide
  have hfirst := h 0 (by decide)
  rw [coeff_clueError_zeroClient foreignClue hzero] at hfirst
  have hhalf : foreignClue.b.getD 0 0 = clueQ / 2 := List.getD_replicate _ hzero
  rw [hhalf, ← inRange_iff (by decide)] at hfirst
  revert hfirst
  decide

/-- A clue for the wallet, one that is not, and another one for it. -/
def mixedClues : List (ℕ × RlweCiphertext) := [(7, zeroClue), (8, foreignClue), (9, zeroClue)]

/-- All clues of the list are in range. -/
theorem mixedClues_inRange : ∀ c ∈ mixedClues, c.2.InRange := by
  intro c hc
  simp only [mixedClues, List.mem_cons, List.not_mem_nil, or_false] at hc
  obtain rfl | rfl | rfl := hc
  · exact zeroClue_inRange
  · exact foreignClue_inRange
  · exact zeroClue_inRange

/-- The wallet finds the first and the last one. -/
theorem detection_exact_mixedClues :
    let blake3 : Bytes → Bytes32 := fun _ => Bytes32.fill 0
    let clues := mixedClues.map fun c => (c.1, serializeClue blake3 c.2)
    ∃ messages slotHeights key digest flags,
      flattenMessages blake3 (singleNotes clues) = (messages, slotHeights) ∧
      zeroClient.buildDetectionKey (fun _ => ()) 1 = .ok key ∧
      UnifOmrDetector.encodeMessages (plainScheme packingDegree clueQ) ⟨1⟩ key messages =
        .ok digest ∧
      zeroClient.decryptDigestSlots digest = .ok flags ∧
      rangeCheckMatches flags slotHeights = [7, 9] := by
  intro blake3 clues
  have hclue : ∀ h clue, (h, clue) ∈ clues ↔
      ∃ ct, (h, ct) ∈ mixedClues ∧ serializeClue blake3 ct = clue := by
    intro h clue
    simp only [clues, List.mem_map, Prod.mk.injEq, Prod.exists]
    constructor
    · rintro ⟨h', ct, hct, rfl, rfl⟩
      exact ⟨ct, hct, rfl⟩
    · rintro ⟨ct, hct, rfl⟩
      exact ⟨h, ct, hct, rfl, rfl⟩
  have hlength : zeroClient.clueSk.coeffs.length = clueN := List.length_replicate
  have hternary : ∀ coeff ∈ zeroClient.clueSk.coeffs, Ternary coeff := fun _ h =>
    .inr (.inl (List.eq_of_mem_replicate h))
  have hvalid : ∀ c ∈ clues, validateUnifomrClue blake3 c.2 = .ok () := by
    intro c hc
    obtain ⟨ct, hct, heq⟩ := (hclue c.1 c.2).mp hc
    rw [← heq]
    exact validateUnifomrClue_serializeClue (mixedClues_inRange _ hct)
  obtain ⟨messages, slotHeights, key, digest, flags, hflat, -, hbuild, hencode, hdecrypt, hsorted,
      hiff, -⟩ :=
    detection_exact (plainScheme_ideal (by decide) (by decide)) hlength hternary (fun _ => ()) 1
      blake3 clues hvalid (by decide)
  refine ⟨messages, slotHeights, key, digest, flags, hflat, hbuild, hencode, hdecrypt, ?_⟩
  refine hsorted.eq_of_mem_iff (by decide) fun h => (hiff h).trans ?_
  constructor
  · rintro ⟨clue, ct, hmem, hdes, hct⟩
    obtain ⟨ct', hct', rfl⟩ := (hclue h clue).mp hmem
    rw [deserializeClue_serializeClue (mixedClues_inRange _ hct').onWire] at hdes
    cases hdes
    simp only [mixedClues, List.mem_cons, Prod.mk.injEq, List.not_mem_nil, or_false] at hct'
    obtain ⟨rfl, -⟩ | ⟨-, rfl⟩ | ⟨rfl, -⟩ := hct'
    · exact List.mem_cons_self ..
    · exact absurd hct not_pertinent_foreignClue
    · exact List.mem_cons_of_mem _ (List.mem_cons_self ..)
  · intro hmem
    have hzero : (h, zeroClue) ∈ mixedClues := by
      simp only [List.mem_cons, List.not_mem_nil, or_false] at hmem
      obtain rfl | rfl := hmem
      · exact List.mem_cons_self ..
      · exact List.mem_cons_of_mem _ (List.mem_cons_of_mem _ (List.mem_cons_self ..))
    exact ⟨_, zeroClue, (hclue h _).mpr ⟨zeroClue, hzero, rfl⟩,
      deserializeClue_serializeClue zeroClue_inRange.onWire, pertinent_zeroClue⟩

end LightWalletd
