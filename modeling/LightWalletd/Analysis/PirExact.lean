import LightWalletd.Analysis.DetectionExact
import LightWalletd.Analysis.PirLimbs

/-!
# Retrieval is exact

With an ideal encryption a client that fetches enough columns gets the payloads of its rows:
the selection of every stripe is multiplied with the stripe's part of a column, and the stripes
are put together again, so that a column comes back with all other rows set to zero.
-/

set_option autoImplicit false

namespace LightWalletd

open SlotScheme BatchPirClient Stateful

variable {S : BfvScheme} {client : BatchPirClient S}

/-! ## Stripes -/

section Stripes

/-- The stripes reach to the end of the window. -/
theorem le_sealpirStripeCount_mul (windowSize : ℕ) :
    windowSize ≤ sealpirStripeCount windowSize packingDegree * packingDegree := by
  have hceil := le_divCeil_mul (n := packingDegree) (by decide) windowSize
  unfold sealpirStripeCount
  split_ifs with h
  · omega
  · apply hceil.trans
    exact Nat.mul_le_mul_right _ (le_max_left _ _)

/-- There is a stripe at least. -/
theorem sealpirStripeCount_pos (windowSize : ℕ) :
    0 < sealpirStripeCount windowSize packingDegree := by
  unfold sealpirStripeCount
  split_ifs
  · exact one_pos
  · exact lt_max_of_lt_right one_pos

/-- A window has few enough stripes. -/
theorem sealpirStripeCount_le {windowSize : ℕ} (h : windowSize ≤ maxBlocksPerRequest) :
    sealpirStripeCount windowSize packingDegree ≤ maxPirStripes := by
  have hceil : divCeil windowSize packingDegree ≤ divCeil maxBlocksPerRequest packingDegree :=
    divCeil_le_divCeil h
  have hmax : divCeil maxBlocksPerRequest packingDegree ≤ maxPirStripes := by decide
  unfold sealpirStripeCount
  split_ifs
  · decide
  · exact max_le (hceil.trans hmax) (by decide)

/-- The selection marks the wanted rows of its stripe. -/
theorem foldl_selectRow (s : ℕ) (indices sel : List ℕ) (hlen : sel.length = packingDegree) :
    (indices.foldl (selectRow s) sel).length = packingDegree ∧
      ∀ i < packingDegree, (indices.foldl (selectRow s) sel).getD i 0 =
        if s * packingDegree + i ∈ indices then 1 else sel.getD i 0 := by
  induction indices generalizing sel with
  | nil => exact ⟨hlen, fun i _ => by simp⟩
  | cons idx indices ih =>
    have hrow : (selectRow s sel idx).length = packingDegree := by
      unfold selectRow
      split_ifs
      · rw [List.length_set, hlen]
      · exact hlen
    obtain ⟨hlen', hget⟩ := ih _ hrow
    refine ⟨hlen', fun i hi => ?_⟩
    have hsplit := Nat.div_add_mod' idx packingDegree
    have hmod := Nat.mod_lt idx (show 0 < packingDegree by decide)
    rw [List.foldl_cons, hget i hi]
    by_cases hidx : idx = s * packingDegree + i
    · have hdiv : idx / packingDegree = s := by
        rw [hidx, Nat.mul_comm, Nat.mul_add_div (by decide), Nat.div_eq_of_lt hi, Nat.add_zero]
      have hmodi : idx % packingDegree = i := by
        rw [hidx, Nat.mul_comm, Nat.mul_add_mod, Nat.mod_eq_of_lt hi]
      rw [if_pos (hidx ▸ List.mem_cons_self .. : s * packingDegree + i ∈ idx :: indices),
        selectRow, if_pos hdiv, getD_set (by rw [hlen]; exact hi), if_pos hmodi, ite_self]
    · have hother : (selectRow s sel idx).getD i 0 = sel.getD i 0 := by
        unfold selectRow
        split_ifs with hdiv
        · rw [getD_set (by rw [hlen]; exact hi), if_neg]
          intro hmodi
          rw [hdiv, hmodi] at hsplit
          exact hidx hsplit.symm
        · rfl
      rw [hother]
      apply if_congr _ rfl rfl
      simp [List.mem_cons, Ne.symm hidx]

/-- A selection has 1 at the positions asked for. -/
theorem getD_stripeSelection (indices : List ℕ) (s : ℕ) {i : ℕ} (hi : i < packingDegree) :
    (stripeSelection indices s).getD i 0 = if s * packingDegree + i ∈ indices then 1 else 0 := by
  rw [stripeSelection, (foldl_selectRow s indices _ List.length_replicate).2 i hi,
    List.getD_replicate _ hi]

/-- A selection is made of slots. -/
theorem isSlots_stripeSelection (indices : List ℕ) (s : ℕ) :
    IsSlots packingDegree clueQ (stripeSelection indices s) := by
  apply isSlots_of_getD
  · exact (foldl_selectRow s indices _ List.length_replicate).1
  · intro i hi
    rw [getD_stripeSelection indices s hi]
    split_ifs <;> decide

variable {db : List ℕ}

/-- A stripe holds its part of the column. -/
theorem getD_stripeDb (s : ℕ) {i : ℕ} (hi : i < packingDegree) :
    (stripeDb db db.length s).getD i 0 = db.getD (s * packingDegree + i) 0 := by
  unfold stripeDb
  dsimp only
  by_cases hout : db.length ≤ s * packingDegree
  · rw [if_pos hout, List.getD_replicate _ hi, List.getD_eq_default _ _ (by omega)]
  · rw [if_neg hout, if_pos (by omega), getD_resizeZero _ hi]
    by_cases hlen : s * packingDegree + i < db.length
    · have hcut : i < ((db.drop (s * packingDegree)).take (min (min (s * packingDegree +
          packingDegree) db.length) db.length - s * packingDegree)).length := by
        rw [List.length_take, List.length_drop]
        omega
      rw [List.getD_eq_getElem _ _ hcut, List.getElem_take, List.getElem_drop,
        List.getD_eq_getElem _ _ hlen]
    · rw [List.getD_eq_default _ _ (by rw [List.length_take, List.length_drop]; omega),
        List.getD_eq_default _ _ (by omega)]

/-- A stripe fills the packing degree. -/
theorem length_stripeDb (windowSize s : ℕ) : (stripeDb db windowSize s).length = packingDegree := by
  unfold stripeDb
  dsimp only
  split_ifs
  · rw [List.length_replicate]
  · rw [length_resizeZero]
  · rw [length_resizeZero]

/-- A stripe is made of slots. -/
theorem isSlots_stripeDb (hdb : ∀ x ∈ db, x < clueQ) (s : ℕ) :
    IsSlots packingDegree clueQ (stripeDb db db.length s) := by
  apply isSlots_of_getD (length_stripeDb _ s)
  intro i hi
  rw [getD_stripeDb s hi]
  by_cases hlen : s * packingDegree + i < db.length
  · rw [List.getD_eq_getElem _ _ hlen]
    exact hdb _ (List.getElem_mem hlen)
  · rw [List.getD_eq_default _ _ (by omega)]
    decide

end Stripes

/-! ## Queries and responses -/

section Responses

/-- What a client learns of row `g`. -/
def wanted (indices db : List ℕ) (g : ℕ) : ℕ := if g ∈ indices then db.getD g 0 else 0

/-- A query for a stripe. -/
def IsQuery (sk : S.SecretKey) (indices : List ℕ) (s : ℕ) (query : Bytes) : Prop :=
  ∃ ct, query = S.toBytes ct ∧ S.polynomials ct = 2 ∧
    S.Carries sk ct (slots packingDegree clueQ (stripeSelection indices s))

/-- A response for a stripe. -/
def IsResponse (client : BatchPirClient S) (indices db : List ℕ) (s : ℕ) (response : Bytes) :
    Prop :=
  ∃ v, client.decryptResponse response = .ok v ∧
    ∀ i < packingDegree, v.getD i 0 = wanted indices db (s * packingDegree + i)

/-- A selection can be encrypted. -/
theorem encryptSelection_ok (ideal : S.Ideal client.secretKey client.publicKey)
    (indices : List ℕ) (s : ℕ) (r : S.Random) :
    ∃ query, client.encryptSelection (stripeSelection indices s) r = .ok query ∧
      IsQuery client.secretKey indices s query := by
  obtain ⟨pt, hpt, hencodes⟩ := ideal.encode _ (isSlots_stripeSelection indices s)
  obtain ⟨ct, hct, hpoly, hcarries⟩ := ideal.encrypt pt _ r hencodes
  refine ⟨S.toBytes ct, ?_, ct, rfl, hpoly, hcarries⟩
  rw [encryptSelection, hpt, labelled_ok]
  show (labelled _ (S.encrypt client.publicKey pt r)).bind _ = _
  rw [hct]
  rfl

/-- The slots of a response are the wanted rows of its stripe. -/
theorem getD_product {indices db v : List ℕ} {s : ℕ} (hdb : ∀ x ∈ db, x < clueQ)
    (hv : IsSlots packingDegree clueQ v)
    (hslots : slots packingDegree clueQ v =
      slots packingDegree clueQ (stripeSelection indices s) *
        slots packingDegree clueQ (stripeDb db db.length s))
    {i : ℕ} (hi : i < packingDegree) :
    v.getD i 0 = wanted indices db (s * packingDegree + i) := by
  have hstripe := (isSlots_stripeDb hdb s).getD_lt hi
  have hslot := congrFun hslots ⟨i, hi⟩
  rw [← hv.val_slots ⟨i, hi⟩, hslot]
  show (((stripeSelection indices s).getD i 0 : ZMod clueQ) *
    ((stripeDb db db.length s).getD i 0 : ZMod clueQ)).val = _
  rw [getD_stripeSelection indices s hi, wanted, ← getD_stripeDb s hi]
  split_ifs
  · rw [Nat.cast_one, one_mul, ZMod.val_cast_of_lt hstripe]
  · rw [Nat.cast_zero, zero_mul, ZMod.val_zero]

/-- A query can be evaluated on a stripe. -/
theorem evaluateLimbBytes_ok (ideal : S.Ideal client.secretKey client.publicKey)
    {indices db : List ℕ} (hdb : ∀ x ∈ db, x < clueQ) {s : ℕ} {query : Bytes}
    (hquery : IsQuery client.secretKey indices s query) :
    ∃ response, evaluateLimbBytes S query (stripeDb db db.length s) = .ok response ∧
      IsResponse client indices db s response := by
  obtain ⟨ct, rfl, hpoly, hcarries⟩ := hquery
  have hlen : (stripeDb db db.length s).length = packingDegree := length_stripeDb _ s
  have hresize : resizeZero packingDegree (stripeDb db db.length s) = stripeDb db db.length s := by
    rw [resizeZero, hlen, Nat.sub_self, List.replicate_zero, List.append_nil,
      List.take_of_length_le hlen.le]
  obtain ⟨pt, hpt, hencodes⟩ := ideal.encode _ (isSlots_stripeDb hdb s)
  obtain ⟨p, hp, v, hv, hisSlots, hslots⟩ := (ideal.mulPlain _ _ _ _ hcarries hencodes).decrypts
  refine ⟨S.toBytes (S.mulPlain ct pt), ?_, v, ?_, fun i hi => getD_product hdb hisSlots hslots hi⟩
  · rw [evaluateLimbBytes, ideal.fromBytes_toBytes, labelled_ok]
    show (labelled _ (checkFreshCiphertext ct)).bind _ = _
    rw [checkFreshCiphertext_ok hpoly hcarries.level, labelled_ok]
    show (evaluateLimb ct (stripeDb db db.length s)).bind _ = _
    rw [evaluateLimb, if_neg hlen.not_gt, hresize, hpt]
    rfl
  · rw [decryptResponse, ideal.fromBytes_toBytes, labelled_ok]
    show (labelled _ (S.decrypt client.secretKey (S.mulPlain ct pt))).bind _ = _
    rw [hp, labelled_ok]
    show labelled _ (S.decode p) = _
    rw [hv, labelled_ok]

end Responses

/-! ## Columns -/

section Columns

variable {indices db : List ℕ}

/-- The first `m` slots of a stripe, in their place. -/
theorem foldl_placeSlot {windowSize s : ℕ} (v out : List ℕ) (hout : out.length = windowSize)
    (m : ℕ) :
    ((List.range m).foldl (placeSlot windowSize s v) out).length = windowSize ∧
      ∀ g < windowSize, ((List.range m).foldl (placeSlot windowSize s v) out).getD g 0 =
        if s * packingDegree ≤ g ∧ g < s * packingDegree + m then v.getD (g - s * packingDegree) 0
        else out.getD g 0 := by
  induction m with
  | zero => exact ⟨hout, fun g _ => by rw [if_neg (by omega)]; rfl⟩
  | succ m ih =>
    obtain ⟨hlen, hget⟩ := ih
    rw [List.range_succ, List.foldl_append, List.foldl_cons, List.foldl_nil]
    set before := (List.range m).foldl (placeSlot windowSize s v) out
    unfold placeSlot
    dsimp only
    by_cases hm : windowSize ≤ s * packingDegree + m
    · rw [if_pos hm]
      refine ⟨hlen, fun g hg => ?_⟩
      rw [hget g hg]
      apply if_congr _ rfl rfl
      omega
    · rw [if_neg hm]
      refine ⟨by rw [List.length_set, hlen], fun g hg => ?_⟩
      rw [getD_set (by rw [hlen]; exact hg)]
      by_cases hplace : s * packingDegree + m = g
      · rw [if_pos hplace, if_pos (by omega), ← hplace, Nat.add_sub_cancel_left]
      · rw [if_neg hplace, hget g hg]
        apply if_congr _ rfl rfl
        omega

/-- The stripes from `s` on are put in their place. -/
theorem placeStripes_ok {windowSize s : ℕ} {responses : List Bytes}
    (h : List.Forall₂ (IsResponse client indices db) (List.range' s responses.length) responses)
    (out : List ℕ) (hout : out.length = windowSize) :
    ∃ col, client.placeStripes windowSize s responses out = .ok col ∧ col.length = windowSize ∧
      ∀ g < windowSize, col.getD g 0 =
        if s * packingDegree ≤ g ∧ g < (s + responses.length) * packingDegree then
          wanted indices db g
        else out.getD g 0 := by
  induction responses generalizing s out with
  | nil => exact ⟨out, rfl, hout, fun g _ => by rw [if_neg (by simp)]⟩
  | cons response responses ih =>
    rw [List.length_cons, List.range'_succ, List.forall₂_cons] at h
    obtain ⟨⟨v, hv, hslots⟩, hrest⟩ := h
    obtain ⟨hlen, hget⟩ := foldl_placeSlot (s := s) v out hout packingDegree
    obtain ⟨col, hcol, hcolLen, hcolGet⟩ := ih hrest _ hlen
    refine ⟨col, ?_, hcolLen, fun g hg => ?_⟩
    · rw [placeStripes, hv]
      exact hcol
    · have hnext : (s + 1) * packingDegree = s * packingDegree + packingDegree :=
        Nat.succ_mul s packingDegree
      have hend : (s + 1 + responses.length) * packingDegree =
          s * packingDegree + packingDegree + responses.length * packingDegree := by ring
      have hend' : (s + (responses.length + 1)) * packingDegree =
          s * packingDegree + packingDegree + responses.length * packingDegree := by ring
      rw [hcolGet g hg, hget g hg, List.length_cons, hnext, hend, hend']
      by_cases hlow : s * packingDegree ≤ g ∧ g < s * packingDegree + packingDegree
      · have hrow := hslots (g - s * packingDegree) (by omega)
        rw [Nat.add_sub_cancel' hlow.1] at hrow
        rw [if_neg (by omega), if_pos hlow, if_pos (by omega), hrow]
      · rw [if_neg hlow]
        apply if_congr _ rfl rfl
        omega

/-- A column of a window, with all rows but the wanted ones set to zero. -/
def IsColumn (indices : List ℕ) (payloads : List Bytes) (j : ℕ) (col : List ℕ) : Prop :=
  col.length = payloads.length ∧
    ∀ g < payloads.length, col.getD g 0 = wanted indices (limbColumn payloads j) g

/-- A client selects its rows with a query for each stripe. -/
theorem generateSealpirQueries_ok (ideal : S.Ideal client.secretKey client.publicKey)
    {windowSize : ℕ} (hn : windowSize ≤ maxBlocksPerRequest) (hne : indices ≠ [])
    (hin : ∀ i ∈ indices, i < windowSize) (draws : ℕ → S.Random) :
    ∃ queries, client.generateSealpirQueries draws indices windowSize = .ok queries ∧
      List.Forall₂ (IsQuery client.secretKey indices)
        (List.range (sealpirStripeCount windowSize packingDegree)) queries := by
  obtain ⟨queries, hqueries, hisQuery⟩ :=
    mapM_ok fun s (_ : s ∈ List.range (sealpirStripeCount windowSize packingDegree)) =>
      encryptSelection_ok ideal indices s (draws s)
  have hempty : indices.isEmpty = false := List.isEmpty_eq_false_iff.mpr hne
  have hinside : (indices.find? fun idx => decide (windowSize ≤ idx)) = none := by
    rw [List.find?_eq_none]
    intro idx hidx
    simpa using hin idx hidx
  refine ⟨queries, ?_, hisQuery⟩
  unfold generateSealpirQueries
  rw [hempty, if_neg Bool.false_ne_true, if_neg (sealpirStripeCount_le hn).not_gt, hinside]
  exact hqueries

/-- The responses to these queries are read as a column. -/
theorem evaluateSealpirStripes_ok (ideal : S.Ideal client.secretKey client.publicKey)
    {payloads : List Bytes} {queries : List Bytes}
    (hqueries : List.Forall₂ (IsQuery client.secretKey indices)
      (List.range (sealpirStripeCount payloads.length packingDegree)) queries) (j : ℕ) :
    ∃ responses, evaluateSealpirStripes S queries (limbColumn payloads j) payloads.length =
        .ok responses ∧
      ∃ col, client.decryptSealpirStripes responses payloads.length = .ok col ∧
        IsColumn indices payloads j col := by
  have hlen : (limbColumn payloads j).length = payloads.length := List.length_map _
  have hqlen : queries.length = sealpirStripeCount payloads.length packingDegree := by
    rw [← hqueries.length_eq, List.length_range]
  rw [List.range_eq_range', ← hqlen] at hqueries
  obtain ⟨responses, hresponses, hisResponse⟩ := mapM_ok fun q hq =>
    evaluateLimbBytes_ok ideal (limbColumn_lt payloads j) (forall_mem_zipIdx hqueries q hq)
  have hrlen : responses.length = sealpirStripeCount payloads.length packingDegree := by
    rw [← hisResponse.length_eq, List.length_zipIdx, hqlen]
  have hstripe := forall₂_range' hisResponse
  rw [hqlen, ← hrlen] at hstripe
  obtain ⟨col, hcol, hcolLen, hcolGet⟩ := placeStripes_ok hstripe
    (List.replicate payloads.length 0) List.length_replicate
  refine ⟨responses, ?_, col, ?_, hcolLen, fun g hg => ?_⟩
  · unfold evaluateSealpirStripes
    rw [if_neg (not_not.mpr hqlen), ← hlen]
    exact hresponses
  · unfold decryptSealpirStripes
    rw [if_neg (not_not.mpr hrlen)]
    exact hcol
  · have hreach : g < (0 + responses.length) * packingDegree := by
      rw [Nat.zero_add, hrlen]
      exact hg.trans_le (le_sealpirStripeCount_mul _)
    rw [hcolGet g hg, if_pos ⟨by omega, hreach⟩]

/-- A column is fetched. -/
theorem fetchColumn_ok (ideal : S.Ideal client.secretKey client.publicKey)
    {payloads : List Bytes} (hn : payloads.length ≤ maxBlocksPerRequest) (hne : indices ≠ [])
    (hin : ∀ i ∈ indices, i < payloads.length) (draws : ℕ → S.Random) (j : ℕ) :
    ∃ col, client.fetchColumn draws indices payloads j = .ok col ∧
      IsColumn indices payloads j col := by
  obtain ⟨queries, hgenerate, hqueries⟩ := generateSealpirQueries_ok ideal hn hne hin draws
  obtain ⟨responses, hevaluate, col, hdecrypt, hcol⟩ := evaluateSealpirStripes_ok ideal hqueries j
  refine ⟨col, ?_, hcol⟩
  unfold fetchColumn
  dsimp only
  rw [hgenerate]
  show (evaluateSealpirStripes S queries (limbColumn payloads j) payloads.length).bind _ = _
  rw [hevaluate]
  exact hdecrypt

end Columns

/-! ## Payloads -/

section Payloads

/-- The limbs of a wanted row, over all columns. -/
theorem map_getD_cols {indices : List ℕ} {payloads : List Bytes} {k idx : ℕ}
    (hidx : idx ∈ indices) (hlt : idx < payloads.length) {cols : List (List ℕ)}
    (h : List.Forall₂ (IsColumn indices payloads) (List.range k) cols) :
    cols.map (fun col => col.getD idx 0) =
      (List.range k).map (payloadLimb (payloads.getD idx [])) := by
  symm
  apply map_eq_map_of_forall₂
  apply h.imp
  intro j col hcol
  rw [hcol.2 idx hlt, wanted, if_pos hidx, getD_limbColumn hlt]

/-- What a client learns is below the plaintext modulus. -/
theorem wanted_lt {indices db : List ℕ} (hdb : ∀ x ∈ db, x < clueQ) (g : ℕ) :
    wanted indices db g < clueQ := by
  unfold wanted
  split_ifs
  · by_cases hg : g < db.length
    · rw [List.getD_eq_getElem _ _ hg]
      exact hdb _ (List.getElem_mem hg)
    · rw [List.getD_eq_default _ _ (by omega)]
      exact Nat.pos_of_neZero clueQ
  · exact Nat.pos_of_neZero clueQ

/-- Every limb is below the modulus. -/
theorem limb_lt {indices : List ℕ} {payloads : List Bytes} {js : List ℕ} {cols : List (List ℕ)}
    (h : List.Forall₂ (IsColumn indices payloads) js cols) :
    ∀ col ∈ cols, ∀ limb ∈ col, limb < clueQ := by
  induction h with
  | nil => simp
  | @cons j col js cols hcol _ ih =>
    intro c hc limb hlimb
    obtain rfl | hc := List.mem_cons.mp hc
    · obtain ⟨g, hg, rfl⟩ := List.getElem_of_mem hlimb
      have hrow := hcol.2 g (hcol.1 ▸ hg)
      rw [List.getD_eq_getElem _ _ hg] at hrow
      rw [hrow]
      exact wanted_lt (limbColumn_lt payloads j) g
    · exact ih c hc limb hlimb

/-- A client that fetches enough columns of a window gets every payload it asks for, if it is
not too long to be fetched. All limbs are below the plaintext modulus, and the bucket of a limb
count is enough columns. -/
theorem retrieval_exact (ideal : S.Ideal client.secretKey client.publicKey)
    {payloads : List Bytes} (hn : payloads.length ≤ maxBlocksPerRequest) {indices : List ℕ}
    (hne : indices ≠ []) (hin : ∀ i ∈ indices, i < payloads.length) {k : ℕ}
    (hk : ∀ i ∈ indices, ∀ need,
      pirPayloadLimbCount (payloads.getD i []).length = some need → need ≤ k)
    (draws : ℕ → ℕ → S.Random) :
    (∃ cols, (List.range k).mapM (fun j => client.fetchColumn (draws j) indices payloads j) =
        .ok cols ∧
      assemblePayloads indices cols = indices.map (fun i =>
        if (payloads.getD i []).length ≤ maxPirPayloadBytes then payloads.getD i [] else []) ∧
      ∀ col ∈ cols, ∀ limb ∈ col, limb < clueQ) ∧
    (∀ j, ∀ limb ∈ limbColumn payloads j, limb < clueQ) ∧
    ∀ len need, pirPayloadLimbCount len = some need → need ≤ paddedLimbCount need := by
  obtain ⟨cols, hcols, hrows⟩ := mapM_ok fun j (_ : j ∈ List.range k) =>
    fetchColumn_ok ideal hn hne hin (draws j) j
  refine ⟨⟨cols, hcols, ?_, ?_⟩, limbColumn_lt payloads, fun _ _ => le_paddedLimbCount⟩
  · unfold assemblePayloads
    apply List.map_congr_left
    intro idx hidx
    rw [map_getD_cols hidx (hin idx hidx) hrows, decodeLengthPrefixedLimbs_ok (hk idx hidx)]
  · exact limb_lt hrows

/-- A payload that can be fetched and one that is too long. -/
def samplePayloads : List Bytes := [[104, 105, 33], List.replicate 9000 0]

/-- The second and the first of three payloads, fetched in the plain scheme. -/
theorem retrieval_exact_samplePayloads :
    (∃ cols, (List.range 8).mapM (fun j => BatchPirClient.fetchColumn
        (S := plainScheme packingDegree clueQ) ⟨(), ()⟩ (fun _ => ()) [1, 0] samplePayloads j) =
        .ok cols ∧
      assemblePayloads [1, 0] cols = [1, 0].map (fun i =>
        if (samplePayloads.getD i []).length ≤ maxPirPayloadBytes then samplePayloads.getD i []
        else []) ∧
      ∀ col ∈ cols, ∀ limb ∈ col, limb < clueQ) ∧
    (∀ j, ∀ limb ∈ limbColumn samplePayloads j, limb < clueQ) ∧
    ∀ len need, pirPayloadLimbCount len = some need → need ≤ paddedLimbCount need :=
  retrieval_exact (plainScheme_ideal (by decide) (by decide)) (by decide) (by simp)
    (fun i hi => by
      have hi : i = 1 ∨ i = 0 := by simpa using hi
      show i < 2
      omega)
    (fun i hi need hneed => by
      obtain ⟨-, hlen, rfl⟩ := pirPayloadLimbCount_eq_some hneed
      obtain rfl | rfl : i = 1 ∨ i = 0 := by simpa using hi
      · have hlong : (samplePayloads.getD 1 []).length = 9000 := List.length_replicate
        have hmax : maxPirPayloadBytes = 8190 := rfl
        omega
      · decide)
    (fun _ _ => ())

end Payloads

end LightWalletd
