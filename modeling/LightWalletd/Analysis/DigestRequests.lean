import LightWalletd.Analysis.ClueProvenance
import LightWalletd.Analysis.DetectionExact
import LightWalletd.Analysis.DetectionPool
import LightWalletd.Analysis.DigestAccepted
import LightWalletd.Analysis.KeyUpload
import LightWalletd.Analysis.ScanChain
import LightWalletd.Analysis.UploadAdmission
import LightWalletd.Model.DigestRequests

/-!
# What a wallet gets from a digest

A wallet uploads its detection keys and opens the reply with its clue secret. It finds the heights
with a clue for it, all of them up to where the digest goes, and no others.
-/

set_option autoImplicit false

namespace LightWalletd

open Stateful

/-! ## Slot heights -/

section Heights

/-- The first full chunk comes off. -/
theorem chunksOf_append {α : Type} {n : ℕ} (hn : 0 < n) {chunk : List α} (hchunk : chunk.length = n)
    (rest : List α) : chunksOf n (chunk ++ rest) = chunk :: chunksOf n rest := by
  have hne : chunk ++ rest ≠ [] := by
    intro hnil
    simp [(List.append_eq_nil_iff.mp hnil).1] at hchunk
    omega
  rw [chunksOf_of_ne_nil hn hne, List.take_left' hchunk, List.drop_left' hchunk]

/-- The heights of the slots are read back. -/
theorem unpack_packSlotHeights {heights : List ℕ} (h : ∀ x ∈ heights, x < 2 ^ 32) :
    unpackSlotHeights (packSlotHeights heights) = .ok heights := by
  have hlen : (packSlotHeights heights).length % 4 = 0 := by
    simp [packSlotHeights, List.length_flatMap]
  unfold unpackSlotHeights
  rw [if_neg (not_not.mpr hlen)]
  refine congrArg Except.ok ?_
  clear hlen
  induction heights with
  | nil => rfl
  | cons x heights ih =>
    have hx : leValue (leBytes 4 x) = x := leValue_leBytes_of_lt (by simpa using h x (by simp))
    show (chunksOf 4 (leBytes 4 x ++ packSlotHeights heights)).map leValue = _
    rw [chunksOf_append (by decide) (length_leBytes 4 x), List.map_cons, hx,
      ih fun y hy => h y (by simp [hy])]

end Heights

/-! ## Covered heights -/

section Covered

variable {blake3 : Bytes → Bytes32} {s : Cache}

/-- No height has more valid clues than a digest takes. -/
def HeightsFit (blake3 : Bytes → Bytes32) (s : Cache) : Prop :=
  ∀ h, (cluesAt blake3 s h).length ≤ maxOmrMessages

/-- A height has no more clues in a range than it has. -/
theorem count_clues_le (start n h : ℕ) :
    (((List.range' start n).flatMap (cluesAt blake3 s)).map Prod.fst).count h ≤
      (cluesAt blake3 s h).length := by
  induction n generalizing start with
  | zero => simp
  | succ n ih =>
    rw [List.range'_succ, List.flatMap_cons, List.map_append, List.count_append]
    by_cases hstart : start = h
    · -- the other heights are above `h`
      subst hstart
      have hrest : (((List.range' (start + 1) n).flatMap (cluesAt blake3 s)).map
          Prod.fst).count start = 0 := by
        refine List.count_eq_zero.mpr fun hmem => ?_
        obtain ⟨c, hc, hfst⟩ := List.mem_map.mp hmem
        have hbounds := bounds_of_mem_flatMap_cluesAt hc
        omega
      rw [hrest, Nat.add_zero]
      exact List.count_le_length.trans (by simp)
    · have hhead : ((cluesAt blake3 s start).map Prod.fst).count h = 0 := by
        refine List.count_eq_zero.mpr fun hmem => ?_
        obtain ⟨c, hc, hfst⟩ := List.mem_map.mp hmem
        exact hstart ((fst_of_mem_cluesAt hc).symm.trans hfst)
      rw [hhead, Nat.zero_add]
      exact ih (start + 1)

/-- The slots are capped from clues of the window. -/
theorem digestSlots_capped (hs : s.db.blocks.Sound) {start last : ℕ} {d : DigestSlots}
    {windows : ClueWindows} {s' : Cache}
    (h : (digestSlots blake3 .new start last).run s = (.ok (d, windows), s')) :
    ∃ rows : List (ℕ × RlweCiphertext), (rows.Pairwise fun c c' => c.1 ≤ c'.1) ∧
      (∀ c ∈ rows, c.1 ≤ last) ∧
      (∀ x, (rows.map Prod.fst).count x ≤ (cluesAt blake3 s x).length) ∧
      d.messages = (capMessagesToWholeHeights (rows.map Prod.snd) (rows.map Prod.fst)).1 ∧
      d.slotHeights = (capMessagesToWholeHeights (rows.map Prod.snd) (rows.map Prod.fst)).2.1 := by
  obtain ⟨span, hwindow, h⟩ := run_bind_liftStatus_eq_ok h
  have hspan := span_le_of_rejectOversizedWindow hwindow
  obtain ⟨⟨evalEnd, rangeComplete⟩, hend, hscan⟩ := digestEvaluableEnd_run hs start last
  rw [Prog.bind_eq, Prog.run_bind_of_ok hend] at h
  cases evalEnd with
  | none =>
    cases h
    exact ⟨[], .nil, by simp, by simp, rfl, rfl⟩
  | some evalEnd =>
    obtain ⟨hstart, hlast⟩ := hscan.bounds evalEnd rfl
    obtain ⟨windows', hnotes⟩ := cachedEncryptedNotes_run hs hstart (by omega)
    dsimp only at h
    rw [Prog.bind_eq, Prog.run_bind_of_ok hnotes] at h
    simp only [flattenMessages_eq, noteClues_windowNotes blake3 s hstart] at h
    cases h
    refine ⟨windowClues blake3 s start evalEnd, pairwise_windowClues start evalEnd,
      fun c hc => (bounds_of_mem_windowClues hc).2.trans hlast,
      count_clues_le start (evalEnd + 1 - start), rfl, rfl⟩

/-- A digest of heights that fit is not longer than the client takes. -/
theorem length_digestSlots_le (hs : s.db.blocks.Sound) (hfit : HeightsFit blake3 s)
    {start last : ℕ} {d : DigestSlots} {windows : ClueWindows} {s' : Cache}
    (h : (digestSlots blake3 .new start last).run s = (.ok (d, windows), s')) :
    d.messages.length ≤ maxOmrMessages := by
  obtain ⟨rows, hsorted, -, hcount, hmessages, -⟩ := digestSlots_capped hs h
  rw [hmessages]
  exact (length_capped_le_iff hsorted).mpr fun x _ => (hcount x).trans (hfit x)

/-- The slot heights of a digest are not above the last height. -/
theorem slotHeights_le (hs : s.db.blocks.Sound) {start last : ℕ} {d : DigestSlots}
    {windows : ClueWindows} {s' : Cache}
    (h : (digestSlots blake3 .new start last).run s = (.ok (d, windows), s')) :
    ∀ x ∈ d.slotHeights, x ≤ last := by
  obtain ⟨rows, hsorted, hlast, -, -, hheights⟩ := digestSlots_capped hs h
  obtain ⟨cut, truncated, hcap, -⟩ := capMessagesToWholeHeights_eq hsorted
  rw [hcap] at hheights
  intro x hx
  rw [hheights] at hx
  obtain ⟨c, hc, rfl⟩ := List.mem_map.mp hx
  exact hlast c (List.mem_of_mem_take hc)

/-- Where the scan of a wallet goes on: behind the window, or behind the last height that an
incomplete digest names. -/
def scanEnd (start last : ℕ) (complete : Bool) (slotHeights : List ℕ) : ℕ :=
  if complete then last + 1 else (slotHeights.getLast?.map (· + 1)).getD start

/-- The clues of the heights from `start` on, below `stop`. -/
def cluesBelow (blake3 : Bytes → Bytes32) (s : Cache) (start stop : ℕ) : List (ℕ × RlweCiphertext) :=
  (List.range' start (stop - start)).flatMap (cluesAt blake3 s)

/-- The slots are the clues below `stop`, and there is a block at every height. -/
structure CoversTo (blake3 : Bytes → Bytes32) (s : Cache) (start stop : ℕ) (d : DigestSlots) :
    Prop where
  cached : ∀ h, start ≤ h → h < stop → (s.blockAt h).isSome = true
  messages : d.messages = (cluesBelow blake3 s start stop).map Prod.snd
  slotHeights : d.slotHeights = (cluesBelow blake3 s start stop).map Prod.fst

/-- Slots that cover a window cover it to its end. -/
theorem CoversSlots.coversTo {start last : ℕ} {d : DigestSlots}
    (h : CoversSlots blake3 s start last d) : CoversTo blake3 s start (last + 1) d :=
  ⟨fun x hx hlt => h.cached x hx (Nat.le_of_lt_succ hlt), h.messages, h.slotHeights⟩

/-- A digest covers the heights up to where the scan goes on. -/
theorem digestSlots_coversTo (hs : s.db.blocks.Sound) {start last : ℕ} (hle : start ≤ last)
    (hspan : last - start + 1 ≤ maxBlocksPerRequest) :
    ∃ d windows, (digestSlots blake3 .new start last).run s = (.ok (d, windows), s) ∧
      CoversTo blake3 s start (scanEnd start last d.complete d.slotHeights) d := by
  obtain ⟨d, windows, hrun, hlen, hsorted, hcomplete, hcut⟩ := digestSlots_run hs blake3 hle hspan
  refine ⟨d, windows, hrun, ?_⟩
  unfold scanEnd
  cases hd : d.complete with
  | true => exact (hcomplete hd).coversTo
  | false =>
    rw [if_neg (by simp)]
    cases hheights : d.slotHeights.getLast? with
    | none =>
      have hnil : d.slotHeights = [] := List.getLast?_eq_none_iff.mp hheights
      have hempty : cluesBelow blake3 s start start = [] := by simp [cluesBelow]
      rw [hnil, List.length_nil] at hlen
      refine ⟨fun x hx hlt => absurd hlt (not_lt.mpr hx), ?_, ?_⟩
      · rw [Option.map_none, Option.getD_none, hempty]
        exact List.length_eq_zero_iff.mp hlen
      · rw [Option.map_none, Option.getD_none, hempty]
        exact hnil
    | some top =>
      obtain ⟨front, hfront⟩ : ∃ front, d.slotHeights = front ++ [top] :=
        List.getLast?_eq_some_iff.mp hheights
      refine (hcut hd top (by simp [hfront]) fun x hx => ?_).coversTo
      rw [hfront, List.pairwise_append] at hsorted
      rw [hfront, List.mem_append] at hx
      rcases hx with hx | hx
      · exact hsorted.2.2 x hx top (by simp)
      · exact (List.mem_singleton.mp hx).le

/-- A clue gives a ciphertext exactly where it is valid and decodes to it. -/
theorem clueCiphertext?_eq_some_iff {clue : Bytes} {ct : RlweCiphertext} :
    clueCiphertext? blake3 clue = some ct ↔
      validateUnifomrClue blake3 clue = .ok () ∧ deserializeClue blake3 clue = .ok ct := by
  unfold clueCiphertext?
  cases hvalid : validateUnifomrClue blake3 clue with
  | error e => simp
  | ok u => cases hct : deserializeClue blake3 clue <;> simp [Except.toOption]

/-- The clues below a height, written out. -/
theorem mem_cluesBelow {start stop h : ℕ} {ct : RlweCiphertext} :
    (h, ct) ∈ cluesBelow blake3 s start stop ↔ start ≤ h ∧ h < stop ∧
      ∃ block clue, s.blockAt h = some block ∧ clue ∈ block.clues ∧
        validateUnifomrClue blake3 clue = .ok () ∧ deserializeClue blake3 clue = .ok ct := by
  have hat : (h, ct) ∈ cluesAt blake3 s h ↔
      ∃ block clue, s.blockAt h = some block ∧ clue ∈ block.clues ∧
        validateUnifomrClue blake3 clue = .ok () ∧ deserializeClue blake3 clue = .ok ct := by
    unfold cluesAt
    cases s.blockAt h <;> simp [clueCiphertext?_eq_some_iff]
  rw [← hat]
  unfold cluesBelow
  constructor
  · intro hmem
    obtain ⟨k, hk, hct⟩ := List.mem_flatMap.mp hmem
    obtain rfl : h = k := fst_of_mem_cluesAt hct
    rw [List.mem_range'_1] at hk
    exact ⟨hk.1, by omega, hct⟩
  · rintro ⟨hstart, hstop, hct⟩
    exact List.mem_flatMap.mpr ⟨h, List.mem_range'_1.mpr ⟨hstart, by omega⟩, hct⟩

end Covered

/-! ## The window of an upload -/

section Window

variable {Ip : Type} [DecidableEq Ip] {caps : ResourceCaps}

/-- The window of the header. -/
theorem window_of_readHeader {g g' : Gauges Ip} {peer : Ip} {allowed : Bool}
    {chunk : Upload.DetectionKeyChunk} {u : Upload.KeyUpload caps}
    (h : Upload.readHeader caps g peer true allowed chunk = .ok (u, g')) :
    ∃ span, rejectOversizedWindow u.startHeight u.endHeight = .ok span := by
  have haccepted := Upload.readHeader_accepted h
  rw [haccepted.upload]
  exact haccepted.range rfl

/-- A later message does not move the window. -/
theorem window_of_readChunk {u v : Upload.KeyUpload caps} {chunk : Upload.DetectionKeyChunk}
    (h : u.readChunk chunk = .ok v) : v.startHeight = u.startHeight ∧ v.endHeight = u.endHeight := by
  unfold Upload.KeyUpload.readChunk at h
  dsimp only at h
  split_ifs at h <;> cases h <;> exact ⟨rfl, rfl⟩

/-- Nor does the end of the upload. -/
theorem window_of_finish {u : Upload.KeyUpload caps} {upload : Upload.DetectionKeyUpload caps}
    (h : u.finish = .ok upload) :
    upload.startHeight = u.startHeight ∧ upload.endHeight = u.endHeight := by
  unfold Upload.KeyUpload.finish at h
  dsimp only at h
  split_ifs at h
  split at h
  · split_ifs at h
    cases h
    exact ⟨rfl, rfl⟩
  · cases h
    exact ⟨rfl, rfl⟩

/-- The window of the upload so far was checked. -/
def WindowChecked (upload : Option (Upload.KeyUpload caps × Gauges Ip)) : Prop :=
  ∀ u g, upload = some (u, g) →
    ∃ span, rejectOversizedWindow u.startHeight u.endHeight = .ok span

/-- A checked window stays checked as messages arrive. -/
theorem windowChecked_readArrival {g : Gauges Ip} {peer : Ip} {allowed : Bool} {deadline : ℕ}
    {upload upload' : Option (Upload.KeyUpload caps × Gauges Ip)}
    {arrival : Upload.Arrival (Except Status Upload.DetectionKeyChunk)}
    (hupload : WindowChecked upload)
    (h : Upload.readArrival caps g peer true allowed deadline upload arrival = .ok upload') :
    WindowChecked upload' := by
  obtain ⟨⟨⟨u, g'⟩, chunk⟩, hreceive, h⟩ := bind_eq_ok_iff.mp h
  obtain ⟨v, hread, h⟩ := bind_eq_ok_iff.mp h
  have hu : ∃ span, rejectOversizedWindow u.startHeight u.endHeight = .ok span := by
    obtain ⟨item, -, hreceive⟩ := bind_eq_ok_iff.mp hreceive
    obtain ⟨chunk', -, hreceive⟩ := bind_eq_ok_iff.mp hreceive
    cases upload with
    | none =>
      obtain ⟨⟨u', g''⟩, hheader, hreceive⟩ := bind_eq_ok_iff.mp hreceive
      cases hreceive
      exact window_of_readHeader hheader
    | some held =>
      cases hreceive
      exact hupload u g' rfl
  intro w g'' hw
  cases h
  cases hw
  obtain ⟨hstart, hend⟩ := window_of_readChunk hread
  rw [hstart, hend]
  exact hu

/-- The header checks the window, and no chunk changes it. -/
theorem window_of_read {call : UploadCall Ip} {upload : Upload.DetectionKeyUpload caps}
    (h : call.read caps true = .ok upload) :
    ∃ span, rejectOversizedWindow upload.startHeight upload.endHeight = .ok span := by
  unfold UploadCall.read Upload.readDetectionKeyUpload at h
  cases hstream : Upload.readStream caps call.gauges call.peer true call.allowed
      (call.started + Upload.uploadDeadline) call.arrivals call.closed with
  | error e =>
    rw [hstream] at h
    cases h
  | ok r =>
    rw [hstream] at h
    cases h
    obtain ⟨last, hloop, hrest⟩ := bind_eq_ok_iff.mp hstream
    obtain ⟨_, -, hrest⟩ := bind_eq_ok_iff.mp hrest
    have hchecked : WindowChecked last :=
      foldlM_invariant (fun _ _ _ => windowChecked_readArrival) (by simp [WindowChecked]) hloop
    rcases last with _ | ⟨u, g⟩
    · cases hrest
    · obtain ⟨uploaded, hfinish, hrest⟩ := bind_eq_ok_iff.mp hrest
      cases hrest
      obtain ⟨hstart, hend⟩ := window_of_finish hfinish
      rw [hstart, hend]
      exact hchecked u g rfl

end Window

/-! ## What is found -/

section Found

variable {S : BfvScheme}

/-- The encryption works for the keys of the client, and its clue secret is a small one. -/
structure UnifOmrClient.Honest (client : UnifOmrClient S) : Prop where
  ideal : S.Ideal client.detSk client.detPk
  length : client.clueSk.coeffs.length = clueN
  ternary : ∀ coeff ∈ client.clueSk.coeffs, Ternary coeff

/-- The key is one that the client builds. -/
def UnifOmrClient.Builds (client : UnifOmrClient S) (network : UInt8) (key : Bytes) : Prop :=
  ∃ draws, client.buildDetectionKey draws network = .ok key

/-- There is a valid clue for the client in the block at height `h`. -/
def UnifOmrClient.HasClueAt (client : UnifOmrClient S) (blake3 : Bytes → Bytes32) (s : Cache)
    (h : ℕ) : Prop :=
  ∃ block clue ct, s.blockAt h = some block ∧ clue ∈ block.clues ∧
    validateUnifomrClue blake3 clue = .ok () ∧ deserializeClue blake3 clue = .ok ct ∧
    Pertinent client.clueSk ct

/-- The client opens its digest, and the heights it finds are those with `P`. -/
def UnifOmrClient.Finds (client : UnifOmrClient S) (digest : Bytes) (heights : List ℕ)
    (P : ℕ → Prop) : Prop :=
  ∃ flags, client.decryptDigestSlots digest = .ok flags ∧
    ∀ h, h ∈ rangeCheckMatches flags heights ↔ P h

/-- How the digests of a reply are laid out. -/
def framedDigests : List Bytes → Bytes
  | [digest] => digest
  | digests => digests.flatMap frame

/-- One digest for each key, framed in the order of the keys. -/
theorem encodeKeys_of_mapM {detector : UnifOmrDetector} {keys digests : List Bytes}
    {messages : List RlweCiphertext} (hlen : keys.length = digests.length)
    (h : (keys.mapM fun key => detector.encodeMessages S key messages) = .ok digests) :
    encodeKeys S detector keys messages = .ok (framedDigests digests) := by
  rcases keys with _ | ⟨key, _ | ⟨key', keys⟩⟩
  · cases h
    rfl
  · cases hkey : detector.encodeMessages S key messages with
    | error e => simp [List.mapM_cons, hkey] at h
    | ok digest =>
      obtain rfl : [digest] = digests := by simpa [List.mapM_cons, hkey] using h
      exact hkey
  · obtain ⟨d, d', ds, rfl⟩ : ∃ d d' ds, digests = d :: d' :: ds := by
      rcases digests with _ | ⟨d, _ | ⟨d', ds⟩⟩
      · simp at hlen
      · simp at hlen
      · exact ⟨d, d', ds, rfl⟩
    show (do
      let digests ← (key :: key' :: keys).mapM fun key => detector.encodeMessages S key messages
      pure (digests.flatMap frame) : Except OmrError Bytes) = _
    rw [h]
    rfl

/-- A client finds what is for it. -/
theorem UnifOmrClient.Honest.finds {client : UnifOmrClient S} (hclient : client.Honest)
    {network : UInt8} {key : Bytes} (hkey : client.Builds network key)
    {rows : List (ℕ × RlweCiphertext)} (hcap : rows.length ≤ maxOmrMessages) :
    ∃ digest, UnifOmrDetector.encodeMessages S ⟨network⟩ key (rows.map Prod.snd) = .ok digest ∧
      client.Finds digest (rows.map Prod.fst)
        fun h => ∃ ct, (h, ct) ∈ rows ∧ Pertinent client.clueSk ct := by
  obtain ⟨draws, hbuilt⟩ := hkey
  obtain ⟨key', digest, flags, hkey', hencode, hflags, hmatches, -⟩ :=
    detect_ok hclient.ideal hclient.length hclient.ternary draws network hcap
  obtain rfl : key = key' := Except.ok.inj (hbuilt.symm.trans hkey')
  exact ⟨digest, hencode, flags, hflags, hmatches⟩

/-- Every client finds what is for it. -/
theorem encodeKeys_finds {network : UInt8} {clients : List (UnifOmrClient S)} {keys : List Bytes}
    (hclients : ∀ client ∈ clients, client.Honest)
    (hkeys : List.Forall₂ (fun client key => client.Builds network key) clients keys)
    {rows : List (ℕ × RlweCiphertext)} (hcap : rows.length ≤ maxOmrMessages) :
    ∃ digests, encodeKeys S ⟨network⟩ keys (rows.map Prod.snd) = .ok (framedDigests digests) ∧
      List.Forall₂ (fun client digest => client.Finds digest (rows.map Prod.fst)
        fun h => ∃ ct, (h, ct) ∈ rows ∧ Pertinent client.clueSk ct) clients digests := by
  have hall : ∃ digests, (keys.mapM fun key =>
        UnifOmrDetector.encodeMessages S ⟨network⟩ key (rows.map Prod.snd)) = .ok digests ∧
      List.Forall₂ (fun client digest => client.Finds digest (rows.map Prod.fst)
        fun h => ∃ ct, (h, ct) ∈ rows ∧ Pertinent client.clueSk ct) clients digests := by
    induction hkeys with
    | nil => exact ⟨[], rfl, .nil⟩
    | cons hkey _ ih =>
      obtain ⟨digest, hencode, hfinds⟩ := (hclients _ (by simp)).finds hkey hcap
      obtain ⟨digests, hdigests, hrest⟩ := ih fun client hclient => hclients client (by simp [hclient])
      refine ⟨digest :: digests, ?_, .cons hfinds hrest⟩
      rw [List.mapM_cons, hencode, hdigests]
      rfl
  obtain ⟨digests, hdigests, hfinds⟩ := hall
  have hlen : keys.length = digests.length := hkeys.length_eq.symm.trans hfinds.length_eq
  exact ⟨digests, encodeKeys_of_mapM hlen hdigests, hfinds⟩

/-- The scan ends at or above the start. -/
theorem le_scanEnd {start last : ℕ} (hle : start ≤ last) (complete : Bool) {slotHeights : List ℕ}
    (h : ∀ x ∈ slotHeights, start ≤ x) : start ≤ scanEnd start last complete slotHeights := by
  unfold scanEnd
  cases complete with
  | true => exact hle.trans (Nat.le_succ last)
  | false =>
    rw [if_neg Bool.false_ne_true]
    cases hlast : slotHeights.getLast? with
    | none => exact le_rfl
    | some top => exact (h top (List.mem_of_getLast? hlast)).trans (Nat.le_succ top)

/-- The slots of a digest are encoded for every client, with the heights it is looking for. -/
structure DigestFinds (env : OmrEnv) (s : Cache) (start last : ℕ)
    (clients : List (UnifOmrClient env.scheme)) (keys : List Bytes) (d : DigestSlots)
    (digests : List Bytes) : Prop where
  encodes : encodeKeys env.scheme ⟨env.networkByte⟩ keys d.messages = .ok (framedDigests digests)
  heights : unpackSlotHeights (packSlotHeights d.slotHeights) = .ok d.slotHeights
  advances : start ≤ scanEnd start last d.complete d.slotHeights
  cached : ∀ h, start ≤ h → h < scanEnd start last d.complete d.slotHeights →
    (s.blockAt h).isSome = true
  finds : List.Forall₂ (fun client digest => client.Finds digest d.slotHeights fun h =>
    start ≤ h ∧ h < scanEnd start last d.complete d.slotHeights ∧ client.HasClueAt env.blake3 s h)
    clients digests

/-- The digest of a window brings to every client what is for it. -/
theorem digestSlots_finds {env : OmrEnv} {s : Cache} (hs : s.db.blocks.Sound)
    (hfit : HeightsFit env.blake3 s) {start last : ℕ} (hle : start ≤ last)
    (hspan : last - start + 1 ≤ maxBlocksPerRequest) (hmax : last ≤ u32Max)
    {clients : List (UnifOmrClient env.scheme)} (hclients : ∀ client ∈ clients, client.Honest)
    {keys : List Bytes}
    (hkeys : List.Forall₂ (fun client key => client.Builds env.networkByte key) clients keys) :
    ∃ d windows digests, (digestSlots env.blake3 .new start last).run s = (.ok (d, windows), s) ∧
      DigestFinds env s start last clients keys d digests := by
  obtain ⟨d, windows, hrun, hcovers⟩ := @digestSlots_coversTo env.blake3 s hs _ _ hle hspan
  have hcap := length_digestSlots_le hs hfit hrun
  rw [hcovers.messages, List.length_map] at hcap
  obtain ⟨digests, hencode, hfinds⟩ := encodeKeys_finds hclients hkeys hcap
  refine ⟨d, windows, digests, hrun, ?_, ?_, ?_, hcovers.cached, ?_⟩
  · rw [hcovers.messages]
    exact hencode
  · refine unpack_packSlotHeights fun x hx => ?_
    exact ((slotHeights_le hs hrun x hx).trans hmax).trans_lt (by decide)
  · refine le_scanEnd hle _ fun x hx => ?_
    rw [hcovers.slotHeights] at hx
    obtain ⟨c, hc, rfl⟩ := List.mem_map.mp hx
    exact (mem_cluesBelow.mp hc).1
  · rw [← hcovers.slotHeights] at hfinds
    refine hfinds.imp fun client digest hfound => ?_
    obtain ⟨flags, hflags, hmatches⟩ := hfound
    refine ⟨flags, hflags, fun h => (hmatches h).trans ?_⟩
    simp only [mem_cluesBelow]
    constructor
    · rintro ⟨ct, ⟨hstart, hlt, block, clue, hblock, hclue, hvalid, hct⟩, hpertinent⟩
      exact ⟨hstart, hlt, block, clue, ct, hblock, hclue, hvalid, hct, hpertinent⟩
    · rintro ⟨hstart, hlt, block, clue, ct, hblock, hclue, hvalid, hct, hpertinent⟩
      exact ⟨ct, ⟨hstart, hlt, block, clue, hblock, hclue, hvalid, hct⟩, hpertinent⟩

/-- A digest names to each client the heights with a clue for it, all of them up to where its scan
goes on, and no others. -/
theorem digest_finds_clues {Ip : Type} [DecidableEq Ip] {env : OmrEnv} {s : Cache}
    (hs : Reachable s) (hfit : HeightsFit env.blake3 s) {call : UploadCall Ip}
    {upload : Upload.DetectionKeyUpload env.caps} (hupload : call.read env.caps true = .ok upload)
    (hmax : upload.endHeight ≤ u32Max) {clients : List (UnifOmrClient env.scheme)}
    (hclients : ∀ client ∈ clients, client.Honest)
    (hkeys : List.Forall₂ (fun client key => client.Builds env.networkByte key) clients
      upload.keys) :
    ∃ reply windows digests heights,
      getUnifOmrDigest env call .granted s .new = (.ok reply, windows) ∧
      reply.encryptedDigest = framedDigests digests ∧
      unpackSlotHeights reply.slotHeights = .ok heights ∧
      (∀ h, upload.startHeight ≤ h →
        h < scanEnd upload.startHeight upload.endHeight reply.complete heights →
          (s.blockAt h).isSome = true) ∧
      List.Forall₂ (fun client digest => client.Finds digest heights fun h =>
        upload.startHeight ≤ h ∧
          h < scanEnd upload.startHeight upload.endHeight reply.complete heights ∧
          client.HasClueAt env.blake3 s h) clients digests := by
  obtain ⟨span, hwindow⟩ := window_of_read hupload
  obtain ⟨hle, hspan⟩ := span_le_of_rejectOversizedWindow hwindow
  obtain ⟨d, windows, digests, hrun, hfound⟩ :=
    digestSlots_finds hs.sound hfit hle hspan hmax hclients hkeys
  refine ⟨⟨framedDigests digests, d.complete, packSlotHeights d.slotHeights⟩, windows, digests,
    d.slotHeights, ?_, rfl, hfound.heights, hfound.cached, hfound.finds⟩
  unfold getUnifOmrDigest evaluateDetectionKeys
  simp only [hupload, acquireFhePermit, hrun, hfound.encodes]

end Found

/-! ## A wallet with a secret of zeros -/

section Zero

/-- Filling clues in leaves their number. -/
theorem length_clues_of_filled {S : Submissions} {block block' : CompactBlock}
    (h : block.FilledFrom S block') : block'.clues.length = block.clues.length := by
  unfold CompactBlock.clues
  obtain ⟨-, htxs⟩ := h
  generalize block.txs = txs at htxs
  generalize block'.txs = txs' at htxs
  induction htxs with
  | nil => rfl
  | cons htx _ ih => simp [htx.length, ih]

/-- Blocks with few outputs fit into a digest, whatever was filled in. -/
theorem heightsFit_of_submissions {blake3 : Bytes → Bytes32} {S : Submissions} {s : Cache}
    (hs : FromSubmissions S s) (hfew : ∀ block, S.block block →
      block.clues.length ≤ maxOmrMessages) : HeightsFit blake3 s := by
  intro h
  unfold cluesAt
  cases hblock : s.blockAt h with
  | none => simp
  | some block' =>
    obtain ⟨block, hsubmitted, hfilled⟩ := hs.blocks h _ (get_of_blockAt hblock) block' rfl
    rw [List.length_map]
    exact (List.length_filterMap_le _ _).trans
      ((length_clues_of_filled hfilled).trans_le (hfew block hsubmitted))

/-- The client with the zero secret is honest. -/
theorem zeroClient_honest : zeroClient.Honest where
  ideal := plainScheme_ideal (by decide) (by decide)
  length := List.length_replicate
  ternary _ h := Or.inr (Or.inl (List.eq_of_mem_replicate h))

/-- A key frame is the frame of a ciphertext. -/
theorem keyFrame_eq_frame {S : BfvScheme} {pk : S.PublicKey} {coeff : ℤ} {r : S.Random}
    {bytes : Bytes} (h : keyFrame pk coeff r = .ok bytes) : ∃ ct, bytes = frame (S.toBytes ct) := by
  obtain ⟨pt, -, h⟩ := bind_eq_ok_iff.mp h
  obtain ⟨ct, -, h⟩ := bind_eq_ok_iff.mp h
  exact ⟨ct, (Except.ok.inj h).symm⟩

/-- The length of lists of one length, joined. -/
theorem length_flatten_of_forall₂ {α β : Type} {n : ℕ} {xs : List α} {ys : List (List β)}
    (h : List.Forall₂ (fun _ y => y.length = n) xs ys) : ys.flatten.length = n * xs.length := by
  induction h with
  | nil => rfl
  | cons hlen _ ih =>
    simp [hlen, ih]
    ring

/-- The key has a frame of 32772 bytes for each coefficient. -/
theorem zeroClient_builds : ∃ key, zeroClient.Builds 1 key ∧ key ≠ [] ∧ key.length ≤ 2 ^ 26 := by
  have hframe : ∀ p ∈ zeroClient.clueSk.coeffs.zipIdx,
      ∃ f, keyFrame zeroClient.detPk p.1 () = .ok f ∧ f.length = 32772 := by
    intro p hp
    obtain ⟨bytes, hbytes, -⟩ := keyFrame_ok zeroClient_honest.ideal
      (zeroClient_honest.ternary p.1 (List.fst_mem_of_mem_zipIdx hp)) ()
    obtain ⟨ct, hct⟩ := keyFrame_eq_frame hbytes
    have hwire : ((plainScheme packingDegree clueQ).toBytes ct).length = 8 * packingDegree :=
      length_toBytes_plainScheme ct
    refine ⟨bytes, hbytes, ?_⟩
    rw [hct, length_frame, hwire]
    decide
  obtain ⟨frames, hframes, hlens⟩ := mapM_ok hframe
  have hlen : frames.flatten.length = 32772 * clueN := by
    rw [length_flatten_of_forall₂ hlens, List.length_zipIdx, zeroClient_honest.length]
  have hbuild : zeroClient.buildDetectionKey (fun _ => ()) 1 =
      .ok ([0x02, 1, schemeUnifomr] ++ leBytes 2 clueN ++ frames.flatten) := by
    unfold UnifOmrClient.buildDetectionKey
    rw [hframes]
    rfl
  refine ⟨_, ⟨fun _ => (), hbuild⟩, by simp, ?_⟩
  simp only [List.length_append, hlen, length_leBytes]
  decide

/-- An upload of a key in one chunk, for heights 0 and 1. -/
def oneChunkCall (key : Bytes) : UploadCall ℕ where
  gauges := ⟨fun _ => 0, fun _ => 0, 2 ^ 29, 2⟩
  peer := 0
  allowed := true
  started := 0
  arrivals := [⟨0, 0, .ok ⟨0, 1, 1, key, true⟩⟩]
  closed := ⟨0, 0, ()⟩

/-- Caps that leave room for one key. -/
def zeroCaps : ResourceCaps := applyResourceCaps (2 ^ 26) 512 1

/-- A key in one chunk is read as it was sent. -/
theorem oneChunkCall_read {key : Bytes} (hne : key ≠ []) (hlen : key.length ≤ 2 ^ 26)
    (enforceRange : Bool) :
    ∃ upload, (oneChunkCall key).read zeroCaps enforceRange = .ok upload ∧
      upload.startHeight = 0 ∧ upload.endHeight = 1 ∧ upload.keys = [key] := by
  set chunk : Upload.DetectionKeyChunk := ⟨0, 1, 1, key, true⟩ with hchunk
  set g : Gauges ℕ := ⟨fun _ => 0, fun _ => 0, 2 ^ 29, 2⟩ with hg
  obtain ⟨⟨reservation, g'⟩, hreserve⟩ : ∃ r, reserveUpload zeroCaps g 0 1 = .ok r :=
    (reserveUpload_ok_iff (by decide) (by decide)).mpr ⟨by decide, by decide⟩
  have hheader : Upload.readHeader zeroCaps g 0 enforceRange true chunk = _ :=
    Upload.readHeader_eq_ok (show 1 ≤ 1 ∧ 1 ≤ 16 by decide) (fun _ => ⟨2, rfl⟩) hreserve
  have hclosed : (⟨0, 0, ()⟩ : Upload.Arrival Unit).await (0 + Upload.uploadDeadline) = .ok () :=
    Upload.await_of_prompt (by decide) (Nat.zero_le _) (Nat.zero_le _)
  have hstream := Upload.readStream_eq (Upload.brings_of_prompt [chunk]) hclosed hheader
  set u : Upload.KeyUpload zeroCaps := ⟨0, 1, 1, [], [], reservation, Nat.zero_le _⟩ with hu
  have hcuts : Pieces.Cuts ([chunk].map Upload.DetectionKeyChunk.piece) [key] := .last key .nil
  obtain ⟨hok, hkeys⟩ := @Upload.readChunks_finish zeroCaps (by decide) u rfl [chunk] [key] hcuts
  obtain ⟨upload, hupload⟩ := hok.mpr (by
    refine ⟨rfl, by simpa using hne, fun longest hlongest => ?_, fun k hk => ?_⟩
    · obtain rfl : key.length = longest := by simpa using hlongest
      exact (Nat.one_mul _).trans_le hlen
    · rw [List.mem_singleton.mp hk]
      exact hlen)
  rw [hupload] at hstream
  obtain ⟨v, hv, hfinish⟩ := bind_eq_ok_iff.mp hupload
  obtain ⟨v', hv', hrest⟩ := bind_eq_ok_iff.mp hv
  cases hrest
  obtain ⟨hstart, hend⟩ := window_of_finish hfinish
  obtain ⟨hstart', hend'⟩ := window_of_readChunk hv'
  refine ⟨upload, ?_, hstart.trans hstart', hend.trans hend', hkeys upload hupload⟩
  exact congrArg (Except.map Prod.fst) hstream

/-- A server for these uploads. -/
def zeroEnv : OmrEnv := ⟨plainScheme packingDegree clueQ, zeroHash, 1, zeroCaps⟩

/-- The cache with a clue in its second block. -/
def clueCache : Cache := runCalls [.insert 0 (.sample 0 1 [1] []), .insert 0 clueBlock] .initial

/-- The cache with one clue is reachable. -/
theorem clueCache_reachable : Reachable clueCache := (Reachable.empty 0 _ new_initial).runCalls _

/-- Its heights fit a digest. -/
theorem heightsFit_clueCache : HeightsFit zeroHash clueCache := by
  set S : Submissions := ⟨fun _ _ => False, fun _ _ => False,
    (· ∈ [.sample 0 1 [1] [], clueBlock])⟩ with hS
  have hsample : S.block (.sample 0 1 [1] []) := List.mem_cons_self ..
  have hclue : S.block clueBlock := List.mem_cons_of_mem _ (List.mem_cons_self ..)
  have hfirst : FromSubmissions S beforeClue :=
    (upholds_insertCompactBlock 0 hsample).exec (fromSubmissions_initial S)
  have hsecond : FromSubmissions S clueCache :=
    (upholds_insertCompactBlock 0 hclue).exec hfirst
  refine heightsFit_of_submissions hsecond fun block hblock => ?_
  rcases List.mem_pair.mp hblock with rfl | rfl <;> decide

/-- The digest of that cache finds its clue. -/
theorem digest_finds_clues_clueCache : ∃ key upload reply windows digests heights,
    zeroClient.Builds 1 key ∧ (oneChunkCall key).read zeroCaps true = .ok upload ∧
    getUnifOmrDigest zeroEnv (oneChunkCall key) .granted clueCache .new = (.ok reply, windows) ∧
    reply.encryptedDigest = framedDigests digests ∧
    unpackSlotHeights reply.slotHeights = .ok heights ∧
    (∀ h, upload.startHeight ≤ h →
      h < scanEnd upload.startHeight upload.endHeight reply.complete heights →
        (clueCache.blockAt h).isSome = true) ∧
    List.Forall₂ (fun client digest => client.Finds digest heights fun h =>
      upload.startHeight ≤ h ∧
        h < scanEnd upload.startHeight upload.endHeight reply.complete heights ∧
        client.HasClueAt zeroHash clueCache h) [zeroClient] digests := by
  obtain ⟨key, hbuilds, hne, hlen⟩ := zeroClient_builds
  obtain ⟨upload, hread, -, hend, hkeys⟩ := oneChunkCall_read hne hlen true
  have hmax : upload.endHeight ≤ u32Max := by
    rw [hend]
    decide
  obtain ⟨reply, windows, digests, heights, hdigest⟩ :=
    @digest_finds_clues ℕ _ zeroEnv _ clueCache_reachable heightsFit_clueCache (oneChunkCall key)
      upload hread hmax [zeroClient]
      (fun client hclient => List.mem_singleton.mp hclient ▸ zeroClient_honest)
      (hkeys ▸ .cons hbuilds .nil)
  exact ⟨key, upload, reply, windows, digests, heights, hbuilds, hread, hdigest⟩

end Zero

end LightWalletd
