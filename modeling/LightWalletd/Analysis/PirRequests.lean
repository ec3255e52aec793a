import LightWalletd.Analysis.PirExact
import LightWalletd.Analysis.WindowCoherence
import LightWalletd.Model.PirRequests

/-!
# Retrieval while the chain grows

A wallet fetches the limbs of its rows one by one, and between two requests the server goes on: it
indexes blocks above the window, takes clues and answers others, whose windows take the place of
kept ones. The limbs still fit together, and the wallet gets the blocks of the window as they were.
-/

set_option autoImplicit false

namespace LightWalletd

open Stateful

/-! ## What the server does in between -/

section Between

variable {encodeToVec : EncodeToVec} {start last : ℕ} {payloads : List Bytes}

/-- A call that leaves the blocks up to `last` alone. -/
def WindowOp.Above (last : ℕ) : WindowOp → Prop
  | .insert _ block => last < block.height
  | .rewind _ => False
  | .hint .. => True
  | .digest .. => True
  | .pir .. => True

/-- The window has these payloads, in the cache and where it is kept. -/
structure WindowHas (encodeToVec : EncodeToVec) (start last : ℕ) (payloads : List Bytes)
    (s : ServerState) : Prop where
  le : start ≤ last
  sound : s.cache.db.blocks.Sound
  tip : ∃ tip hash, s.cache.db.blocks.readTip = .ok (some (tip, hash)) ∧ last ≤ tip
  cached : windowPayloads encodeToVec s.cache start last = payloads
  kept : s.pirWindows.All fun first stop found => first = start → stop = last → found = payloads

/-- What a request leaves of the kept windows. -/
theorem pirWindowPayloads_keeps {s : Cache} (hs : s.db.blocks.Sound) {windows : PirWindows}
    (hle : start ≤ last) {found : List Bytes × PirWindows}
    (h : ((pirWindowPayloads encodeToVec windows start last).run s).1 = .ok found) :
    found.2 = windows ∨ found.2 = windows.record pirWindowCap start last (s.pirEndHash last)
      (windowPayloads encodeToVec s start last) := by
  rw [pirWindowPayloads_run hs windows hle] at h
  unfold WindowCache.record
  cases hget : windows.get start last (s.pirEndHash last) with
  | some kept =>
    rw [hget] at h
    cases h
    exact Or.inl rfl
  | none =>
    rw [hget, loadPirWindowPayloads_run hs hle] at h
    by_cases hlarge : maxPirWindowEncodedBytes <
        ((windowPayloads encodeToVec s start last).map List.length).sum
    · rw [if_pos hlarge] at h
      cases h
    · rw [if_neg hlarge] at h
      cases h
      by_cases hzero : s.pirEndHash last ≠ Bytes32.fill 0
      · exact Or.inr (if_pos hzero)
      · exact Or.inl (if_neg hzero)

namespace WindowHas

variable {s : ServerState}

/-- The windows stay right when one is kept that was read now. -/
theorem keeps (h : WindowHas encodeToVec start last payloads s) {start' last' : ℕ}
    (hle : start' ≤ last') {found : List Bytes × PirWindows}
    (hfound : ((pirWindowPayloads encodeToVec s.pirWindows start' last').run s.cache).1 =
      .ok found) :
    WindowHas encodeToVec start last payloads { s with pirWindows := found.2 } := by
  refine ⟨h.le, h.sound, h.tip, h.cached, ?_⟩
  rcases pirWindowPayloads_keeps h.sound hle hfound with hsame | hrecord
  · rw [hsame]
    exact h.kept
  · rw [hrecord]
    refine h.kept.record pirWindowCap _ fun hstart hlast => ?_
    rw [hstart, hlast]
    exact h.cached

/-- The window is found, whether or not it is kept. -/
theorem found (h : WindowHas encodeToVec start last payloads s)
    (hfits : (payloads.map List.length).sum ≤ maxPirWindowEncodedBytes) :
    ∃ windows, ((pirWindowPayloads encodeToVec s.pirWindows start last).run s.cache).1 =
      .ok (payloads, windows) := by
  rw [pirWindowPayloads_run h.sound s.pirWindows h.le]
  cases hget : s.pirWindows.get start last (s.cache.pirEndHash last) with
  | some kept =>
    obtain rfl : kept = payloads := h.kept _ (WindowCache.mem_of_get hget) rfl rfl
    exact ⟨_, rfl⟩
  | none =>
    rw [loadPirWindowPayloads_run h.sound h.le, h.cached, if_neg (not_lt.mpr hfits)]
    exact ⟨_, rfl⟩

/-- What is not written stays. -/
theorem of_blocks (h : WindowHas encodeToVec start last payloads s) {cache : Cache}
    (hblocks : cache.db.blocks = s.cache.db.blocks) :
    WindowHas encodeToVec start last payloads { s with cache := cache } := by
  obtain ⟨hle, hsound, htip, hcached, hkept⟩ := h
  refine ⟨hle, hblocks ▸ hsound, hblocks ▸ htip, ?_, hkept⟩
  rw [← hcached]
  unfold windowPayloads payloadAt Cache.blockAt
  rw [hblocks]

end WindowHas

/-- An insertion leaves the blocks of other heights alone. -/
theorem blockAt_insert_of_ne {now h : ℕ} {block : CompactBlock} (s : Cache)
    (hne : h ≠ block.height) :
    ((insertCompactBlock now block).exec s).blockAt h = s.blockAt h := by
  obtain ⟨merged, hsame, hblocks⟩ := insertCompactBlock_blocks now block s
  have hother : ∀ b : BlockRows, (b.inserted merged).compactBlocks.get h = b.compactBlocks.get h := by
    intro b
    have hstore : (b.store merged).compactBlocks.get h = b.compactBlocks.get h := by
      simp [BlockRows.store, hsame.height, hne]
    unfold BlockRows.inserted
    rcases b.readTip with e | _ | ⟨tip, hash⟩
    · exact hstore
    · exact hstore
    · by_cases hlt : merged.height < tip
      · simp only [if_pos hlt]
        exact hstore
      · simp only [if_neg hlt]
        exact hstore
  unfold Cache.blockAt
  rw [hblocks, hother]

/-- A block above the window leaves the window below the tip. -/
theorem tip_insert_above {now : ℕ} {block : CompactBlock} {s : Cache}
    (habove : last < block.height)
    (htip : ∃ tip hash, s.db.blocks.readTip = .ok (some (tip, hash)) ∧ last ≤ tip) :
    ∃ tip hash, ((insertCompactBlock now block).exec s).db.blocks.readTip =
      .ok (some (tip, hash)) ∧ last ≤ tip := by
  obtain ⟨merged, hsame, hblocks⟩ := insertCompactBlock_blocks now block s
  obtain ⟨tip, hash, hread, hle⟩ := htip
  rw [hblocks]
  unfold BlockRows.inserted
  rw [hread]
  dsimp only
  by_cases hlt : merged.height < tip
  · rw [if_pos hlt]
    exact ⟨tip, hash, hread, hle⟩
  · rw [if_neg hlt]
    refine ⟨merged.height, merged.hash, BlockRows.readTip_setTip _ _, ?_⟩
    rw [hsame.height]
    exact habove.le

/-- A call that leaves the window alone. -/
theorem WindowHas.apply {s : ServerState} (h : WindowHas encodeToVec start last payloads s)
    (blake3 : Bytes → Bytes32) {op : WindowOp} (hop : op.Above last) :
    WindowHas encodeToVec start last payloads (op.apply blake3 encodeToVec s) := by
  cases op with
  | insert now block =>
    have hop : last < block.height := hop
    refine ⟨h.le, (CacheOp.insert now block).sound_apply h.sound, tip_insert_above hop h.tip, ?_,
      h.kept⟩
    rw [← h.cached]
    refine (windowPayloads_eq_iff h.le).mpr fun height _ hle => ?_
    have hsame := @blockAt_insert_of_ne now height block s.cache (hle.trans_lt hop).ne
    exact congrArg (fun b => (b.map (encodeCompactBlockForPir encodeToVec)).getD []) hsame
  | rewind height => exact absurd hop id
  | hint now txHash clue outputIndex =>
    have hbeside := (storeOmrClueHint_keeps now txHash clue outputIndex).exec
      (Eq.refl s.cache.besideOmr)
    exact h.of_blocks (congrArg Prod.fst hbeside)
  | digest start' last' =>
    rw [WindowOp.apply]
    cases ((digestSlots blake3 s.clueWindows start' last').run s.cache).1 with
    | error e => exact h
    | ok found => exact ⟨h.le, h.sound, h.tip, h.cached, h.kept⟩
  | pir start' last' =>
    rw [WindowOp.apply]
    cases hfetch : ((fetchPirPayloads encodeToVec s.pirWindows start' last').run s.cache).1 with
    | error e => exact h
    | ok found =>
      obtain ⟨⟨hle, -⟩, hfound⟩ := fetchPirPayloads_ok hfetch
      exact h.keeps hle hfound

end Between

/-! ## A request -/

section Request

variable {Ip : Type} [DecidableEq Ip] {S : BfvScheme} {client : BatchPirClient S}
  {encodeToVec : EncodeToVec}

/-- No limit stands in the way of the request. -/
structure PirCall.Admitted (call : PirCall Ip) : Prop where
  allowed : call.allowed = true
  slot : ∃ g, beginPir call.gauges call.peer = .ok g
  permit : call.permit = .granted

/-- A request within the limits is evaluated on the payloads of its window. -/
theorem fetchPirBatch_run {call : PirCall Ip} (hcall : call.Admitted)
    {req : Proto.BatchPirRequest} {window : ℕ} (hreq : checkPirRequest req = .ok window)
    {s : Cache} (htip : ∃ tip hash, s.db.blocks.readTip = .ok (some (tip, hash)) ∧
      req.endHeight ≤ tip) {windows : PirWindows} {found : List Bytes × PirWindows}
    (hfound : ((pirWindowPayloads encodeToVec windows req.startHeight req.endHeight).run s).1 =
      .ok found) {responses : List Bytes}
    (hresponses : evaluateSealpirStripes S req.queryCiphertexts
      (limbColumn found.1 req.limbIndex) window = .ok responses) :
    ((fetchPirBatch S encodeToVec call req windows).run s).1 =
      .ok (.ok responses, found.2) := by
  obtain ⟨g, hslot⟩ := hcall.slot
  obtain ⟨tip, hash, hread, hle⟩ := htip
  have hget : (getTip.mapError cacheStatus).run s = (.ok (some (tip, hash)), s) :=
    Prog.run_mapError_of_ok ((getTip_run s).trans (Prod.ext hread rfl))
  have hpayloads : (pirWindowPayloads encodeToVec windows req.startHeight req.endHeight).run s =
      (.ok found, ((pirWindowPayloads encodeToVec windows req.startHeight req.endHeight).run s).2) :=
    Prod.ext hfound rfl
  unfold fetchPirBatch
  rw [hcall.allowed, hslot, hreq, hcall.permit, show checkPirRateLimit true = .ok () from rfl,
    show acquireFhePermit .granted = .ok () from rfl]
  rw [Prog.bind_eq, Prog.run_bind_of_ok (run_liftStatus _ s), Prog.bind_eq,
    Prog.run_bind_of_ok (run_liftStatus _ s), Prog.bind_eq,
    Prog.run_bind_of_ok (run_liftStatus _ s), Prog.bind_eq, Prog.run_bind_of_ok hget]
  dsimp only
  rw [if_neg (not_lt.mpr hle), Prog.bind_eq, Prog.run_bind_of_ok (run_liftStatus _ s),
    Prog.bind_eq, Prog.run_bind_of_ok hpayloads]
  rw [hresponses]
  rfl

/-- What a client sends is within the limits on requests. -/
theorem checkPirRequest_ok
    (hsize : ∀ ct, S.polynomials ct = 2 → (S.toBytes ct).length ≤ maxPirQueryCtBytes)
    {sk : S.SecretKey} {indices : List ℕ} {start last window : ℕ} {queries : List Bytes}
    (hwindow : rejectOversizedWindow start last = .ok window)
    (hqueries : List.Forall₂ (IsQuery sk indices)
      (List.range (sealpirStripeCount window packingDegree)) queries) {j : ℕ}
    (hj : j < maxPirLimbs) : checkPirRequest ⟨queries, start, last, j⟩ = .ok window := by
  have hlen : queries.length = sealpirStripeCount window packingDegree := by
    rw [← hqueries.length_eq, List.length_range]
  have hsome : ¬ queries.isEmpty = true := by
    rw [List.isEmpty_iff]
    rintro rfl
    exact (sealpirStripeCount_pos window).ne hlen
  have hstripes : sealpirStripeCount window packingDegree ≤ maxPirStripes := by
    obtain ⟨hle, hspan⟩ := span_le_of_rejectOversizedWindow hwindow
    rw [rejectOversizedWindow_eq hle hspan] at hwindow
    exact sealpirStripeCount_le (Except.ok.inj hwindow ▸ hspan)
  have hshort : ¬ (queries.any fun ct => decide (maxPirQueryCtBytes < ct.length)) = true := by
    have hbytes : List.Forall₂ (fun query _ => query.length ≤ maxPirQueryCtBytes ∧ True) queries
        (List.range (sealpirStripeCount window packingDegree)) := by
      refine hqueries.flip.imp fun query stripe hquery => ⟨?_, trivial⟩
      obtain ⟨ct, rfl, hpolynomials, -⟩ := hquery
      exact hsize ct hpolynomials
    rw [List.any_eq_true]
    rintro ⟨query, hquery, hlong⟩
    have hle := ((List.forall₂_and_left _ _).mp hbytes).1 query hquery
    exact absurd (of_decide_eq_true hlong) hle.not_gt
  unfold checkPirRequest
  rw [if_neg hsome, hwindow]
  show (if maxPirStripes < sealpirStripeCount window packingDegree then _ else _) = _
  rw [if_neg hstripes.not_gt, if_neg (not_not.mpr hlen), if_neg hshort, if_neg hj.not_ge]

/-- A request fetches the column, and the server still has the window. -/
theorem fetchLimb_ok (ideal : S.Ideal client.secretKey client.publicKey)
    (hsize : ∀ ct, S.polynomials ct = 2 → (S.toBytes ct).length ≤ maxPirQueryCtBytes)
    {call : PirCall Ip} (hcall : call.Admitted) {start last : ℕ} {payloads : List Bytes}
    {s : ServerState} (h : WindowHas encodeToVec start last payloads s)
    (hfits : (payloads.map List.length).sum ≤ maxPirWindowEncodedBytes)
    (hwindow : rejectOversizedWindow start last = .ok payloads.length) {indices : List ℕ}
    (hne : indices ≠ []) (hin : ∀ i ∈ indices, i < payloads.length) (draws : ℕ → S.Random) {j : ℕ}
    (hj : j < maxPirLimbs) :
    ∃ col windows, client.fetchLimb encodeToVec call draws start last indices j s.pirWindows
        s.cache = (.ok col, windows) ∧ IsColumn indices payloads j col ∧
      WindowHas encodeToVec start last payloads { s with pirWindows := windows } := by
  have hmax := (span_le_of_rejectOversizedWindow hwindow).2
  have hspan : last - start + 1 = payloads.length := by
    rw [rejectOversizedWindow_eq h.le hmax] at hwindow
    exact Except.ok.inj hwindow
  obtain ⟨queries, hgenerate, hqueries⟩ :=
    generateSealpirQueries_ok ideal (hspan ▸ hmax) hne hin draws
  obtain ⟨responses, hevaluate, col, hdecrypt, hcol⟩ := evaluateSealpirStripes_ok ideal hqueries j
  obtain ⟨windows, hfound⟩ := h.found hfits
  have hfetch := fetchPirBatch_run hcall (checkPirRequest_ok hsize hwindow hqueries hj) h.tip hfound
    hevaluate
  refine ⟨col, windows, ?_, hcol, h.keeps h.le hfound⟩
  unfold BatchPirClient.fetchLimb
  dsimp only
  rw [hspan, hgenerate]
  dsimp only
  rw [hfetch, ← hdecrypt]

end Request

/-! ## A session -/

section Session

variable {Ip : Type} {S : BfvScheme} {client : BatchPirClient S} {blake3 : Bytes → Bytes32}
  {encodeToVec : EncodeToVec}

/-- A round of a session: what the server does first, then the request for a column. -/
structure PirRound (Ip : Type) (S : BfvScheme) where
  before : List WindowOp
  call : PirCall Ip
  draws : ℕ → S.Random

/-- The server before the request of the round. -/
def PirRound.server (round : PirRound Ip S) (blake3 : Bytes → Bytes32) (encodeToVec : EncodeToVec)
    (s : ServerState) : ServerState :=
  round.before.foldl (fun s op => op.apply blake3 encodeToVec s) s

/-- What a window has stays as rounds above it go on. -/
theorem WindowHas.server {start last : ℕ} {payloads : List Bytes} {s : ServerState}
    (h : WindowHas encodeToVec start last payloads s) {round : PirRound Ip S}
    (habove : ∀ op ∈ round.before, op.Above last) :
    WindowHas encodeToVec start last payloads (round.server blake3 encodeToVec s) := by
  unfold PirRound.server
  revert habove
  generalize round.before = ops
  intro habove
  induction ops generalizing s with
  | nil => exact h
  | cons op ops ih =>
    rw [List.foldl_cons]
    exact ih (h.apply blake3 (habove op List.mem_cons_self))
      fun op' hop' => habove op' (List.mem_cons_of_mem op hop')

variable [DecidableEq Ip]

/-- The columns of the rounds from `j` on, up to a request that fails, with the server after
them. -/
def BatchPirClient.fetchLimbs (client : BatchPirClient S) (blake3 : Bytes → Bytes32)
    (encodeToVec : EncodeToVec) (start last : ℕ) (indices : List ℕ) :
    ℕ → List (PirRound Ip S) → ServerState → Except String (List (List ℕ)) × ServerState
  | _, [], s => (.ok [], s)
  | j, round :: rounds, s =>
    let s := round.server blake3 encodeToVec s
    let (col, windows) := client.fetchLimb encodeToVec round.call round.draws start last indices j
      s.pirWindows s.cache
    let s := { s with pirWindows := windows }
    match col with
    | .error e => (.error e, s)
    | .ok col =>
      let (cols, s) := client.fetchLimbs blake3 encodeToVec start last indices (j + 1) rounds s
      (cols.map (col :: ·), s)

/-- The server leaves the window alone, and the request is within the limits. -/
structure PirRound.Undisturbed (last : ℕ) (round : PirRound Ip S) : Prop where
  above : ∀ op ∈ round.before, op.Above last
  admitted : round.call.Admitted

/-- The columns of a session fit together, whatever happens between the requests. -/
theorem fetchLimbs_ok (blake3 : Bytes → Bytes32)
    (ideal : S.Ideal client.secretKey client.publicKey)
    (hsize : ∀ ct, S.polynomials ct = 2 → (S.toBytes ct).length ≤ maxPirQueryCtBytes)
    {start last : ℕ} {payloads : List Bytes}
    (hfits : (payloads.map List.length).sum ≤ maxPirWindowEncodedBytes)
    (hwindow : rejectOversizedWindow start last = .ok payloads.length) {indices : List ℕ}
    (hne : indices ≠ []) (hin : ∀ i ∈ indices, i < payloads.length)
    {rounds : List (PirRound Ip S)} (hrounds : ∀ round ∈ rounds, round.Undisturbed last) {j : ℕ}
    (hj : j + rounds.length ≤ maxPirLimbs) {s : ServerState}
    (h : WindowHas encodeToVec start last payloads s) :
    ∃ cols s', client.fetchLimbs blake3 encodeToVec start last indices j rounds s =
        (.ok cols, s') ∧ WindowHas encodeToVec start last payloads s' ∧
      List.Forall₂ (IsColumn indices payloads) (List.range' j rounds.length) cols := by
  induction rounds generalizing j s with
  | nil => exact ⟨[], s, rfl, h, .nil⟩
  | cons round rounds ih =>
    rw [List.length_cons] at hj
    have hround := hrounds round List.mem_cons_self
    obtain ⟨col, windows, hfetch, hcol, hafter⟩ := fetchLimb_ok ideal hsize hround.admitted
      (h.server hround.above) hfits hwindow hne hin round.draws
      (show j < maxPirLimbs by omega)
    obtain ⟨cols, s', hcols, hlast, hall⟩ := ih
      (fun round' hround' => hrounds round' (List.mem_cons_of_mem round hround'))
      (show j + 1 + rounds.length ≤ maxPirLimbs by omega) hafter
    refine ⟨col :: cols, s', ?_, hlast, .cons hcol hall⟩
    rw [BatchPirClient.fetchLimbs]
    dsimp only
    rw [hfetch]
    dsimp only
    rw [hcols]
    rfl

/-- A row of the window is the payload of its height. -/
theorem getD_windowPayloads {s : Cache} {start last i : ℕ} (hi : i < last - start + 1) :
    (windowPayloads encodeToVec s start last).getD i [] = payloadAt encodeToVec s (start + i) := by
  unfold windowPayloads
  rw [List.getD_eq_getElem _ _ (by rw [List.length_map, List.length_range']; exact hi),
    List.getElem_map, List.getElem_range', Nat.one_mul]

/-- A client whose session has a round for every limb of the blocks it asks for gets these blocks,
as the server had them when the session began, although blocks above the window are indexed in
between and other windows take the place of kept ones. What is kept of the window at first has to
be what the store has. -/
theorem retrieval_while_growing (ideal : S.Ideal client.secretKey client.publicKey)
    (hsize : ∀ ct, S.polynomials ct = 2 → (S.toBytes ct).length ≤ maxPirQueryCtBytes)
    {s : ServerState} (hrun : WindowRun blake3 encodeToVec s)
    {start last span : ℕ}
    (hwindow : rejectOversizedWindow start last = .ok span)
    (htip : ∃ tip hash, s.cache.db.blocks.readTip = .ok (some (tip, hash)) ∧ last ≤ tip)
    (hfits : ((windowPayloads encodeToVec s.cache start last).map List.length).sum ≤
      maxPirWindowEncodedBytes)
    (hkept : s.pirWindows.All fun first stop found => first = start → stop = last →
      found = windowPayloads encodeToVec s.cache start last)
    {indices : List ℕ} (hne : indices ≠ []) (hin : ∀ i ∈ indices, i < span)
    {rounds : List (PirRound Ip S)} (hrounds : ∀ round ∈ rounds, round.Undisturbed last)
    (hmax : rounds.length ≤ maxPirLimbs)
    (henough : ∀ i ∈ indices, ∀ need, pirPayloadLimbCount
      (payloadAt encodeToVec s.cache (start + i)).length = some need → need ≤ rounds.length) :
    ∃ cols s', client.fetchLimbs blake3 encodeToVec start last indices 0 rounds s = (.ok cols, s') ∧
      assemblePayloads indices cols = indices.map fun i =>
        let payload := payloadAt encodeToVec s.cache (start + i)
        if payload.length ≤ maxPirPayloadBytes then payload else [] := by
  obtain ⟨hle, hmaxSpan⟩ := span_le_of_rejectOversizedWindow hwindow
  obtain rfl : last - start + 1 = span := by
    rw [rejectOversizedWindow_eq hle hmaxSpan] at hwindow
    exact Except.ok.inj hwindow
  have hlen : (windowPayloads encodeToVec s.cache start last).length = last - start + 1 := by
    rw [windowPayloads, List.length_map, List.length_range']
  rw [← hlen] at hwindow
  have hin' : ∀ i ∈ indices, i < (windowPayloads encodeToVec s.cache start last).length :=
    fun i hi => hlen ▸ hin i hi
  obtain ⟨cols, s', hcols, -, hall⟩ := fetchLimbs_ok blake3 ideal hsize hfits hwindow hne hin'
    hrounds (show 0 + rounds.length ≤ maxPirLimbs by omega) ⟨hle, hrun.invariant.sound, htip, rfl, hkept⟩
  refine ⟨cols, s', hcols, ?_⟩
  unfold assemblePayloads
  apply List.map_congr_left
  intro i hi
  rw [← List.range_eq_range'] at hall
  rw [map_getD_cols hi (hin' i hi) hall, getD_windowPayloads (hin i hi),
    decodeLengthPrefixedLimbs_ok (henough i hi)]

/-- Blocks 0 and 1. -/
def growthStart : List WindowOp :=
  [.insert 0 (.sample 0 1 [1] []), .insert 0 (.sample 1 2 [2] [])]

/-- A client of the plain scheme. -/
def plainClient : BatchPirClient (plainScheme packingDegree clueQ) := ⟨(), ()⟩

/-- Block 2 comes and another window is asked for. -/
def growingRound : PirRound ℕ (plainScheme packingDegree clueQ) where
  before := [.insert 0 (.sample 2 3 [3] []), .pir 0 2]
  call := ⟨⟨fun _ => 0, fun _ => 0, 0, 1⟩, 0, true, .granted⟩
  draws _ := ()

/-- Block 1 is fetched while block 2 comes. -/
theorem retrieval_while_growing_plain :
    ∃ cols s', plainClient.fetchLimbs (fun _ => Bytes32.fill 0) Proto.CompactBlock.hash 0 1 [1] 0
        (List.replicate 17 growingRound) (plainWindows growthStart) = (.ok cols, s') ∧
      assemblePayloads [1] cols = [(Bytes32.fill 2).1] := by
  have hpayload : payloadAt Proto.CompactBlock.hash (plainWindows growthStart).cache 1 =
      (Bytes32.fill 2).1 := by decide +kernel
  have hlen : (Bytes32.fill 2).1.length = 32 := (Bytes32.fill 2).2
  have hrun : WindowRun (fun _ => Bytes32.fill 0) Proto.CompactBlock.hash
      (plainWindows growthStart) := windowRun_plainWindows growthStart
  have hround : growingRound.Undisturbed 1 :=
    ⟨by simp [growingRound, WindowOp.Above, CompactBlock.sample], rfl, ⟨_, rfl⟩, rfl⟩
  have hideal : (plainScheme packingDegree clueQ).Ideal plainClient.secretKey
      plainClient.publicKey := plainScheme_ideal (by decide) (by decide)
  obtain ⟨cols, s', hcols, hpayloads⟩ := retrieval_while_growing hideal
    (fun ct _ => (length_toBytes_plainScheme ct).trans_le (by decide)) hrun
    (show rejectOversizedWindow 0 1 = .ok 2 from rfl) ⟨1, Bytes32.fill 2, by decide +kernel, le_rfl⟩
    (by decide +kernel) (fun e he => by cases he) (List.cons_ne_nil 1 []) (by simp)
    (fun round hround' => (List.eq_of_mem_replicate hround').symm ▸ hround)
    (show (List.replicate 17 growingRound).length ≤ maxPirLimbs by decide)
    (fun i hi need hneed => by
      obtain rfl : i = 1 := by simpa using hi
      rw [Nat.zero_add, hpayload, hlen] at hneed
      rw [List.length_replicate, ← Option.some.inj hneed]
      decide)
  refine ⟨cols, s', hcols, hpayloads.trans ?_⟩
  simp [hpayload, hlen, maxPirPayloadBytes, maxPirLimbs, pirLimbBytes]

end Session

end LightWalletd
