import LightWalletd.Analysis.CancelledRequests
import LightWalletd.Analysis.KeyUpload

/-!
# Uploads as load

The caps of the server are about lengths, an upload is about bytes. Read by the lengths of their
keys, the messages of an upload are steps of the server's load: an upload that succeeds leaves its
request waiting for a worker, with the lengths of its keys, and one that fails gives back what it
reserved. So the keys of an upload are within the budget beside whatever else is going on.
-/

set_option autoImplicit false

namespace LightWalletd

namespace Upload

open Reservations

variable {Ip : Type} [DecidableEq Ip] {caps : ResourceCaps}

/-! ## By length -/

/-- A chunk, its data by the length. -/
def DetectionKeyChunk.lengths (c : DetectionKeyChunk) : Proto.DetectionKeyChunk where
  startHeight := c.startHeight
  endHeight := c.endHeight
  numKeys := c.numKeys
  dataLen := c.data.length
  keyDone := c.keyDone

/-- An upload, its keys by their lengths. -/
def KeyUpload.lengths (u : KeyUpload caps) : LightWalletd.KeyUpload caps where
  numKeys := u.numKeys
  keys := u.keys.map List.length
  currentKey := u.currentKey.length
  reservation := u.reservation
  fits := u.fits

/-- The header is checked and reserves alike. -/
theorem readHeader_lengths (g : Gauges Ip) (peer : Ip) (allowed : Bool) (c : DetectionKeyChunk) :
    (readHeader caps g peer true allowed c).map (fun r => (r.1.lengths, r.2)) =
      LightWalletd.readHeader caps g peer c.lengths allowed := by
  have hnumKeys : c.lengths.numKeys = c.numKeys := rfl
  unfold readHeader LightWalletd.readHeader
  rw [hnumKeys, if_pos rfl]
  by_cases hnone : c.numKeys = 0
  · rw [if_pos hnone, if_pos hnone]
    rfl
  by_cases hmany : 16 < c.numKeys
  · rw [if_neg hnone, if_pos hmany, if_neg hnone, if_pos hmany]
    rfl
  have hstart : c.lengths.startHeight = c.startHeight := rfl
  have hend : c.lengths.endHeight = c.endHeight := rfl
  rw [if_neg hnone, if_neg hmany, if_neg hnone, if_neg hmany, hstart, hend]
  cases rejectOversizedWindow c.startHeight c.endHeight with
  | error e => rfl
  | ok span =>
    cases allowed with
    | false => rfl
    | true =>
      cases hreserve : reserveUpload caps g peer c.numKeys with
      | error e => simp [Except.map]
      | ok r => rfl

/-- The data of a chunk are read alike. -/
theorem readChunk_lengths (u : KeyUpload caps) (c : DetectionKeyChunk) :
    (u.readChunk c).map KeyUpload.lengths = u.lengths.readChunk c.lengths := by
  obtain ⟨startHeight, endHeight, numKeys, data, keyDone⟩ := c
  unfold KeyUpload.readChunk LightWalletd.KeyUpload.readChunk
  simp only [KeyUpload.lengths, DetectionKeyChunk.lengths, List.length_append, List.length_map]
  by_cases hlarge : caps.maxDetectionKeyBytes < u.currentKey.length + data.length
  · simp only [if_pos hlarge]
    rfl
  simp only [if_neg hlarge]
  by_cases htotal : caps.maxDetectionKeysTotalBytes <
      (u.keys.map List.length).sum + (u.currentKey.length + data.length)
  · cases keyDone with
    | true => simp [htotal, Except.map]
    | false => simp [htotal, Except.map]
  · cases keyDone with
    | true => simp [htotal, Except.map, KeyUpload.lengths]
    | false => simp [htotal, Except.map, KeyUpload.lengths]

/-- The longest key. -/
theorem max?_getD_eq_foldl (lengths : List ℕ) : lengths.max?.getD 0 = lengths.foldl max 0 := by
  cases lengths with
  | nil => rfl
  | cons l lengths => rw [List.max?_cons', Option.getD_some, List.foldl_cons, Nat.zero_max]

/-- The checks behind the last chunk come out alike. -/
theorem finish_lengths (hcaps : caps.maxDetectionKeysTotalBytes < u64Max) (u : KeyUpload caps) :
    u.finish.map (fun uploaded => uploaded.keys.map List.length) =
      u.lengths.finish.map fun uploaded => uploaded.keys := by
  have hany : (u.lengths.keys.any fun k => k = 0) = u.keys.any List.isEmpty := by
    rw [KeyUpload.lengths, List.any_map]
    congr 1
    funext k
    cases k with
    | nil => rfl
    | cons b k => rfl
  have hlength : u.lengths.keys.length = u.keys.length := List.length_map _
  have hnumKeys : u.lengths.numKeys = u.numKeys := rfl
  have hcurrent : u.lengths.currentKey ≠ 0 ↔ u.currentKey ≠ [] := by
    rw [not_iff_not]
    exact List.length_eq_zero_iff
  have hmax : u.lengths.keys.foldl max 0 = (u.keys.map List.length).max?.getD 0 :=
    (max?_getD_eq_foldl _).symm
  unfold KeyUpload.finish LightWalletd.KeyUpload.finish
  simp only [hany, hlength, hnumKeys, hcurrent, hmax]
  by_cases hopen : u.currentKey ≠ []
  · simp only [if_pos hopen]
    rfl
  by_cases hcount : u.keys.length ≠ u.numKeys
  · simp only [if_neg hopen, if_pos hcount]
    rfl
  by_cases hempty : u.keys.any List.isEmpty = true
  · simp only [if_neg hopen, if_neg hcount, if_pos hempty]
    rfl
  simp only [if_neg hopen, if_neg hcount, if_neg hempty]
  cases hlongest : (u.keys.map List.length).max? with
  | none =>
    rw [if_neg (by simp)]
    rfl
  | some longest =>
    simp only [lt_saturatingMul64_iff hcaps, Option.getD_some]
    by_cases hproduct : caps.maxDetectionKeysTotalBytes < u.keys.length * longest
    · simp only [if_pos hproduct]
      rfl
    · simp only [if_neg hproduct]
      rfl

/-- What is returned at the end has the lengths that were counted, and the reservation. -/
theorem finish_lengths_ok (hcaps : caps.maxDetectionKeysTotalBytes < u64Max) {u : KeyUpload caps}
    {uploaded : DetectionKeyUpload caps} (h : u.finish = .ok uploaded) :
    ∃ d, u.lengths.finish = .ok d ∧ d.keys = uploaded.keys.map List.length ∧
      d.reservation = uploaded.reservation := by
  have hsame := finish_lengths hcaps u
  rw [h] at hsame
  cases hfinish : u.lengths.finish with
  | error e =>
    rw [hfinish] at hsame
    cases hsame
  | ok d =>
    rw [hfinish] at hsame
    obtain ⟨hreservation, -⟩ := finish_ok hfinish
    exact ⟨d, rfl, (Except.ok.inj hsame).symm, hreservation.trans (finish_eq_ok h).2.symm⟩

/-- What fails at the end fails by its lengths. -/
theorem finish_lengths_error (hcaps : caps.maxDetectionKeysTotalBytes < u64Max) {u : KeyUpload caps}
    {e : Status} (h : u.finish = .error e) : ∃ e, u.lengths.finish = .error e := by
  have hsame := finish_lengths hcaps u
  rw [h] at hsame
  cases hfinish : u.lengths.finish with
  | error e => exact ⟨e, rfl⟩
  | ok d =>
    rw [hfinish] at hsame
    cases hsame

/-! ## The request of an upload -/

/-- Giving a reservation back undoes it. -/
theorem dropReservation_of_reserve {g g' : Gauges Ip} {peer : Ip} {numKeys : ℕ}
    {reservation : UploadReservation caps}
    (h : reserveUpload caps g peer numKeys = .ok (reservation, g')) :
    g'.dropReservation peer reservation = g := by
  unfold reserveUpload at h
  cases hslots : trySlot g.uploadSlots peer caps.maxUploadsPerIp with
  | error e =>
    simp only [hslots] at h
    split_ifs at h
  | ok slots =>
    simp only [hslots] at h
    split_ifs at h with hlarge hzero hroom
    obtain ⟨hreservation, rfl⟩ := Prod.mk.inj (Except.ok.inj h)
    obtain ⟨-, rfl⟩ := trySlot_ok hslots
    unfold Gauges.dropReservation dropSlot
    rw [← hreservation]
    dsimp only
    rw [Function.update_idem, Function.update_self, Nat.add_sub_cancel, Function.update_eq_self,
      Nat.sub_add_cancel (not_lt.mp hroom)]

/-- Request `i` is where the loop of its upload is; `g` are the gauges before the upload. -/
inductive Reading (g : Gauges Ip) (s : ServerLoad caps Ip) (i : ℕ) (peer : Ip) :
    Option (KeyUpload caps × Gauges Ip) → Prop
  | opened (request : s.requests[i]? = some ⟨peer, .opened⟩) (gauges : s.gauges = g) :
    Reading g s i peer none
  | uploading {u : KeyUpload caps} (request : s.requests[i]? = some ⟨peer, .uploading u.lengths⟩)
      (reserved : s.gauges.dropReservation peer u.reservation = g)
      (small : caps.maxDetectionKeysTotalBytes < u64Max) :
    Reading g s i peer (some (u, s.gauges))

/-- Request `i` is over, and the gauges are those before it. -/
structure GivenBack (g : Gauges Ip) (s : ServerLoad caps Ip) (i : ℕ) (peer : Ip) : Prop where
  request : s.requests[i]? = some ⟨peer, .gone⟩
  gauges : s.gauges = g

/-- Request `i` waits for a worker with the keys of its upload. -/
structure Uploaded (s : ServerLoad caps Ip) (i : ℕ) (peer : Ip) (uploaded : DetectionKeyUpload caps)
    (g : Gauges Ip) : Prop where
  request : ∃ d : LightWalletd.DetectionKeyUpload caps,
    s.requests[i]? = some ⟨peer, .digestWaiting d⟩ ∧ d.keys = uploaded.keys.map List.length ∧
      d.reservation = uploaded.reservation
  gauges : s.gauges = g

section Steps

variable {g : Gauges Ip} {s : ServerLoad caps Ip} {i : ℕ} {peer : Ip} {deadline : ℕ}
  {u : KeyUpload caps} {upload : Option (KeyUpload caps × Gauges Ip)}

/-- Dropping the handler of an upload gives back what it reserved. -/
theorem Reading.dropHandler (h : Reading g s i peer (some (u, s.gauges))) :
    GivenBack g (s.dropHandler i peer (.uploading u.lengths)) i peer := by
  cases h with
  | uploading request reserved small => exact ⟨ServerLoad.getElem?_move request, reserved⟩

/-- The data of a chunk. -/
theorem Reading.readChunk (h : Reading g s i peer (some (u, s.gauges))) (c : DetectionKeyChunk) :
    (∀ v, u.readChunk c = .ok v →
      Reading g (s.readChunk i peer u.lengths c.lengths) i peer (some (v, s.gauges))) ∧
    ∀ e, u.readChunk c = .error e →
      GivenBack g (s.readChunk i peer u.lengths c.lengths) i peer := by
  have hsame := readChunk_lengths u c
  unfold ServerLoad.readChunk
  constructor
  · intro v hv
    rw [hv] at hsame
    rw [← hsame]
    cases h with
    | uploading request reserved small =>
      refine .uploading (s := s.move i s.gauges peer (.uploading v.lengths))
        (ServerLoad.getElem?_move request) ?_ small
      rw [(readChunk_eq_ok hv).2.2]
      exact reserved
  · intro e he
    rw [he] at hsame
    rw [← hsame]
    exact h.dropHandler

/-- A round whose upload is there, or starts with its header. -/
theorem Reading.readArrival (h : Reading g s i peer (some (u, s.gauges))) {allowed : Bool}
    {a : Arrival (Except Status DetectionKeyChunk)} {c : DetectionKeyChunk}
    (hawait : a.await deadline = .ok (.ok c))
    (hupload : upload = some (u, s.gauges) ∨
      upload = none ∧ readHeader caps g peer true allowed c = .ok (u, s.gauges)) :
    (∀ r, Upload.readArrival caps g peer true allowed deadline upload a = .ok r →
      Reading g (s.readChunk i peer u.lengths c.lengths) i peer r) ∧
    ∀ e, Upload.readArrival caps g peer true allowed deadline upload a = .error e →
      GivenBack g (s.readChunk i peer u.lengths c.lengths) i peer := by
  obtain ⟨hok, herror⟩ := h.readChunk c
  rw [readArrival_eq hawait hupload]
  cases hread : u.readChunk c with
  | error e => exact ⟨nofun, fun _ _ => herror e hread⟩
  | ok v =>
    refine ⟨fun r hr => ?_, nofun⟩
    cases hr
    exact hok v hread

/-- A round of the loop is a step of the load. -/
theorem Reading.step (h : Reading g s i peer upload) (allowed : Bool)
    {a : Arrival (Except Status DetectionKeyChunk)} {c : DetectionKeyChunk}
    (hawait : a.await deadline = .ok (.ok c)) :
    ∃ s', s.step (.chunk i c.lengths allowed) = some s' ∧
      (∀ r, Upload.readArrival caps g peer true allowed deadline upload a = .ok r →
        Reading g s' i peer r) ∧
      ∀ e, Upload.readArrival caps g peer true allowed deadline upload a = .error e →
        GivenBack g s' i peer := by
  cases h with
  | @uploading u request reserved small =>
    exact ⟨s.readChunk i peer u.lengths c.lengths, by simp [ServerLoad.step, request],
      (Reading.uploading request reserved small).readArrival hawait (.inl rfl)⟩
  | opened request gauges =>
    subst gauges
    have hsame := @readHeader_lengths Ip _ caps s.gauges peer allowed c
    cases hheader : readHeader caps s.gauges peer true allowed c with
    | error e =>
      rw [hheader] at hsame
      refine ⟨s.dropHandler i peer .opened, ?_, fun r hr => ?_, fun _ _ =>
        ⟨ServerLoad.getElem?_move request, rfl⟩⟩
      · simp [ServerLoad.step, request, ← hsame, Except.map]
      · simp [Upload.readArrival, receive, hawait, hheader, bind, Except.bind] at hr
    | ok r =>
      obtain ⟨u, g'⟩ := r
      rw [hheader] at hsame
      have haccepted := readHeader_accepted hheader
      have hmoved : Reading s.gauges (s.move i g' peer (.uploading u.lengths)) i peer
          (some (u, g')) :=
        .uploading (s := s.move i g' peer (.uploading u.lengths))
          (ServerLoad.getElem?_move request) (dropReservation_of_reserve haccepted.reserve)
          (total_lt_of_reserve haccepted.numKeys.1 haccepted.reserve)
      refine ⟨_, ?_, hmoved.readArrival hawait (.inr ⟨rfl, hheader⟩)⟩
      simp [ServerLoad.step, request, ← hsame, Except.map]

/-- An upload that is given up gives back what it reserved. -/
theorem Reading.cancel (h : Reading g s i peer upload) :
    ∃ s', s.step (.cancel i) = some s' ∧ GivenBack g s' i peer := by
  cases h with
  | opened request gauges =>
    exact ⟨s.dropHandler i peer .opened, by simp [ServerLoad.step, request],
      ServerLoad.getElem?_move request, gauges⟩
  | @uploading u request reserved small =>
    exact ⟨s.dropHandler i peer (.uploading u.lengths), by simp [ServerLoad.step, request],
      (Reading.uploading request reserved small).dropHandler⟩

/-- A round without a message fails. -/
theorem readArrival_error {allowed : Bool} {a : Arrival (Except Status DetectionKeyChunk)}
    (h : ¬ ∃ c, a.await deadline = .ok (.ok c)) :
    ∃ e, Upload.readArrival caps g peer true allowed deadline upload a = .error e := by
  unfold Upload.readArrival receive
  cases hawait : a.await deadline with
  | error e => exact ⟨e, rfl⟩
  | ok message =>
    cases message with
    | error e => exact ⟨e, rfl⟩
    | ok c => exact absurd ⟨c, hawait⟩ h

/-- The loop is a run of the load, by events of its own request. -/
theorem Reading.loop (h : Reading g s i peer upload) (allowed : Bool) (deadline : ℕ)
    (arrivals : List (Arrival (Except Status DetectionKeyChunk))) :
    ∃ es s', s.run es = some s' ∧ (∀ e ∈ es, e.request? = some i) ∧
      (∀ r, arrivals.foldlM (Upload.readArrival caps g peer true allowed deadline) upload = .ok r →
        Reading g s' i peer r) ∧
      ∀ e, arrivals.foldlM (Upload.readArrival caps g peer true allowed deadline) upload =
        .error e → GivenBack g s' i peer := by
  induction arrivals generalizing s upload with
  | nil =>
    refine ⟨[], s, rfl, by simp, fun r hr => ?_, nofun⟩
    cases hr
    exact h
  | cons a arrivals ih =>
    rw [List.foldlM_cons]
    by_cases harrives : ∃ c, a.await deadline = .ok (.ok c)
    · obtain ⟨c, hawait⟩ := harrives
      obtain ⟨s₁, hstep, hok, herror⟩ := h.step allowed hawait
      cases hread : Upload.readArrival caps g peer true allowed deadline upload a with
      | error e =>
        exact ⟨[.chunk i c.lengths allowed], s₁, by simp [ServerLoad.run, hstep],
          by simp [LoadEvent.request?], nofun, fun _ _ => herror e hread⟩
      | ok r =>
        obtain ⟨es, s', hrun, hown, hreading, hback⟩ := ih (hok r hread)
        exact ⟨.chunk i c.lengths allowed :: es, s', by simp [ServerLoad.run, hstep, hrun],
          List.forall_mem_cons.mpr ⟨rfl, hown⟩, hreading, hback⟩
    · obtain ⟨e, he⟩ : ∃ e, Upload.readArrival caps g peer true allowed deadline upload a =
        .error e := readArrival_error harrives
      obtain ⟨s', hstep, hback⟩ := h.cancel
      rw [he]
      exact ⟨[.cancel i], s', by simp [ServerLoad.run, hstep], by simp [LoadEvent.request?], nofun,
        fun _ _ => hback⟩

/-- The end of the stream is an event of the load. -/
theorem Reading.endOfStream (h : Reading g s i peer upload) :
    ∃ s', s.step (.endOfStream i) = some s' ∧
      (upload = none → GivenBack g s' i peer) ∧
      ∀ u g', upload = some (u, g') →
        (∀ uploaded, u.finish = .ok uploaded → Uploaded s' i peer uploaded g') ∧
        ∀ e, u.finish = .error e → GivenBack g s' i peer := by
  cases h with
  | opened request gauges =>
    exact ⟨s.dropHandler i peer .opened, by simp [ServerLoad.step, request],
      fun _ => ⟨ServerLoad.getElem?_move request, gauges⟩,
      fun _ _ hv => absurd hv.symm (Option.some_ne_none _)⟩
  | @uploading u request reserved small =>
    cases hfinish : u.finish with
    | error e =>
      obtain ⟨e', hlengths⟩ := finish_lengths_error small hfinish
      refine ⟨s.dropHandler i peer (.uploading u.lengths),
        by simp [ServerLoad.step, request, hlengths],
        fun hnone => absurd hnone (Option.some_ne_none _), fun v g' hv => ?_⟩
      cases hv
      exact ⟨fun uploaded huploaded => by simp [hfinish] at huploaded,
        fun _ _ => (Reading.uploading request reserved small).dropHandler⟩
    | ok uploaded =>
      obtain ⟨d, hlengths, hkeys, hreservation⟩ := finish_lengths_ok small hfinish
      refine ⟨s.move i s.gauges peer (.digestWaiting d),
        by simp [ServerLoad.step, request, hlengths],
        fun hnone => absurd hnone (Option.some_ne_none _), fun v g' hv => ?_⟩
      cases hv
      refine ⟨fun uploaded' huploaded => ?_, fun e he => by simp [hfinish] at he⟩
      cases hfinish.symm.trans huploaded
      exact ⟨⟨d, ServerLoad.getElem?_move request, hkeys, hreservation⟩, rfl⟩

end Steps

/-- An upload is a run of the load, by events of its own request: one that succeeds leaves the
request waiting for a worker with its keys, one that fails gives back what it reserved. -/
theorem upload_is_run {s : ServerLoad caps Ip} {i : ℕ} {peer : Ip}
    (hopened : s.requests[i]? = some ⟨peer, .opened⟩) (allowed : Bool) (started : ℕ)
    (arrivals : List (Arrival (Except Status DetectionKeyChunk))) (closed : Arrival Unit) :
    ∃ es s', s.run es = some s' ∧ (∀ e ∈ es, e.request? = some i) ∧
      (∀ uploaded g, readDetectionKeyUpload caps s.gauges peer true allowed started arrivals closed =
        .ok (uploaded, g) → Uploaded s' i peer uploaded g) ∧
      ∀ e, readDetectionKeyUpload caps s.gauges peer true allowed started arrivals closed =
        .error e → GivenBack s.gauges s' i peer := by
  obtain ⟨es, s₁, hrun, hown, hreading, hback⟩ :=
    (Reading.opened hopened rfl).loop allowed (started + uploadDeadline) arrivals
  unfold readDetectionKeyUpload readStream
  cases hloop : arrivals.foldlM (Upload.readArrival caps s.gauges peer true allowed
      (started + uploadDeadline)) none with
  | error e => exact ⟨es, s₁, hrun, hown, nofun, fun _ _ => hback e hloop⟩
  | ok upload =>
    have hend := hreading upload hloop
    cases hclosed : closed.await (started + uploadDeadline) with
    | error e =>
      -- the end of the stream does not come in time
      obtain ⟨s', hstep, hgone⟩ := hend.cancel
      refine ⟨es ++ [.cancel i], s', ?_, ?_, ?_, fun _ _ => hgone⟩
      · simp [ServerLoad.run_append hrun, ServerLoad.run, hstep]
      · simpa [or_imp, forall_and, LoadEvent.request?] using hown
      · simp [bind, Except.bind]
    | ok u =>
      obtain ⟨s', hstep, hnone, hsome⟩ := hend.endOfStream
      refine ⟨es ++ [.endOfStream i], s', ?_, ?_, ?_, ?_⟩
      · simp [ServerLoad.run_append hrun, ServerLoad.run, hstep]
      · simpa [or_imp, forall_and, LoadEvent.request?] using hown
      · intro uploaded g h
        cases upload with
        | none => cases h
        | some r =>
          obtain ⟨u, g'⟩ := r
          cases hfinish : u.finish with
          | error e => simp [bind, Except.bind, hfinish] at h
          | ok d =>
            simp only [bind, Except.bind, hfinish, pure, Except.pure, Except.ok.injEq,
              Prod.mk.injEq] at h
            obtain ⟨rfl, rfl⟩ := h
            exact (hsome u _ rfl).1 d hfinish
      · intro e h
        cases upload with
        | none => exact hnone rfl
        | some r =>
          obtain ⟨u, g'⟩ := r
          cases hfinish : u.finish with
          | error e' => exact (hsome u g' rfl).2 e' hfinish
          | ok d => simp [bind, Except.bind, hfinish, pure, Except.pure] at h

/-- The keys of an upload, and the budget that is left beside it, are within the budget. -/
theorem uploaded_keys_within_budget {s : ServerLoad caps Ip} (hs : s.Reached fun _ _ => True)
    {i : ℕ} {peer : Ip} (hopened : s.requests[i]? = some ⟨peer, .opened⟩) {allowed : Bool}
    {started : ℕ} {arrivals : List (Arrival (Except Status DetectionKeyChunk))}
    {closed : Arrival Unit} {uploaded : DetectionKeyUpload caps} {g : Gauges Ip}
    (h : readDetectionKeyUpload caps s.gauges peer true allowed started arrivals closed =
      .ok (uploaded, g)) :
    (uploaded.keys.map List.length).sum + g.uploadBytes ≤ caps.uploadBudget := by
  obtain ⟨es, s', hrun, -, hok, -⟩ := upload_is_run hopened allowed started arrivals closed
  obtain ⟨⟨d, hrequest, hkeys, -⟩, rfl⟩ := hok uploaded g h
  have hbytes := (hs.run hrun).accounted.bytes
  have hheld : d.reservation.bytes ≤ total Request.heldBytes s'.requests :=
    le_total Request.heldBytes hrequest
  have hcovers := d.reservation.covers
  have hfits := d.fits
  rw [hkeys] at hfits
  omega

end Upload

end LightWalletd
