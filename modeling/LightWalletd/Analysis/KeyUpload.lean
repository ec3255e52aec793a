import Mathlib.Algebra.Group.Action.Defs
import Mathlib.Algebra.Order.BigOperators.Group.List
import Mathlib.Algebra.Order.Ring.Nat
import LightWalletd.Computation.Loops
import LightWalletd.Computation.Pieces
import LightWalletd.Model.KeyUpload

/-!
# Uploads do not depend on their chunks

The chunks of an upload cut its keys into pieces. The limits are checked after every chunk, and
again behind the last one; what passes the checks in the end has passed them all along, so that
an upload is accepted or not whatever its chunks are, and the keys it returns are those that were
cut.
-/

set_option autoImplicit false

namespace LightWalletd

namespace Upload

open Stateful Pieces

variable {Ip : Type} [DecidableEq Ip] {caps : ResourceCaps}

/-! ## The limits -/

/-- The product of the last check is compared as it is. -/
theorem lt_saturatingMul64_iff (hcaps : caps.maxDetectionKeysTotalBytes < u64Max) (a b : ℕ) :
    caps.maxDetectionKeysTotalBytes < saturatingMul64 a b ↔
      caps.maxDetectionKeysTotalBytes < a * b := by
  unfold saturatingMul64
  omega

/-- What a chunk brings. -/
def DetectionKeyChunk.piece (c : DetectionKeyChunk) : Piece UInt8 := ⟨c.data, c.keyDone⟩

/-- The limits behind every chunk: no key is too long, nor are all of them. -/
def Within (caps : ResourceCaps) (a : Assembly UInt8) : Prop :=
  (∀ k ∈ a.all, k.length ≤ caps.maxDetectionKeyBytes) ∧
    a.size ≤ caps.maxDetectionKeysTotalBytes

/-- An empty assembly is within every cap. -/
theorem within_empty (caps : ResourceCaps) : Within caps .empty := by
  constructor
  · intro k hk
    rw [List.mem_singleton.mp hk]
    exact Nat.zero_le _
  · exact Nat.zero_le _

/-- What is within the limits was so before its last piece. -/
theorem within_of_push {a : Assembly UInt8} {p : Piece UInt8} (h : Within caps (a.push p)) :
    Within caps a := by
  refine ⟨Assembly.length_le_of_push h.1, ?_⟩
  have hsize := h.2
  rw [Assembly.size_push] at hsize
  omega

/-- A chunk that leaves everything within the limits adds its piece; any other one fails. -/
theorem readChunk_cases (u : KeyUpload caps) (c : DetectionKeyChunk) :
    ((u.currentKey ++ c.data).length ≤ caps.maxDetectionKeyBytes ∧
        (u.assembly.push c.piece).size ≤ caps.maxDetectionKeysTotalBytes) ∧
      (∃ v, u.readChunk c = .ok v ∧ v.assembly = u.assembly.push c.piece ∧
        v.numKeys = u.numKeys ∧ v.reservation = u.reservation) ∨
    ¬ ((u.currentKey ++ c.data).length ≤ caps.maxDetectionKeyBytes ∧
        (u.assembly.push c.piece).size ≤ caps.maxDetectionKeysTotalBytes) ∧
      ∃ e, u.readChunk c = .error e := by
  obtain ⟨startHeight, endHeight, numKeys, data, keyDone⟩ := c
  have hsize : (u.assembly.push (DetectionKeyChunk.piece
      ⟨startHeight, endHeight, numKeys, data, keyDone⟩)).size =
        ((if keyDone then u.keys ++ [u.currentKey ++ data] else u.keys).map List.length).sum +
          (if keyDone then [] else u.currentKey ++ data).length := by
    cases keyDone with
    | true => rfl
    | false => rfl
  rw [hsize]
  unfold KeyUpload.readChunk
  dsimp only
  by_cases hlarge : caps.maxDetectionKeyBytes < (u.currentKey ++ data).length
  · rw [if_pos hlarge]
    exact .inr ⟨fun h => absurd h.1 (Nat.not_le_of_lt hlarge), _, rfl⟩
  rw [if_neg hlarge]
  by_cases htotal : caps.maxDetectionKeysTotalBytes <
      ((if keyDone then u.keys ++ [u.currentKey ++ data] else u.keys).map List.length).sum +
        (if keyDone then [] else u.currentKey ++ data).length
  · rw [dif_pos htotal]
    exact .inr ⟨fun h => absurd h.2 (Nat.not_le_of_lt htotal), _, rfl⟩
  · rw [dif_neg htotal]
    refine .inl ⟨⟨not_lt.mp hlarge, not_lt.mp htotal⟩, _, rfl, ?_, rfl, rfl⟩
    cases keyDone with
    | true => rfl
    | false => rfl

/-- A later message adds its piece and nothing else. -/
theorem readChunk_eq_ok {u v : KeyUpload caps} {c : DetectionKeyChunk}
    (h : u.readChunk c = .ok v) :
    v.assembly = u.assembly.push c.piece ∧ v.numKeys = u.numKeys ∧
      v.reservation = u.reservation := by
  obtain ⟨-, w, hw, hpush⟩ | ⟨-, e, he⟩ := readChunk_cases u c
  · rw [hw] at h
    cases h
    exact hpush
  · rw [he] at h
    cases h

/-- A chunk is read exactly when its piece leaves everything within the limits. -/
theorem readChunk_ok_iff {u : KeyUpload caps} (hu : Within caps u.assembly)
    (c : DetectionKeyChunk) :
    (∃ v, u.readChunk c = .ok v) ↔ Within caps (u.assembly.push c.piece) := by
  unfold Within
  rw [Assembly.all_push_length_le_iff hu.1]
  obtain ⟨hwithin, v, hv, -⟩ | ⟨hwithin, e, he⟩ := readChunk_cases u c
  · exact iff_of_true ⟨v, hv⟩ hwithin
  · refine iff_of_false ?_ hwithin
    rintro ⟨v, hv⟩
    rw [he] at hv
    cases hv

/-! ## The loop -/

/-- The chunks are read exactly when what they assemble to is within the limits. -/
theorem readChunks_ok_iff {u : KeyUpload caps} (hu : Within caps u.assembly)
    (chunks : List DetectionKeyChunk) :
    (∃ v, chunks.foldlM KeyUpload.readChunk u = .ok v) ↔
      Within caps ((chunks.map DetectionKeyChunk.piece).foldl Assembly.push u.assembly) := by
  rw [List.foldl_map]
  exact foldlM_ok_iff_of_antitone KeyUpload.assembly
    (fun a c => a.push (DetectionKeyChunk.piece c)) (Within caps)
    (fun _ _ _ h => (readChunk_eq_ok h).1) (fun _ c hu => readChunk_ok_iff hu c)
    (fun _ _ h => within_of_push h) chunks hu

/-- What the chunks assemble to is what is read. -/
theorem readChunks_eq_ok {u v : KeyUpload caps} {chunks : List DetectionKeyChunk}
    (h : chunks.foldlM KeyUpload.readChunk u = .ok v) :
    v.assembly = (chunks.map DetectionKeyChunk.piece).foldl Assembly.push u.assembly ∧
      v.numKeys = u.numKeys ∧ v.reservation = u.reservation := by
  rw [List.foldl_map]
  refine ⟨?_, ?_, ?_⟩
  · exact foldlM_view KeyUpload.assembly (fun a c => a.push (DetectionKeyChunk.piece c))
      (fun _ _ _ h => (readChunk_eq_ok h).1) h
  · rw [foldlM_view KeyUpload.numKeys (fun n _ => n) (fun _ _ _ h => (readChunk_eq_ok h).2.1) h]
    exact List.foldl_fixed _
  · rw [foldlM_view KeyUpload.reservation (fun r _ => r) (fun _ _ _ h => (readChunk_eq_ok h).2.2) h]
    exact List.foldl_fixed _

/-- The checks behind the last chunk. -/
theorem finish_ok_iff (hcaps : caps.maxDetectionKeysTotalBytes < u64Max) {u : KeyUpload caps} :
    (∃ uploaded, u.finish = .ok uploaded) ↔ u.currentKey = [] ∧ u.keys.length = u.numKeys ∧
      (∀ k ∈ u.keys, k ≠ []) ∧
      ∀ longest ∈ (u.keys.map List.length).max?,
        u.numKeys * longest ≤ caps.maxDetectionKeysTotalBytes := by
  have hany : u.keys.any List.isEmpty = true ↔ ¬ ∀ k ∈ u.keys, k ≠ [] := by
    simp
  unfold KeyUpload.finish
  by_cases hopen : u.currentKey ≠ []
  · rw [if_pos hopen]
    exact iff_of_false nofun fun h => hopen h.1
  by_cases hcount : u.keys.length ≠ u.numKeys
  · rw [if_neg hopen, if_pos hcount]
    exact iff_of_false nofun fun h => hcount h.2.1
  by_cases hempty : u.keys.any List.isEmpty = true
  · rw [if_neg hopen, if_neg hcount, if_pos hempty]
    exact iff_of_false nofun fun h => hany.mp hempty h.2.2.1
  rw [if_neg hopen, if_neg hcount, if_neg hempty, ← not_not.mp hcount]
  have hnonempty := not_not.mp (hany.not.mp hempty)
  cases (u.keys.map List.length).max? with
  | none => exact iff_of_true ⟨_, rfl⟩ ⟨not_not.mp hopen, rfl, hnonempty, nofun⟩
  | some longest =>
    simp only [lt_saturatingMul64_iff hcaps]
    by_cases hproduct : caps.maxDetectionKeysTotalBytes < u.keys.length * longest
    · rw [if_pos hproduct]
      exact iff_of_false nofun fun h => Nat.not_le_of_lt hproduct (h.2.2.2 longest rfl)
    · rw [if_neg hproduct]
      refine iff_of_true ⟨_, rfl⟩ ⟨not_not.mp hopen, trivial, hnonempty, ?_⟩
      intro l hl
      cases hl
      exact not_lt.mp hproduct

/-- The end of an upload gives its keys, and the reservation. -/
theorem finish_eq_ok {u : KeyUpload caps} {uploaded : DetectionKeyUpload caps}
    (h : u.finish = .ok uploaded) :
    uploaded.keys = u.keys ∧ uploaded.reservation = u.reservation := by
  unfold KeyUpload.finish at h
  split_ifs at h
  split at h
  · split_ifs at h
    cases h
    exact ⟨rfl, rfl⟩
  · cases h
    exact ⟨rfl, rfl⟩

/-! ## The stream -/

section Stream

variable {g : Gauges Ip} {peer : Ip} {enforceRange allowed : Bool} {deadline : ℕ}

/-- The stream brings the chunks in time. -/
def Brings (deadline : ℕ) (arrivals : List (Arrival (Except Status DetectionKeyChunk)))
    (chunks : List DetectionKeyChunk) : Prop :=
  List.Forall₂ (fun a c => a.await deadline = .ok (.ok c)) arrivals chunks

/-- A round begins with an upload, which the first round starts. -/
theorem receive_eq {a : Arrival (Except Status DetectionKeyChunk)} {c : DetectionKeyChunk}
    (hawait : a.await deadline = .ok (.ok c)) {upload : Option (KeyUpload caps × Gauges Ip)}
    {u : KeyUpload caps} {g' : Gauges Ip}
    (hupload : upload = some (u, g') ∨
      upload = none ∧ readHeader caps g peer enforceRange allowed c = .ok (u, g')) :
    receive caps g peer enforceRange allowed deadline upload a = .ok ((u, g'), c) := by
  unfold receive
  rw [hawait]
  obtain rfl | ⟨rfl, hheader⟩ := hupload
  · rfl
  · simp only [bind, Except.bind, hheader]
    rfl

/-- A round reads its chunk into the upload. -/
theorem readArrival_eq {a : Arrival (Except Status DetectionKeyChunk)} {c : DetectionKeyChunk}
    (hawait : a.await deadline = .ok (.ok c)) {upload : Option (KeyUpload caps × Gauges Ip)}
    {u : KeyUpload caps} {g' : Gauges Ip}
    (hupload : upload = some (u, g') ∨
      upload = none ∧ readHeader caps g peer enforceRange allowed c = .ok (u, g')) :
    readArrival caps g peer enforceRange allowed deadline upload a =
      (u.readChunk c).map fun u => some (u, g') := by
  unfold readArrival
  rw [receive_eq hawait hupload]
  cases hread : u.readChunk c with
  | error e => simp [bind, Except.bind, Except.map, hread]
  | ok v => simp [bind, Except.bind, Except.map, hread, pure, Except.pure]

/-- The loop reads the chunks. -/
theorem foldlM_readArrival {arrivals : List (Arrival (Except Status DetectionKeyChunk))}
    {chunks : List DetectionKeyChunk} (hbrings : Brings deadline arrivals chunks)
    (u : KeyUpload caps) (g' : Gauges Ip) :
    arrivals.foldlM (readArrival caps g peer enforceRange allowed deadline) (some (u, g')) =
      (chunks.foldlM KeyUpload.readChunk u).map fun u => some (u, g') := by
  induction hbrings generalizing u with
  | nil => rfl
  | @cons a c arrivals chunks hawait _ ih =>
    rw [List.foldlM_cons, List.foldlM_cons, readArrival_eq hawait (.inl rfl)]
    cases hread : u.readChunk c with
    | error e => rfl
    | ok v => exact ih v

/-- A header that is accepted starts an upload with nothing in it. -/
theorem readHeader_eq_ok {c : DetectionKeyChunk} (hnum : 1 ≤ c.numKeys ∧ c.numKeys ≤ 16)
    (hrange : enforceRange = true → ∃ span, rejectOversizedWindow c.startHeight c.endHeight =
      .ok span) {reservation : UploadReservation caps} {g' : Gauges Ip}
    (hreserve : reserveUpload caps g peer c.numKeys = .ok (reservation, g')) :
    readHeader caps g peer enforceRange true c = .ok (⟨c.startHeight, c.endHeight, c.numKeys, [],
      [], reservation, Nat.zero_le _⟩, g') := by
  unfold readHeader
  rw [if_neg (by omega), if_neg (by omega), hreserve]
  cases enforceRange with
  | false => rfl
  | true =>
    obtain ⟨span, hspan⟩ := hrange rfl
    rw [if_pos rfl, hspan]
    rfl

/-- What a header says that is accepted, and what it starts. -/
structure HeaderAccepted (g : Gauges Ip) (peer : Ip) (enforceRange : Bool) (c : DetectionKeyChunk)
    (u : KeyUpload caps) (g' : Gauges Ip) : Prop where
  numKeys : 1 ≤ c.numKeys ∧ c.numKeys ≤ 16
  range : enforceRange = true → ∃ span, rejectOversizedWindow c.startHeight c.endHeight = .ok span
  reserve : reserveUpload caps g peer c.numKeys = .ok (u.reservation, g')
  upload : u = ⟨c.startHeight, c.endHeight, c.numKeys, [], [], u.reservation, Nat.zero_le _⟩

/-- A header is accepted for these reasons only. -/
theorem readHeader_accepted {c : DetectionKeyChunk} {u : KeyUpload caps} {g' : Gauges Ip}
    (h : readHeader caps g peer enforceRange allowed c = .ok (u, g')) :
    HeaderAccepted g peer enforceRange c u g' := by
  unfold readHeader at h
  by_cases hnone : c.numKeys = 0
  · rw [if_pos hnone] at h
    cases h
  by_cases hmany : 16 < c.numKeys
  · rw [if_neg hnone, if_pos hmany] at h
    cases h
  rw [if_neg hnone, if_neg hmany] at h
  cases hrange : (if enforceRange then rejectOversizedWindow c.startHeight c.endHeight
      else .ok 0) with
  | error e =>
    rw [hrange] at h
    cases h
  | ok span =>
    rw [hrange] at h
    cases allowed with
    | false => cases h
    | true =>
      cases hreserve : reserveUpload caps g peer c.numKeys with
      | error e =>
        rw [hreserve] at h
        cases h
      | ok r =>
        rw [hreserve] at h
        cases h
        refine ⟨by omega, fun henforced => ⟨span, ?_⟩, hreserve, rfl⟩
        rwa [if_pos henforced] at hrange

/-- With a header that is accepted, in time, an upload reads its chunks and checks them. -/
theorem readStream_eq {arrivals : List (Arrival (Except Status DetectionKeyChunk))}
    {closed : Arrival Unit} {c : DetectionKeyChunk} {chunks : List DetectionKeyChunk}
    (hbrings : Brings deadline arrivals (c :: chunks)) (hclosed : closed.await deadline = .ok ())
    {u : KeyUpload caps} {g' : Gauges Ip}
    (hheader : readHeader caps g peer enforceRange allowed c = .ok (u, g')) :
    readStream caps g peer enforceRange allowed deadline arrivals closed =
      ((c :: chunks).foldlM KeyUpload.readChunk u >>= KeyUpload.finish).map (·, g') := by
  obtain ⟨a, arrivals, hawait, hrest, rfl⟩ := List.forall₂_cons_right_iff.mp hbrings
  unfold readStream
  rw [List.foldlM_cons, List.foldlM_cons, readArrival_eq hawait (.inr ⟨rfl, hheader⟩)]
  cases hfirst : u.readChunk c with
  | error e => rfl
  | ok v =>
    have hloop : arrivals.foldlM (readArrival caps g peer enforceRange allowed deadline)
        (some (v, g')) = _ := foldlM_readArrival hrest v g'
    simp only [Except.map, bind, Except.bind, hloop, hclosed]
    cases chunks.foldlM KeyUpload.readChunk v with
    | error e => rfl
    | ok w =>
      cases hfinish : w.finish with
      | error e => simp [hfinish]
      | ok uploaded => simp [hfinish, pure, Except.pure]

end Stream

/-- A reservation is at most a `u32`, and so are then the limits. -/
theorem total_lt_of_reserve {g : Gauges Ip} {peer : Ip} {numKeys : ℕ} (hnum : 1 ≤ numKeys)
    {r : UploadReservation caps × Gauges Ip} (h : reserveUpload caps g peer numKeys = .ok r) :
    caps.maxDetectionKeysTotalBytes < u64Max := by
  have hdeclared : numKeys * caps.maxDetectionKeyBytes ≤ u32Max := by
    by_contra hlarge
    rw [reserveUpload, if_pos (not_le.mp hlarge)] at h
    cases h
  have hone : caps.maxDetectionKeyBytes ≤ numKeys * caps.maxDetectionKeyBytes :=
    Nat.le_mul_of_pos_left _ hnum
  have hsmall : u32Max < u64Max := by decide
  have htotal := caps.total_le
  omega

/-- Strings of which none is too long for so many of them are within the limit together. -/
theorem sum_length_le {ks : List Bytes} {n : ℕ} (h : ∀ k ∈ ks, ks.length * k.length ≤ n) :
    (ks.map List.length).sum ≤ n := by
  cases ks with
  | nil => exact Nat.zero_le n
  | cons first ks =>
    have hbound : ∀ l ∈ (first :: ks).map List.length, l ≤ n / (first :: ks).length := by
      intro l hl
      obtain ⟨k, hk, rfl⟩ := List.mem_map.mp hl
      rw [Nat.le_div_iff_mul_le (by simp), Nat.mul_comm]
      exact h k hk
    have hsum := List.sum_le_card_nsmul _ _ hbound
    rw [List.length_map, smul_eq_mul] at hsum
    exact hsum.trans (Nat.mul_div_le n _)

/-- The longest of some strings stands for all of them. -/
theorem forall_longest_iff {ks : List Bytes} {m n : ℕ} :
    (∀ longest ∈ (ks.map List.length).max?, m * longest ≤ n) ↔ ∀ k ∈ ks, m * k.length ≤ n := by
  constructor
  · intro h k hk
    have hmem : k.length ∈ ks.map List.length := List.mem_map_of_mem hk
    obtain ⟨longest, hlongest⟩ := Option.isSome_iff_exists.mp (List.isSome_max?_of_mem hmem)
    have hle := (List.max?_eq_some_iff.mp hlongest).2 _ hmem
    exact (Nat.mul_le_mul_left m hle).trans (h longest hlongest)
  · intro h longest hlongest
    obtain ⟨k, hk, rfl⟩ := List.mem_map.mp (List.max?_eq_some_iff.mp hlongest).1
    exact h k hk

/-- What the pieces of the keys assemble to is checked as a whole. -/
theorem readChunks_finish (hcaps : caps.maxDetectionKeysTotalBytes < u64Max) {u : KeyUpload caps}
    (hu : u.assembly = .empty) {chunks : List DetectionKeyChunk} {ks : List Bytes}
    (hcuts : Cuts (chunks.map DetectionKeyChunk.piece) ks) :
    ((∃ d, chunks.foldlM KeyUpload.readChunk u >>= KeyUpload.finish = .ok d) ↔
      ks.length = u.numKeys ∧ (∀ k ∈ ks, k ≠ []) ∧
      (∀ longest ∈ (ks.map List.length).max?,
        u.numKeys * longest ≤ caps.maxDetectionKeysTotalBytes) ∧
      ∀ k ∈ ks, k.length ≤ caps.maxDetectionKeyBytes) ∧
    ∀ d, chunks.foldlM KeyUpload.readChunk u >>= KeyUpload.finish = .ok d → d.keys = ks := by
  have hassembled := hcuts.assemble
  have hok := readChunks_ok_iff (hu.symm ▸ within_empty caps) chunks
  rw [hu, hassembled] at hok
  have hwithin : Within caps ⟨ks, []⟩ ↔ (∀ k ∈ ks, k.length ≤ caps.maxDetectionKeyBytes) ∧
      (ks.map List.length).sum ≤ caps.maxDetectionKeysTotalBytes := by
    unfold Within Assembly.all Assembly.size
    simp [or_imp, forall_and]
  cases hread : chunks.foldlM KeyUpload.readChunk u with
  | error e =>
    rw [hread] at hok
    refine ⟨iff_of_false nofun ?_, nofun⟩
    rintro ⟨hlength, -, hlongest, hkeys⟩
    rw [← hlength, forall_longest_iff] at hlongest
    obtain ⟨v, hv⟩ := hok.mpr (hwithin.mpr ⟨hkeys, sum_length_le hlongest⟩)
    cases hv
  | ok v =>
    obtain ⟨hassembly, hnumKeys, -⟩ := readChunks_eq_ok hread
    rw [hu, hassembled] at hassembly
    have hkeys : v.keys = ks := congrArg Assembly.strings hassembly
    have hcurrent : v.currentKey = [] := congrArg Assembly.current hassembly
    obtain ⟨hlengths, -⟩ := hwithin.mp (hok.mp ⟨v, hread⟩)
    have hfinish := @finish_ok_iff caps hcaps v
    rw [hkeys, hnumKeys, hcurrent] at hfinish
    refine ⟨hfinish.trans ⟨?_, ?_⟩, ?_⟩
    · rintro ⟨-, hlength, hnonempty, hlongest⟩
      exact ⟨hlength, hnonempty, hlongest, hlengths⟩
    · rintro ⟨hlength, hnonempty, hlongest, -⟩
      exact ⟨rfl, hlength, hnonempty, hlongest⟩
    · intro d hd
      exact (finish_eq_ok hd).1.trans hkeys

/-- A stream without messages is refused. -/
theorem readStream_nil {g : Gauges Ip} {peer : Ip} {enforceRange allowed : Bool} {deadline : ℕ}
    {closed : Arrival Unit} (hclosed : closed.await deadline = .ok ()) :
    readStream caps g peer enforceRange allowed deadline [] closed =
      .error ⟨.invalidArgument, "Empty stream"⟩ := by
  unfold readStream
  rw [List.foldlM_nil, hclosed]
  rfl

/-- However the keys are cut into chunks, an upload that is let through is accepted exactly when
the keys are as declared, and returns them. -/
theorem upload_ok_iff {g : Gauges Ip} {peer : Ip} {enforceRange : Bool} {started numKeys : ℕ}
    {ks : List Bytes} {chunks : List DetectionKeyChunk}
    {arrivals : List (Arrival (Except Status DetectionKeyChunk))} {closed : Arrival Unit}
    (hnum : 1 ≤ numKeys ∧ numKeys ≤ 16) (hcuts : Cuts (chunks.map DetectionKeyChunk.piece) ks)
    (hheader : ∀ first ∈ chunks.head?, first.numKeys = numKeys ∧ (enforceRange = true →
      ∃ span, rejectOversizedWindow first.startHeight first.endHeight = .ok span))
    (hreserve : ∃ r, reserveUpload caps g peer numKeys = .ok r)
    (hbrings : Brings (started + uploadDeadline) arrivals chunks)
    (hclosed : closed.await (started + uploadDeadline) = .ok ()) :
    let result := readDetectionKeyUpload caps g peer enforceRange true started arrivals closed
    ((∃ upload, result = .ok upload) ↔ ks.length = numKeys ∧ (∀ k ∈ ks, k ≠ []) ∧
      (∀ longest ∈ (ks.map List.length).max?,
        numKeys * longest ≤ caps.maxDetectionKeysTotalBytes) ∧
      ∀ k ∈ ks, k.length ≤ caps.maxDetectionKeyBytes) ∧
    ∀ upload, result = .ok upload → upload.1.keys = ks := by
  intro result
  obtain ⟨⟨reservation, g'⟩, hreserve⟩ := hreserve
  have hcaps := total_lt_of_reserve hnum.1 hreserve
  cases chunks with
  | nil =>
    cases hcuts
    cases hbrings
    have hresult : result = _ := readStream_nil hclosed
    rw [hresult]
    exact ⟨iff_of_false nofun fun h => absurd hnum.1 (h.1 ▸ Nat.not_succ_le_zero 0), nofun⟩
  | cons c chunks =>
    obtain ⟨rfl, hrange⟩ := hheader c rfl
    have hresult : result = _ :=
      readStream_eq hbrings hclosed (readHeader_eq_ok hnum hrange hreserve)
    set u : KeyUpload caps := ⟨c.startHeight, c.endHeight, c.numKeys, [], [], reservation,
      Nat.zero_le _⟩
    have hempty : u.assembly = .empty := rfl
    obtain ⟨hok, hkeys⟩ := readChunks_finish hcaps hempty hcuts
    rw [hresult]
    refine ⟨Iff.trans ?_ hok, ?_⟩
    · cases (c :: chunks).foldlM KeyUpload.readChunk u >>= KeyUpload.finish with
      | error e => exact iff_of_false nofun nofun
      | ok d => exact iff_of_true ⟨_, rfl⟩ ⟨d, rfl⟩
    · intro upload hupload
      cases hread : (c :: chunks).foldlM KeyUpload.readChunk u >>= KeyUpload.finish with
      | error e =>
        rw [hread] at hupload
        cases hupload
      | ok d =>
        rw [hread] at hupload
        cases hupload
        exact hkeys d hread

/-- A prompt message arrives. -/
theorem await_of_prompt {Item : Type} {a : Arrival Item} {deadline : ℕ} (hnow : a.now < deadline)
    (hidle : a.delay ≤ detectionKeyChunkIdleTimeout) (hdelay : a.delay ≤ deadline - a.now) :
    a.await deadline = .ok a.item := by
  unfold Arrival.await
  rw [if_neg (by omega), if_pos (le_min hidle hdelay)]

/-- Prompt messages arrive one after the other. -/
theorem brings_of_prompt (chunks : List DetectionKeyChunk) :
    Brings (0 + uploadDeadline) (chunks.map fun c => ⟨0, 0, .ok c⟩) chunks := by
  induction chunks with
  | nil => exact .nil
  | cons c chunks ih =>
    have hnow : 0 < 0 + uploadDeadline := by decide
    exact .cons (await_of_prompt hnow (Nat.zero_le _) (Nat.zero_le _)) ih

/-- An upload of two keys in two messages. -/
theorem upload_ok_iff_two_keys :
    let chunks : List DetectionKeyChunk :=
      [⟨5, 6, 2, [1], false⟩, ⟨0, 0, 0, [], true⟩, ⟨9, 8, 7, [2, 3], true⟩]
    let g : Gauges ℕ := ⟨fun _ => 0, fun _ => 0, 100, 2⟩
    ∃ upload, readDetectionKeyUpload (applyResourceCaps 8 1 1) g 0 true true 0
        (chunks.map fun c => ⟨0, 0, .ok c⟩) ⟨0, 0, ()⟩ = .ok upload ∧
      upload.1.keys = [[1], [2, 3]] := by
  intro chunks g
  have hcuts : Cuts (chunks.map DetectionKeyChunk.piece) [[1], [2, 3]] :=
    .more [1] (.last [] (.last [2, 3] .nil))
  have hclosed : (⟨0, 0, ()⟩ : Arrival Unit).await (0 + uploadDeadline) = .ok () :=
    await_of_prompt (by decide) (Nat.zero_le _) (Nat.zero_le _)
  have hheader : ∀ first ∈ chunks.head?, first.numKeys = 2 ∧ (true = true →
      ∃ span, rejectOversizedWindow first.startHeight first.endHeight = .ok span) := by
    intro first hfirst
    cases hfirst
    exact ⟨rfl, fun _ => ⟨2, rfl⟩⟩
  have hreserve : ∃ r, reserveUpload (applyResourceCaps 8 1 1) g 0 2 = .ok r := ⟨_, rfl⟩
  obtain ⟨hok, hkeys⟩ := upload_ok_iff (by decide) hcuts hheader hreserve (brings_of_prompt chunks)
    hclosed
  obtain ⟨upload, hupload⟩ := hok.mpr ⟨rfl, by decide, by decide, by decide⟩
  exact ⟨upload, hupload, hkeys upload hupload⟩

/-- The window in the header is checked too: one that ends before it starts is refused. -/
theorem upload_refused_for_window :
    let chunk : DetectionKeyChunk := ⟨6, 5, 1, [1], true⟩
    let g : Gauges ℕ := ⟨fun _ => 0, fun _ => 0, 100, 2⟩
    Cuts [chunk.piece] [[1]] ∧ (∃ r, reserveUpload (applyResourceCaps 8 1 1) g 0 1 = .ok r) ∧
      Brings (0 + uploadDeadline) [⟨0, 0, .ok chunk⟩] [chunk] ∧
      (⟨0, 0, ()⟩ : Arrival Unit).await (0 + uploadDeadline) = .ok () ∧
      (∀ longest ∈ [1].max?, 1 * longest ≤ (applyResourceCaps 8 1 1).maxDetectionKeysTotalBytes) ∧
      1 ≤ (applyResourceCaps 8 1 1).maxDetectionKeyBytes ∧
      ¬ ∃ upload, readDetectionKeyUpload (applyResourceCaps 8 1 1) g 0 true true 0
        [⟨0, 0, .ok chunk⟩] ⟨0, 0, ()⟩ = .ok upload := by
  intro chunk g
  refine ⟨.last [1] .nil, ⟨_, rfl⟩, brings_of_prompt [chunk],
    await_of_prompt (by decide) (Nat.zero_le _) (Nat.zero_le _), by decide, by decide, ?_⟩
  rintro ⟨upload, hupload⟩
  have hawait : (⟨0, 0, .ok chunk⟩ : Arrival (Except Status DetectionKeyChunk)).await
      (0 + uploadDeadline) = .ok (.ok chunk) :=
    await_of_prompt (by decide) (Nat.zero_le _) (Nat.zero_le _)
  unfold readDetectionKeyUpload readStream at hupload
  rw [List.foldlM_cons, readArrival, receive, hawait] at hupload
  cases hupload

end Upload

end LightWalletd
