import LightWalletd.Analysis.KeyUpload

/-!
# What an upload buffers

Behind its header, an upload holds a reservation of bytes and has declared a number of keys. The
bytes of the keys are compared with the limits in every round, which bounds them by the
reservation and the chunk at hand. The keys are counted behind the last chunk only: until then
there are as many as chunks have ended one, and an empty key costs nothing.
-/

set_option autoImplicit false

namespace LightWalletd

namespace Upload

open Stateful Pieces

variable {Ip : Type} [DecidableEq Ip] {caps : ResourceCaps}

section Rounds

variable {g : Gauges Ip} {peer : Ip} {enforceRange allowed : Bool} {deadline : ℕ}

/-- One more message, one more round. -/
theorem rounds_cons {upload : Option (KeyUpload caps × Gauges Ip)} {u : KeyUpload caps}
    {g' : Gauges Ip} {a : Arrival (Except Status DetectionKeyChunk)} {c : DetectionKeyChunk}
    (h : receive caps g peer enforceRange allowed deadline upload a = .ok ((u, g'), c))
    (arrivals : List (Arrival (Except Status DetectionKeyChunk))) :
    rounds caps g peer enforceRange allowed deadline upload (a :: arrivals) =
      (u, c) :: match u.readChunk c with
        | .error _ => []
        | .ok w => rounds caps g peer enforceRange allowed deadline (some (w, g')) arrivals := by
  cases hread : u.readChunk c <;> simp only [rounds, h, hread]

/-- The rounds of a stream are its chunks, each with what those before it were read into. -/
theorem mem_rounds_iff {arrivals : List (Arrival (Except Status DetectionKeyChunk))}
    {chunks : List DetectionKeyChunk} (hbrings : Brings deadline arrivals chunks)
    {upload : Option (KeyUpload caps × Gauges Ip)} {u : KeyUpload caps} {g' : Gauges Ip}
    (hupload : upload = some (u, g') ∨ upload = none ∧
      ∀ c ∈ chunks.head?, readHeader caps g peer enforceRange allowed c = .ok (u, g'))
    {v : KeyUpload caps} {d : DetectionKeyChunk} :
    (v, d) ∈ rounds caps g peer enforceRange allowed deadline upload arrivals ↔
      ∃ front rest, chunks = front ++ d :: rest ∧ front.foldlM KeyUpload.readChunk u = .ok v := by
  induction hbrings generalizing upload u with
  | nil => simp [rounds]
  | @cons a c arrivals chunks hawait _ ih =>
    have hreceive : receive caps g peer enforceRange allowed deadline upload a = .ok ((u, g'), c) :=
      receive_eq hawait (hupload.imp_right fun h => ⟨h.1, h.2 c rfl⟩)
    rw [rounds_cons hreceive, List.mem_cons]
    constructor
    · rintro (hfirst | hrest)
      · cases hfirst
        exact ⟨[], chunks, rfl, rfl⟩
      · cases hread : u.readChunk c with
        | error e =>
          rw [hread] at hrest
          cases hrest
        | ok w =>
          rw [hread] at hrest
          obtain ⟨front, rest, rfl, hfront⟩ := (ih (.inl rfl)).mp hrest
          refine ⟨c :: front, rest, rfl, ?_⟩
          rw [List.foldlM_cons, hread]
          exact hfront
    · rintro ⟨front, rest, hsplit, hfront⟩
      cases front with
      | nil =>
        cases hsplit
        cases hfront
        exact .inl rfl
      | cons first front =>
        cases hsplit
        rw [List.foldlM_cons] at hfront
        cases hread : u.readChunk c with
        | error e =>
          rw [hread] at hfront
          cases hfront
        | ok w =>
          rw [hread] at hfront
          exact .inr ((ih (.inl rfl)).mpr ⟨front, rest, rfl, hfront⟩)

end Rounds

/-! ## Bytes -/

/-- In every round the bytes fit into the reservation beside the chunk. -/
theorem points_size_le (u : KeyUpload caps) (c : DetectionKeyChunk) :
    ∀ p ∈ u.points c, p.size ≤ u.reservation.bytes + c.data.length := by
  have hbytes : u.assembly.size ≤ u.reservation.bytes := u.fits.trans u.reservation.covers
  unfold KeyUpload.assembly Assembly.size at hbytes
  dsimp only at hbytes
  unfold KeyUpload.points Assembly.size
  intro p hp
  dsimp only at hp
  rw [List.mem_append, List.mem_pair] at hp
  obtain (rfl | rfl) | hp := hp
  · dsimp only
    omega
  · simp only [List.length_append]
    omega
  · split_ifs at hp
    · cases hp
    · rw [List.mem_singleton.mp hp]
      simp
      omega
    · cases hp

/-! ## Keys -/

/-- The keys of a round are those before it, and the one its chunk ends if that is not too long. -/
theorem points_length_le_iff (u : KeyUpload caps) (c : DetectionKeyChunk) (n : ℕ) :
    (∀ p ∈ u.points c, p.strings.length ≤ n) ↔ u.keys.length ≤ n ∧
      (c.keyDone = true → (u.currentKey ++ c.data).length ≤ caps.maxDetectionKeyBytes →
        u.keys.length < n) := by
  unfold KeyUpload.points
  dsimp only
  split_ifs with hlarge hdone
  · have hlong := Nat.not_le_of_lt hlarge
    rw [iff_false_intro hlong]
    simp
  · have hshort := Nat.le_of_not_lt hlarge
    rw [iff_true_intro hshort]
    have hended : (u.keys ++ [u.currentKey ++ c.data]).length ≤ n ↔ u.keys.length < n := by
      rw [List.length_append, List.length_singleton]
      exact Nat.add_one_le_iff
    simp only [List.cons_append, List.nil_append, List.mem_cons, List.not_mem_nil, or_false,
      forall_eq_or_imp, forall_eq, hended, hdone, and_self_left, forall_const]
  · simp [hdone]

/-- The keys that some chunks end. -/
theorem length_keys_of_foldlM {u v : KeyUpload caps} (hu : u.assembly = .empty)
    {front : List DetectionKeyChunk} (h : front.foldlM KeyUpload.readChunk u = .ok v) :
    v.keys.length = front.countP fun c => c.keyDone := by
  have hkeys : v.assembly.strings = v.keys := rfl
  rw [← hkeys, (readChunks_eq_ok h).1, Assembly.length_strings_foldl_push, hu, List.countP_map]
  exact Nat.zero_add _

/-- The first message starts from an empty assembly. -/
theorem readHeader_empty {g g' : Gauges Ip} {peer : Ip} {enforceRange allowed : Bool}
    {c : DetectionKeyChunk} {u : KeyUpload caps}
    (h : readHeader caps g peer enforceRange allowed c = .ok (u, g')) :
    u.assembly = .empty ∧ u.numKeys = c.numKeys := by
  rw [(readHeader_accepted h).upload]
  exact ⟨rfl, rfl⟩

/-- What some chunks assemble to. -/
def assemble (chunks : List DetectionKeyChunk) : Assembly UInt8 :=
  (chunks.map DetectionKeyChunk.piece).foldl Assembly.push .empty

/-- One more piece. -/
theorem assemble_append (front : List DetectionKeyChunk) (c : DetectionKeyChunk) :
    assemble (front ++ [c]) = (assemble front).push c.piece := by
  unfold assemble
  rw [List.map_append, List.foldl_append]
  rfl

/-- Where no chunk ends a key after the first `n`, there are at most `n` keys. -/
theorem countP_keyDone_le {chunks : List DetectionKeyChunk} {n : ℕ}
    (h : ∀ front d rest, chunks = front ++ d :: rest → Within caps (assemble front) →
      d.keyDone = true →
      ((assemble front).current ++ d.data).length ≤ caps.maxDetectionKeyBytes →
      (front.countP fun c => c.keyDone) < n) {front rest : List DetectionKeyChunk}
    (hsplit : chunks = front ++ rest) (hwithin : Within caps (assemble front)) :
    (front.countP fun c => c.keyDone) ≤ n := by
  induction front using List.reverseRecOn generalizing rest with
  | nil => exact Nat.zero_le n
  | append_singleton front d ih =>
    rw [List.append_assoc] at hsplit
    rw [assemble_append] at hwithin
    have hbefore := within_of_push hwithin
    rw [List.countP_append, List.countP_singleton]
    split_ifs with hdone
    · have hshort := (Assembly.all_push_length_le_iff hbefore.1).mp hwithin.1
      exact h front d rest hsplit hbefore hdone hshort
    · exact ih hsplit hbefore

/-- In every round the buffered keys are at most the declared ones, and their bytes at most the
reserved ones beside the chunk, exactly when no chunk ends a key after as many as were declared. -/
theorem buffered_within_reservation_iff {g g' : Gauges Ip} {peer : Ip} {enforceRange allowed : Bool}
    {deadline : ℕ} {arrivals : List (Arrival (Except Status DetectionKeyChunk))}
    {c : DetectionKeyChunk} {chunks : List DetectionKeyChunk} {u : KeyUpload caps}
    (hbrings : Brings deadline arrivals (c :: chunks))
    (hheader : readHeader caps g peer enforceRange allowed c = .ok (u, g')) :
    (∀ v d, (v, d) ∈ rounds caps g peer enforceRange allowed deadline none arrivals →
      ∀ p ∈ v.points d, p.strings.length ≤ c.numKeys ∧
        p.size ≤ u.reservation.bytes + d.data.length) ↔
    ∀ front d rest, c :: chunks = front ++ d :: rest → Within caps (assemble front) →
      d.keyDone = true →
      ((assemble front).current ++ d.data).length ≤ caps.maxDetectionKeyBytes →
      (front.countP fun c => c.keyDone) < c.numKeys := by
  obtain ⟨hempty, hnumKeys⟩ := readHeader_empty hheader
  have hrounds : ∀ v d, (v, d) ∈ rounds caps g peer enforceRange allowed deadline none arrivals ↔
      ∃ front rest, c :: chunks = front ++ d :: rest ∧ front.foldlM KeyUpload.readChunk u = .ok v :=
    fun v d => mem_rounds_iff hbrings
      (.inr ⟨rfl, fun first hfirst => by cases hfirst; exact hheader⟩)
  have hread : ∀ front, (∃ v, front.foldlM KeyUpload.readChunk u = .ok v) ↔
      Within caps (assemble front) := by
    intro front
    rw [readChunks_ok_iff (hempty.symm ▸ within_empty caps), hempty]
    rfl
  constructor
  · intro h front d rest hsplit hwithin hdone hshort
    obtain ⟨v, hv⟩ := (hread front).mpr hwithin
    have hpoints := h v d ((hrounds v d).mpr ⟨front, rest, hsplit, hv⟩)
    have hassembly : v.assembly = assemble front := by
      rw [(readChunks_eq_ok hv).1, hempty]
      rfl
    rw [← length_keys_of_foldlM hempty hv]
    refine ((points_length_le_iff v d c.numKeys).mp fun p hp => (hpoints p hp).1).2 hdone ?_
    rw [← hassembly] at hshort
    exact hshort
  · intro h v d hround p hp
    obtain ⟨front, rest, hsplit, hv⟩ := (hrounds v d).mp hround
    obtain ⟨hassembly, -, hreservation⟩ := readChunks_eq_ok hv
    rw [hempty] at hassembly
    have hkeys := length_keys_of_foldlM hempty hv
    have hwithin := (hread front).mp ⟨v, hv⟩
    refine ⟨(points_length_le_iff v d c.numKeys).mpr ⟨?_, ?_⟩ p hp, ?_⟩
    · rw [hkeys]
      exact countP_keyDone_le h hsplit hwithin
    · intro hdone hshort
      rw [hkeys]
      refine h front d rest hsplit hwithin hdone ?_
      rw [← show v.assembly = assemble front from hassembly]
      exact hshort
    · rw [← hreservation]
      exact points_size_le v d p hp

/-- One key in two pieces, within its reservation. -/
theorem buffered_within_reservation_iff_one_key :
    let chunks : List DetectionKeyChunk := [⟨5, 6, 1, [1], false⟩, ⟨0, 0, 0, [2], true⟩]
    let g : Gauges ℕ := ⟨fun _ => 0, fun _ => 0, 100, 2⟩
    ∀ v d, (v, d) ∈ rounds (applyResourceCaps 8 1 1) g 0 true true (0 + uploadDeadline) none
        (chunks.map fun c => ⟨0, 0, .ok c⟩) →
      ∀ p ∈ v.points d, p.strings.length ≤ 1 ∧ p.size ≤ 8 + d.data.length := by
  intro chunks g
  have hreserve : reserveUpload (applyResourceCaps 8 1 1) g 0 1 = .ok (⟨8, le_rfl⟩,
      ⟨fun _ => 0, Function.update (fun _ => 0) 0 1, 92, 2⟩) := rfl
  have hheader : readHeader (applyResourceCaps 8 1 1) g 0 true true ⟨5, 6, 1, [1], false⟩ = _ :=
    readHeader_eq_ok (by decide) (fun _ => ⟨2, rfl⟩) hreserve
  refine (buffered_within_reservation_iff (brings_of_prompt chunks) hheader).mpr ?_
  intro front d rest hsplit _ hdone _
  obtain _ | ⟨first, _ | ⟨second, front⟩⟩ := front
  · decide
  · cases hsplit
    decide
  · have hlength := congrArg List.length hsplit
    simp at hlength

/-- Empty keys are buffered beyond the declared one. -/
theorem buffers_undeclared_keys :
    let chunks : List DetectionKeyChunk := [⟨5, 6, 1, [], true⟩, ⟨0, 0, 0, [], true⟩]
    let g : Gauges ℕ := ⟨fun _ => 0, fun _ => 0, 100, 2⟩
    Brings (0 + uploadDeadline) (chunks.map fun c => ⟨0, 0, .ok c⟩) chunks ∧
    ∃ v d, (v, d) ∈ rounds (applyResourceCaps 8 1 1) g 0 true true (0 + uploadDeadline) none
        (chunks.map fun c => ⟨0, 0, .ok c⟩) ∧ v.numKeys = 1 ∧
      ∃ p ∈ v.points d, p.strings = [[], []] := by
  intro chunks g
  have hheader : ∀ c ∈ chunks.head?, readHeader (applyResourceCaps 8 1 1) g 0 true true c =
      .ok (⟨5, 6, 1, [], [], ⟨8, le_rfl⟩, Nat.zero_le _⟩,
        ⟨fun _ => 0, Function.update (fun _ => 0) 0 1, 92, 2⟩) := by
    intro c hc
    cases hc
    exact readHeader_eq_ok (by decide) (fun _ => ⟨2, rfl⟩) rfl
  refine ⟨brings_of_prompt chunks, ⟨5, 6, 1, [[]], [], ⟨8, le_rfl⟩, by decide⟩,
    ⟨0, 0, 0, [], true⟩, ?_, rfl, ⟨[[], []], []⟩, ?_, rfl⟩
  · apply (mem_rounds_iff (brings_of_prompt chunks) (.inr ⟨rfl, hheader⟩)).mpr
    exact ⟨[⟨5, 6, 1, [], true⟩], [], rfl, rfl⟩
  · simp [KeyUpload.points, applyResourceCaps]

end Upload

end LightWalletd
