import LightWalletd.Analysis.DetectionExact

/-!
# Digests and their client

The server cuts a list of clues between two heights, so that a digest has at most as many chunks
as the client takes; only a first height with too many clues is kept whole. The client opens
every digest but that of such a height.
-/

set_option autoImplicit false

namespace LightWalletd

/-! ## The cap -/

section Cap

/-- The lowest height does not have more clues than a digest may. -/
def FirstHeightFits (slotHeights : List ℕ) : Prop :=
  ∀ h ∈ slotHeights.head?, slotHeights.count h ≤ maxOmrMessages

/-- All slots of the first height are before a cut between heights. -/
theorem count_head_le {slotHeights : List ℕ} {cut : ℕ} (hcuts : CutsHeights slotHeights cut)
    (hcut : 0 < cut) {h : ℕ} (hhead : slotHeights.head? = some h) :
    slotHeights.count h ≤ cut := by
  have hmem : h ∈ slotHeights.take cut := by
    cases slotHeights with
    | nil => cases hhead
    | cons x xs =>
      cases hhead
      rw [List.take_cons hcut]
      exact List.mem_cons_self
  have hbehind : (slotHeights.drop cut).count h = 0 := by
    apply List.count_eq_zero_of_not_mem
    intro hdrop
    exact lt_irrefl h (hcuts h hmem h hdrop)
  calc slotHeights.count h = (slotHeights.take cut ++ slotHeights.drop cut).count h := by
        rw [List.take_append_drop]
    _ = (slotHeights.take cut).count h := by rw [List.count_append, hbehind, Nat.add_zero]
    _ ≤ (slotHeights.take cut).length := List.count_le_length
    _ ≤ cut := List.length_take_le ..

/-- A first height that fills all slots up to the cap begins the list. -/
theorem head?_of_backOff_eq_zero {slotHeights : List ℕ} {boundary cap : ℕ} (hcap : 0 < cap)
    (hlen : cap < slotHeights.length) (hback : backOff boundary slotHeights cap = 0) :
    slotHeights.head? = some boundary := by
  have hfirst := (backOff_spec boundary slotHeights cap).1 0 (by omega) hcap
  cases slotHeights with
  | nil => exact absurd hlen (Nat.not_lt_zero cap)
  | cons x xs => exact congrArg some hfirst

/-- The slots of the first height are the front of the list. -/
theorem count_eq_length_takeWhile {slotHeights : List ℕ} (hsorted : slotHeights.Pairwise (· ≤ ·))
    {h : ℕ} (hhead : slotHeights.head? = some h) :
    slotHeights.count h = (slotHeights.takeWhile (· == h)).length := by
  have hall : (slotHeights.takeWhile (· == h)).count h =
      (slotHeights.takeWhile (· == h)).length := by
    rw [List.count_eq_length]
    intro x hx
    have hfront := List.all_eq_true.mp (List.all_takeWhile (p := (· == h)) (l := slotHeights)) x hx
    exact (beq_iff_eq.mp hfront).symm
  apply le_antisymm
  · apply count_head_le (cutsHeights_takeWhile hsorted h) _ hhead
    cases slotHeights with
    | nil => cases hhead
    | cons x xs =>
      cases hhead
      simp
  · rw [← hall]
    exact (List.takeWhile_prefix _).sublist.count_le h

/-- The cap is kept unless the first height alone is over it. -/
theorem length_capped_le_iff {clues : List (ℕ × RlweCiphertext)}
    (hsorted : clues.Pairwise fun c c' => c.1 ≤ c'.1) :
    (capMessagesToWholeHeights (clues.map Prod.snd) (clues.map Prod.fst)).1.length ≤
      maxOmrMessages ↔ FirstHeightFits (clues.map Prod.fst) := by
  have hheights : (clues.map Prod.fst).Pairwise (· ≤ ·) := List.pairwise_map.mpr hsorted
  have hlen : (clues.map Prod.snd).length = (clues.map Prod.fst).length := by
    rw [List.length_map, List.length_map]
  unfold capMessagesToWholeHeights
  by_cases hfew : (clues.map Prod.snd).length ≤ maxOmrMessages
  · rw [if_pos hfew]
    have hcount : ∀ h, (clues.map Prod.fst).count h ≤ maxOmrMessages :=
      fun h => List.count_le_length.trans (hlen ▸ hfew)
    exact iff_of_true hfew fun h _ => hcount h
  rw [if_neg hfew]
  unfold FirstHeightFits
  have hpos : 0 < maxOmrMessages := by decide
  generalize maxOmrMessages = cap at *
  have hlast : cap - 1 < (clues.map Prod.fst).length := by omega
  have hcuts := cutsHeights_backOff hheights hlast
  rw [show cap - 1 + 1 = cap by omega, ← List.getD_eq_getElem _ 0 hlast] at hcuts
  dsimp only
  set boundary := (clues.map Prod.fst).getD (cap - 1) 0
  by_cases hback : backOff boundary (clues.map Prod.fst) cap = 0
  · -- the whole first height is kept
    rw [if_pos hback]
    have hhead := head?_of_backOff_eq_zero hpos (by omega) hback
    have hwhile := cutsHeights_takeWhile hheights boundary
    have hcount := count_eq_length_takeWhile hheights hhead
    set front := (clues.map Prod.fst).takeWhile (· == boundary) with hfront
    have hle : front.length ≤ (clues.map Prod.snd).length := by
      rw [hlen]
      exact (List.takeWhile_prefix _).length_le
    rw [List.length_take_of_le hle, ← hcount]
    constructor
    · intro h x hx
      rw [hhead] at hx
      cases hx
      exact h
    · intro h
      exact h boundary hhead
  · rw [if_neg hback]
    have hle := backOff_le boundary (clues.map Prod.fst) cap
    refine iff_of_true ?_ fun h hh => ?_
    · exact (List.length_take_le ..).trans hle
    · exact (count_head_le hcuts (Nat.pos_of_ne_zero hback) hh).trans hle

end Cap

/-! ## What the client opens -/

section Accepted

variable {S : BfvScheme} {client : UnifOmrClient S}

/-- Chunks behind a number of them that is too small are not all read. -/
theorem decryptDigestSlots_trailing {flags : List (List ℕ)} {chunks : List Bytes} {count n : ℕ}
    (hreads : List.Forall₂ (fun flags bytes => Reads client.readDigestChunk flags bytes ∧
      cluePlaintextBits * 4 ≤ bytes.length) flags chunks)
    (hn : leValue (leBytes 4 count) = n) (hlt : n < chunks.length) :
    ∃ error, client.decryptDigestSlots ([digestFormatVersion] ++ leBytes 4 count ++
      chunks.flatten) = .error error := by
  rw [decryptDigestSlots_wire]
  simp only [hn]
  by_cases hmax : divCeil maxOmrMessages packingDegree < n
  · rw [if_pos hmax]
    exact ⟨_, rfl⟩
  rw [if_neg hmax]
  by_cases hshort : chunks.flatten.length < n * (cluePlaintextBits * 4)
  · rw [if_pos hshort]
    exact ⟨_, rfl⟩
  rw [if_neg hshort]
  have hfront := reads_many ((List.forall₂_take n hreads).imp fun _ _ h => h.1)
    (chunks.drop n).flatten
  rw [List.length_take_of_le (by rw [hreads.length_eq]; omega), ← List.flatten_append,
    List.take_append_drop] at hfront
  -- the chunks behind the number are not empty
  have hback := mul_le_length_flatten ((List.forall₂_drop n hreads).imp fun _ _ h => h.2)
  have hpos : 0 < (flags.drop n).length := by
    rw [List.length_drop, hreads.length_eq]
    omega
  have hrest : (chunks.drop n).flatten ≠ [] := by
    intro hnil
    rw [hnil, List.length_nil] at hback
    have : 0 < (flags.drop n).length * (cluePlaintextBits * 4) := Nat.mul_pos hpos (by decide)
    omega
  rw [hfront]
  show ∃ error, (if (chunks.drop n).flatten ≠ [] then _ else _) = Except.error error
  rw [if_pos hrest]
  exact ⟨_, rfl⟩

/-- The client opens a digest if it has at most as many messages as the cap says. -/
theorem encodeMessages_accepted (ideal : S.Ideal client.detSk client.detPk)
    (hs : client.clueSk.coeffs.length = clueN)
    (hternary : ∀ coeff ∈ client.clueSk.coeffs, Ternary coeff) (draws : ℕ → S.Random)
    (network : UInt8) (messages : List RlweCiphertext) :
    ∃ key digest, client.buildDetectionKey draws network = .ok key ∧
      UnifOmrDetector.encodeMessages S ⟨network⟩ key messages = .ok digest ∧
      (messages.length ≤ maxOmrMessages → ∃ flags, client.decryptDigestSlots digest = .ok flags ∧
        flags.length = divCeil messages.length packingDegree * packingDegree) ∧
      (maxOmrMessages < messages.length → ∃ error,
        client.decryptDigestSlots digest = .error error) := by
  obtain ⟨key, cts, hbuild, hparse, hkey⟩ := buildDetectionKey_ok ideal hs hternary draws network
  obtain ⟨chunks, hencode, hreads⟩ := encodeMessages_frames ideal hs hparse hkey messages
  refine ⟨key, _, hbuild, hencode, fun hcap => ?_, fun hover => ?_⟩
  · obtain ⟨digest, hencode', hdecrypt⟩ := encodeMessages_ok ideal hs hparse hkey hcap
    cases hencode.symm.trans hencode'
    refine ⟨_, hdecrypt, ?_⟩
    have := le_divCeil_mul (n := packingDegree) (by decide) messages.length
    rw [List.length_append, List.length_map, List.length_replicate]
    omega
  · have hcount : chunks.length = divCeil messages.length packingDegree := by
      rw [← hreads.length_eq, List.length_map, length_chunksOf]
    have hmany : messages.length ≤ divCeil messages.length packingDegree * 4096 :=
      le_divCeil_mul (by decide) messages.length
    have hmessages : maxOmrMessages = 262144 := rfl
    by_cases hwrap : leValue (leBytes 4 (divCeil messages.length packingDegree)) <
        divCeil messages.length packingDegree
    · exact decryptDigestSlots_trailing hreads rfl (hcount ▸ hwrap)
    · -- the number of chunks is read back, and it is too large
      have hle : leValue (leBytes 4 (divCeil messages.length packingDegree)) ≤
          divCeil messages.length packingDegree := by
        rw [leValue_leBytes]
        exact Nat.mod_le _ _
      have hmax : divCeil maxOmrMessages packingDegree = 64 := by decide
      rw [decryptDigestSlots_wire]
      dsimp only
      rw [if_pos (by omega)]
      exact ⟨_, rfl⟩

/-- The client opens the digest of the clues that the server keeps, with a flag for every slot,
exactly when the lowest height has at most `maxOmrMessages` clues. -/
theorem emitted_digest_accepted_iff (ideal : S.Ideal client.detSk client.detPk)
    (hs : client.clueSk.coeffs.length = clueN)
    (hternary : ∀ coeff ∈ client.clueSk.coeffs, Ternary coeff) (draws : ℕ → S.Random)
    (network : UInt8) {clues : List (ℕ × RlweCiphertext)}
    (hsorted : clues.Pairwise fun c c' => c.1 ≤ c'.1) :
    ∃ messages slotHeights truncated key digest,
      capMessagesToWholeHeights (clues.map Prod.snd) (clues.map Prod.fst) =
        (messages, slotHeights, truncated) ∧
      client.buildDetectionKey draws network = .ok key ∧
      UnifOmrDetector.encodeMessages S ⟨network⟩ key messages = .ok digest ∧
      ((∃ flags, client.decryptDigestSlots digest = .ok flags ∧
          flags.length = divCeil messages.length packingDegree * packingDegree ∧
          slotHeights.length ≤ flags.length) ↔
        FirstHeightFits (clues.map Prod.fst)) := by
  obtain ⟨cut, truncated, hcap, -, -⟩ := capMessagesToWholeHeights_eq hsorted
  obtain ⟨key, digest, hbuild, hencode, hfits, hover⟩ := encodeMessages_accepted ideal hs hternary
    draws network ((clues.take cut).map Prod.snd)
  refine ⟨_, _, _, key, digest, hcap, hbuild, hencode, ?_⟩
  have hiff := length_capped_le_iff hsorted
  rw [hcap] at hiff
  rw [← hiff]
  constructor
  · rintro ⟨flags, hdecrypt, -⟩
    by_contra hgt
    obtain ⟨error, herror⟩ := hover (Nat.lt_of_not_le hgt)
    rw [hdecrypt] at herror
    cases herror
  · intro hle
    obtain ⟨flags, hdecrypt, hlength⟩ := hfits hle
    refine ⟨flags, hdecrypt, hlength, ?_⟩
    rw [hlength, List.length_map, List.length_map]
    exact le_divCeil_mul (by decide) _

/-- A digest over two clues of one height. -/
theorem emitted_digest_accepted_iff_two_clues :
    ∃ messages slotHeights truncated key digest,
      capMessagesToWholeHeights ((List.replicate 2 (7, zeroClue)).map Prod.snd)
        ((List.replicate 2 (7, zeroClue)).map Prod.fst) = (messages, slotHeights, truncated) ∧
      zeroClient.buildDetectionKey (fun _ => ()) 1 = .ok key ∧
      UnifOmrDetector.encodeMessages (plainScheme packingDegree clueQ) ⟨1⟩ key messages =
        .ok digest ∧
      ((∃ flags, zeroClient.decryptDigestSlots digest = .ok flags ∧
          flags.length = divCeil messages.length packingDegree * packingDegree ∧
          slotHeights.length ≤ flags.length) ↔
        FirstHeightFits ((List.replicate 2 (7, zeroClue)).map Prod.fst)) :=
  emitted_digest_accepted_iff (plainScheme_ideal (by decide) (by decide)) List.length_replicate
    (fun _ h => .inr (.inl (List.eq_of_mem_replicate h))) (fun _ => ()) 1
    (List.pairwise_replicate.mpr (.inr le_rfl))

/-- One clue more than the cap, all of them at height 7. -/
def crowdedHeight : List (ℕ × RlweCiphertext) := List.replicate (maxOmrMessages + 1) (7, zeroClue)

/-- The server keeps the height whole, and the client does not open its digest. -/
theorem crowded_height_refused :
    (crowdedHeight.Pairwise fun c c' => c.1 ≤ c'.1) ∧
      ∃ key digest, zeroClient.buildDetectionKey (fun _ => ()) 1 = .ok key ∧
        UnifOmrDetector.encodeMessages (plainScheme packingDegree clueQ) ⟨1⟩ key
          (capMessagesToWholeHeights (crowdedHeight.map Prod.snd) (crowdedHeight.map Prod.fst)).1 =
            .ok digest ∧
        ∃ error, zeroClient.decryptDigestSlots digest = .error error := by
  have hsorted : crowdedHeight.Pairwise fun c c' => c.1 ≤ c'.1 :=
    List.pairwise_replicate.mpr (.inr le_rfl)
  have hideal : (plainScheme packingDegree clueQ).Ideal zeroClient.detSk zeroClient.detPk :=
    plainScheme_ideal (by decide) (by decide)
  obtain ⟨key, digest, hbuild, hencode, -, hover⟩ := encodeMessages_accepted hideal
    List.length_replicate (fun _ h => .inr (.inl (List.eq_of_mem_replicate h))) (fun _ => ()) 1
    (capMessagesToWholeHeights (crowdedHeight.map Prod.snd) (crowdedHeight.map Prod.fst)).1
  refine ⟨hsorted, key, digest, hbuild, hencode, hover ?_⟩
  apply Nat.lt_of_not_le
  rw [length_capped_le_iff hsorted]
  intro hfits
  have hcount := hfits 7
  unfold crowdedHeight at hcount
  rw [List.map_replicate, List.count_replicate_self, List.head?_replicate] at hcount
  exact absurd (hcount (by simp)) (Nat.not_succ_le_self _)

end Accepted

end LightWalletd
