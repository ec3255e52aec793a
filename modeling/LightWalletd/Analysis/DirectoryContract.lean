import LightWalletd.Analysis.HintCodec
import LightWalletd.Analysis.Opening
import LightWalletd.Model.ClueDirectory

/-!
# The clue directory

The contract of the directory is a small machine on entries: a registration is admitted when
its sizes are, when its version is not below the entry's, and when it repeats the entry's clue
key at the entry's version. The server follows the machine as long as it reads back the rows it
writes. It does not when the two low bytes of an admitted version spell the tag of older rows.
-/

set_option autoImplicit false

namespace LightWalletd

open Stateful

/-! ## Rows -/

/-- The version is written with the bytes `v3` in front. -/
def TaggedVersion (keyVersion : ℕ) : Prop := keyVersion % 65536 = 0x3376

/-- Whether a version reads as a tag can be checked. -/
instance (keyVersion : ℕ) : Decidable (TaggedVersion keyVersion) :=
  inferInstanceAs (Decidable (_ = _))

/-- What `parseCluePubkeyValue` reads behind the tag. -/
def parseUntagged (v : Bytes) : Option (ℕ × Bytes × Bytes) :=
  if v.length < 8 + 4 then none
  else if v.length < 12 + leValue ((v.drop 8).take 4) then none
  else if (v.drop (12 + leValue ((v.drop 8).take 4))).isEmpty ||
      ((v.drop 12).take (leValue ((v.drop 8).take 4))).isEmpty then none
  else some (leValue (v.take 8), (v.drop 12).take (leValue ((v.drop 8).take 4)),
    v.drop (12 + leValue ((v.drop 8).take 4)))

/-- An old tag is skipped, and the rest is read. -/
theorem parseCluePubkeyValue_eq (v : Bytes) :
    parseCluePubkeyValue v = parseUntagged (if oldRowTag.isPrefixOf v then v.drop 2 else v) := rfl

/-- What is read accounts for every byte. -/
theorem length_of_parseUntagged {v : Bytes} {entry : ℕ × Bytes × Bytes}
    (h : parseUntagged v = some entry) : v.length = 12 + entry.2.1.length + entry.2.2.length := by
  unfold parseUntagged at h
  split_ifs at h with hshort hcut hempty
  cases h
  simp only [List.length_take, List.length_drop]
  omega

/-- A row reads as tagged exactly where its version does. -/
theorem isPrefixOf_oldRowTag_iff (keyVersion : ℕ) (rest : Bytes) :
    oldRowTag.isPrefixOf (leBytes 8 keyVersion ++ rest) = true ↔ TaggedVersion keyVersion := by
  have hfirst : UInt8.ofNat keyVersion = 118 ↔ keyVersion % 256 = 118 := by
    rw [← UInt8.toNat_inj, UInt8.toNat_ofNat']
    rfl
  have hsecond : UInt8.ofNat (keyVersion / 256) = 51 ↔ keyVersion / 256 % 256 = 51 := by
    rw [← UInt8.toNat_inj, UInt8.toNat_ofNat']
    rfl
  rw [oldRowTag, leBytes, leBytes]
  simp only [List.cons_append, List.isPrefixOf, Bool.and_true, Bool.and_eq_true, beq_iff_eq,
    @eq_comm _ (118 : UInt8), @eq_comm _ (51 : UInt8), hfirst, hsecond]
  unfold TaggedVersion
  omega

variable {keyVersion : ℕ} {proof clue : Bytes}

/-- A row that is written is read back, where no tag is skipped. -/
theorem parseUntagged_encode (hversion : keyVersion < 256 ^ 8) (hproof : proof ≠ [])
    (hlength : proof.length < 256 ^ 4) (hclue : clue ≠ []) :
    parseUntagged (encodeCluePubkeyValue keyVersion proof clue) =
      some (keyVersion, proof, clue) := by
  set v := encodeCluePubkeyValue keyVersion proof clue with hv
  have htotal : v.length = 12 + proof.length + clue.length := by
    simp [hv, encodeCluePubkeyValue]
    omega
  have hhead : leValue (v.take 8) = keyVersion := by
    rw [← leValue_leBytes_of_lt hversion]
    rfl
  have hlen : leValue ((v.drop 8).take 4) = proof.length := by
    rw [← leValue_leBytes_of_lt hlength]
    rfl
  have hbody : v.drop 12 = proof ++ clue := rfl
  have hrest : v.drop (12 + proof.length) = clue := by
    rw [← List.drop_drop, hbody, List.drop_left]
  have hread : (v.drop 12).take proof.length = proof := by rw [hbody, List.take_left]
  unfold parseUntagged
  rw [hlen, hhead, hrest, hread, if_neg (by omega), if_neg (by omega), if_neg]
  simp [hproof, hclue]

/-- A row is read back when its version does not look like the tag. -/
theorem parse_encode (hversion : keyVersion < 256 ^ 8) (hproof : proof ≠ [])
    (hlength : proof.length < 256 ^ 4) (hclue : clue ≠ []) (htag : ¬ TaggedVersion keyVersion) :
    parseCluePubkeyValue (encodeCluePubkeyValue keyVersion proof clue) =
      some (keyVersion, proof, clue) := by
  have hprefix : ¬ oldRowTag.isPrefixOf (encodeCluePubkeyValue keyVersion proof clue) = true := by
    unfold encodeCluePubkeyValue
    rwa [List.append_assoc, List.append_assoc, isPrefixOf_oldRowTag_iff]
  rw [parseCluePubkeyValue_eq, if_neg hprefix]
  exact parseUntagged_encode hversion hproof hlength hclue

/-- A row whose version looks like the tag is not: two bytes are missing. -/
theorem parse_encode_ne (htag : TaggedVersion keyVersion) :
    parseCluePubkeyValue (encodeCluePubkeyValue keyVersion proof clue) ≠
      some (keyVersion, proof, clue) := by
  intro h
  have hprefix : oldRowTag.isPrefixOf (encodeCluePubkeyValue keyVersion proof clue) = true := by
    unfold encodeCluePubkeyValue
    rwa [List.append_assoc, List.append_assoc, isPrefixOf_oldRowTag_iff]
  rw [parseCluePubkeyValue_eq, if_pos hprefix] at h
  have hlen := length_of_parseUntagged h
  simp [encodeCluePubkeyValue] at hlen
  omega

/-! ## Calls -/

/-- One `store_clue_public_key` call. -/
structure KeyCall where
  cluePk : Bytes
  keyVersion : ℕ
  ownershipProof : Bytes

namespace KeyCall

/-- What the directory answers after a successful call. -/
def entry (c : KeyCall) : ℕ × Bytes × Bytes := (c.keyVersion, c.ownershipProof, c.cluePk)

/-- The call on the row of `paymentPubkey`. -/
def store (paymentPubkey : Bytes32) (c : KeyCall) : CacheM Unit :=
  storeCluePublicKey paymentPubkey c.cluePk c.keyVersion c.ownershipProof

/-- The contract's rule for a registration over `current`. -/
def Admitted (current : Option (ℕ × Bytes × Bytes)) (c : KeyCall) : Prop :=
  checkClueRegistration c.cluePk c.keyVersion c.ownershipProof = .ok () ∧
    ∀ e ∈ current, e.1 ≤ c.keyVersion ∧ (e.1 = c.keyVersion → e.2.2 = c.cluePk)

/-- Whether a call is admitted can be checked. -/
instance (current : Option (ℕ × Bytes × Bytes)) (c : KeyCall) : Decidable (c.Admitted current) :=
  inferInstanceAs (Decidable (_ ∧ _))

end KeyCall

/-- The entry after a call that follows the rule. -/
def nextEntry (current : Option (ℕ × Bytes × Bytes)) (c : KeyCall) :
    Option (ℕ × Bytes × Bytes) :=
  if c.Admitted current then some c.entry else current

/-- The calls that the rule admits, one after the other from `current` on. -/
def admitted : Option (ℕ × Bytes × Bytes) → List KeyCall → List KeyCall
  | _, [] => []
  | current, c :: calls =>
    (if c.Admitted current then [c] else []) ++ admitted (nextEntry current c) calls

/-- The state after the calls. -/
def afterCalls (paymentPubkey : Bytes32) (calls : List KeyCall) (s : Cache) : Cache :=
  calls.foldl (fun s c => (c.store paymentPubkey).exec s) s

/-- The calls that returned `Ok`. -/
def succeeded (paymentPubkey : Bytes32) : List KeyCall → Cache → List KeyCall
  | [], _ => []
  | c :: calls, s =>
    (if ((c.store paymentPubkey).run s).1.isOk then [c] else []) ++
      succeeded paymentPubkey calls ((c.store paymentPubkey).exec s)

/-- What `get_clue_public_key_entry` answers. -/
def directoryEntry (paymentPubkey : Bytes32) (s : Cache) :
    Except LightWalletError (Option (ℕ × Bytes × Bytes)) :=
  ((getCluePublicKeyEntry paymentPubkey).run s).1

/-- The contract of the directory over a sequence of calls. -/
structure DirectoryContract (paymentPubkey : Bytes32) (calls : List KeyCall) (s : Cache) :
    Prop where
  latest : ∀ first, first <+: calls →
    directoryEntry paymentPubkey (afterCalls paymentPubkey first s) =
      .ok ((succeeded paymentPubkey first s).getLast?.map KeyCall.entry)
  ascending : (succeeded paymentPubkey calls s).Pairwise fun c c' => c.keyVersion ≤ c'.keyVersion
  sameKey : (succeeded paymentPubkey calls s).Pairwise fun c c' =>
    c.keyVersion = c'.keyVersion → c.cluePk = c'.cluePk
  refused : ∀ first c, first ++ [c] <+: calls →
    ((c.store paymentPubkey).run (afterCalls paymentPubkey first s)).1.isOk = false →
      directoryEntry paymentPubkey (afterCalls paymentPubkey (first ++ [c]) s) =
        directoryEntry paymentPubkey (afterCalls paymentPubkey first s)

/-! ## The rule -/

section Rule

variable {current : Option (ℕ × Bytes × Bytes)} {c : KeyCall} {calls : List KeyCall}

/-- The admitted calls of two lists. -/
theorem admitted_append (calls calls' : List KeyCall) :
    admitted current (calls ++ calls') =
      admitted current calls ++ admitted (calls.foldl nextEntry current) calls' := by
  induction calls generalizing current with
  | nil => rfl
  | cons c calls ih => rw [List.cons_append, admitted, ih, List.foldl_cons, admitted,
      List.append_assoc]

/-- One more call is admitted or not. -/
theorem admitted_append_singleton :
    admitted current (calls ++ [c]) = admitted current calls ++
      if c.Admitted (calls.foldl nextEntry current) then [c] else [] := by
  rw [admitted_append]
  exact congrArg _ (List.append_nil _)

/-- The entry is that of the last admitted call. -/
theorem foldl_nextEntry (calls : List KeyCall) :
    calls.foldl nextEntry none = (admitted none calls).getLast?.map KeyCall.entry := by
  induction calls using List.reverseRecOn with
  | nil => rfl
  | append_singleton calls c ih =>
    rw [List.foldl_append, List.foldl_cons, List.foldl_nil, admitted_append_singleton, nextEntry]
    by_cases h : c.Admitted (calls.foldl nextEntry none)
    · rw [if_pos h, if_pos h, List.getLast?_concat]
      rfl
    · rw [if_neg h, if_neg h, List.append_nil, ih]

/-- Admitted versions never go down, and a version keeps its clue key. -/
theorem pairwise_admitted (calls : List KeyCall) :
    (admitted none calls).Pairwise fun c c' =>
      c.keyVersion ≤ c'.keyVersion ∧ (c.keyVersion = c'.keyVersion → c.cluePk = c'.cluePk) := by
  induction calls using List.reverseRecOn with
  | nil => exact List.Pairwise.nil
  | append_singleton calls c ih =>
    rw [admitted_append_singleton]
    by_cases h : c.Admitted (calls.foldl nextEntry none)
    · rw [if_pos h, List.pairwise_append]
      refine ⟨ih, List.pairwise_singleton .., ?_⟩
      intro a ha b hb
      rw [List.mem_singleton] at hb
      subst hb
      -- the last admitted call stands between the two
      rw [foldl_nextEntry] at h
      obtain ⟨front, last, hlast⟩ : ∃ front last, admitted none calls = front ++ [last] :=
        ⟨_, _, (List.dropLast_append_getLast (List.ne_nil_of_mem ha)).symm⟩
      rw [hlast, List.getLast?_concat] at h
      obtain ⟨hle, hkey⟩ := h.2 last.entry rfl
      rw [hlast, List.pairwise_append] at ih
      rw [hlast] at ha
      rcases List.mem_append.mp ha with ha | ha
      · obtain ⟨hle', hkey'⟩ := ih.2.2 a ha last (List.mem_singleton_self last)
        refine ⟨hle'.trans hle, fun heq => ?_⟩
        have hmid : a.keyVersion = last.keyVersion := le_antisymm hle' (heq ▸ hle)
        exact (hkey' hmid).trans (hkey (hmid.symm.trans heq))
      · rw [List.mem_singleton] at ha
        subst ha
        exact ⟨hle, hkey⟩
    · rwa [if_neg h, List.append_nil]

end Rule

/-! ## The server -/

section Server

variable {paymentPubkey : Bytes32} {s : Cache} {c : KeyCall}

/-- An entry is the row, read. -/
theorem directoryEntry_eq (paymentPubkey : Bytes32) (s : Cache) :
    directoryEntry paymentPubkey s =
      .ok ((s.db.omr.omrCluePubkeys.get paymentPubkey).bind parseCluePubkeyValue) := rfl

/-- A call stores its row when the rule admits it over the entry that is read, and changes
nothing otherwise. -/
theorem store_run {current : Option (ℕ × Bytes × Bytes)}
    (h : directoryEntry paymentPubkey s = .ok current) :
    (c.Admitted current ∧ (c.store paymentPubkey).run s =
      (.ok (), (omrCluePubkeys.insert paymentPubkey
        (encodeCluePubkeyValue c.keyVersion c.ownershipProof c.cluePk)).exec s)) ∨
    (¬ c.Admitted current ∧ ∃ e, (c.store paymentPubkey).run s = (.error e, s)) := by
  rw [directoryEntry_eq] at h
  injection h with h
  unfold KeyCall.store storeCluePublicKey
  cases hsizes : checkClueRegistration c.cluePk c.keyVersion c.ownershipProof with
  | error e =>
    refine Or.inr ⟨fun hadm => ?_, e, Prog.run_bind_of_error (run_liftExcept _ s) _⟩
    rw [hadm.1] at hsizes
    cases hsizes
  | ok _ =>
    rw [Prog.bind_eq, Prog.run_bind_of_ok (run_liftExcept _ s), Prog.bind_eq,
      Prog.run_bind_of_ok (Tree.run_get _ _ s)]
    show (_ ∧ ((liftExcept (checkStoredClueKey (s.db.omr.omrCluePubkeys.get paymentPubkey)
      c.cluePk c.keyVersion)).bind _).run s = _) ∨ (_ ∧ ∃ e, ((liftExcept (checkStoredClueKey
        (s.db.omr.omrCluePubkeys.get paymentPubkey) c.cluePk c.keyVersion)).bind _).run s = _)
    have hcheck : checkStoredClueKey (s.db.omr.omrCluePubkeys.get paymentPubkey) c.cluePk
        c.keyVersion = .ok () ↔
          ∀ e ∈ current, e.1 ≤ c.keyVersion ∧ (e.1 = c.keyVersion → e.2.2 = c.cluePk) := by
      unfold checkStoredClueKey
      rw [h]
      cases current with
      | none => simp
      | some e =>
        obtain ⟨version, proof, clue⟩ := e
        by_cases hstale : c.keyVersion < version
        · simp [hstale]
        · by_cases hother : c.keyVersion = version ∧ clue ≠ c.cluePk
          · simp [hother.1, hother.2]
          · simp only [hstale, hother, if_false, true_iff]
            intro e he
            cases he
            refine ⟨not_lt.mp hstale, fun heq => ?_⟩
            by_contra hne
            exact hother ⟨heq.symm, hne⟩
    cases hstored : checkStoredClueKey (s.db.omr.omrCluePubkeys.get paymentPubkey) c.cluePk
        c.keyVersion with
    | error e =>
      refine Or.inr ⟨fun hadm => ?_, e, Prog.run_bind_of_error (run_liftExcept _ s) _⟩
      rw [hcheck.mpr hadm.2] at hstored
      cases hstored
    | ok _ =>
      exact Or.inl ⟨⟨hsizes, hcheck.mp hstored⟩, Prog.run_bind_of_ok (run_liftExcept _ s) _⟩

/-- One more call, run. -/
theorem afterCalls_append_singleton (calls : List KeyCall) :
    afterCalls paymentPubkey (calls ++ [c]) s =
      (c.store paymentPubkey).exec (afterCalls paymentPubkey calls s) := by
  simp [afterCalls]

/-- One more call succeeds or not. -/
theorem succeeded_append_singleton (calls : List KeyCall) :
    succeeded paymentPubkey (calls ++ [c]) s = succeeded paymentPubkey calls s ++
      if ((c.store paymentPubkey).run (afterCalls paymentPubkey calls s)).1.isOk then [c]
      else [] := by
  induction calls generalizing s with
  | nil => exact List.append_nil _
  | cons c' calls ih =>
    rw [List.cons_append, succeeded, ih, succeeded, List.append_assoc]
    rfl

/-- A call that passes the checks has the sizes a row needs. -/
theorem sizes_of_checkClueRegistration
    (h : checkClueRegistration c.cluePk c.keyVersion c.ownershipProof = .ok ()) :
    c.cluePk ≠ [] ∧ c.ownershipProof ≠ [] ∧ c.ownershipProof.length < 256 ^ 4 := by
  unfold checkClueRegistration at h
  split_ifs at h with hclue hproof
  simp only [Bool.or_eq_true, List.isEmpty_iff, decide_eq_true_eq, not_or, not_lt] at hclue hproof
  refine ⟨hclue.1, hproof.1, lt_of_le_of_lt hproof.2 (by decide)⟩

/-- The row that a call wrote. -/
theorem directoryEntry_insert (row : Bytes) :
    directoryEntry paymentPubkey ((omrCluePubkeys.insert paymentPubkey row).exec s) =
      .ok (parseCluePubkeyValue row) := by
  have hget : ((omrCluePubkeys.insert paymentPubkey row).exec s).db.omr.omrCluePubkeys.get
      paymentPubkey = some row := by
    show (s.db.omr.omrCluePubkeys.insert paymentPubkey row).get paymentPubkey = some row
    simp
  rw [directoryEntry_eq, hget]
  rfl

/-- While no admitted version looks like the tag, the server follows the rule. -/
theorem follows_rule {calls : List KeyCall}
    (hnone : s.db.omr.omrCluePubkeys.get paymentPubkey = none)
    (hcalls : ∀ c ∈ calls, c.keyVersion < 256 ^ 8)
    (htags : ∀ c ∈ admitted none calls, ¬ TaggedVersion c.keyVersion) :
    directoryEntry paymentPubkey (afterCalls paymentPubkey calls s) =
        .ok (calls.foldl nextEntry none) ∧
      succeeded paymentPubkey calls s = admitted none calls := by
  induction calls using List.reverseRecOn with
  | nil =>
    refine ⟨?_, rfl⟩
    show directoryEntry paymentPubkey s = .ok none
    rw [directoryEntry_eq, hnone]
    rfl
  | append_singleton calls c ih =>
    rw [admitted_append_singleton] at htags
    obtain ⟨hentry, hsucceeded⟩ := ih (fun c' h => hcalls c' (List.mem_append_left _ h))
      fun c' h => htags c' (List.mem_append_left _ h)
    rw [afterCalls_append_singleton, succeeded_append_singleton, admitted_append_singleton,
      hsucceeded, List.foldl_append, List.foldl_cons, List.foldl_nil, nextEntry]
    rcases store_run (c := c) hentry with ⟨hadm, hrun⟩ | ⟨hadm, e, hrun⟩
    · have hc := hcalls c (by simp)
      have htag : ¬ TaggedVersion c.keyVersion := htags c (by simp [hadm])
      obtain ⟨hclue, hproof, hlength⟩ := sizes_of_checkClueRegistration hadm.1
      rw [Prog.exec, hrun, if_pos hadm, if_pos hadm, directoryEntry_insert,
        parse_encode hc hproof hlength hclue htag]
      exact ⟨rfl, rfl⟩
    · rw [Prog.exec, hrun, if_neg hadm, if_neg hadm]
      exact ⟨hentry, rfl⟩

/-- The contract over more calls holds over fewer. -/
theorem DirectoryContract.of_append_singleton {calls : List KeyCall}
    (h : DirectoryContract paymentPubkey (calls ++ [c]) s) :
    DirectoryContract paymentPubkey calls s := by
  have hsub : (succeeded paymentPubkey calls s).Sublist
      (succeeded paymentPubkey (calls ++ [c]) s) := by
    rw [succeeded_append_singleton]
    exact List.sublist_append_left _ _
  have hpre := List.prefix_append calls [c]
  exact ⟨fun first hfirst => h.latest first (hfirst.trans hpre), h.ascending.sublist hsub,
    h.sameKey.sublist hsub, fun first c' hfirst => h.refused first c' (hfirst.trans hpre)⟩

/-- From no row on, the contract holds exactly when no admitted version looks like the tag. -/
theorem directory_contract_iff (paymentPubkey : Bytes32) (calls : List KeyCall) (s : Cache)
    (hnone : s.db.omr.omrCluePubkeys.get paymentPubkey = none)
    (hcalls : ∀ c ∈ calls, c.keyVersion < 256 ^ 8) :
    DirectoryContract paymentPubkey calls s ↔
      ∀ c ∈ admitted none calls, ¬ TaggedVersion c.keyVersion := by
  constructor
  · intro h
    induction calls using List.reverseRecOn with
    | nil => exact List.forall_mem_nil _
    | append_singleton calls c ih =>
      have htags := ih (fun c' h' => hcalls c' (List.mem_append_left _ h')) h.of_append_singleton
      obtain ⟨hentry, hsucceeded⟩ :=
        follows_rule hnone (fun c' h' => hcalls c' (List.mem_append_left _ h')) htags
      rw [admitted_append_singleton]
      intro c' hc'
      rcases List.mem_append.mp hc' with hc' | hc'
      · exact htags c' hc'
      · by_cases hadm : c.Admitted (calls.foldl nextEntry none)
        · rw [if_pos hadm, List.mem_singleton] at hc'
          subst hc'
          intro htag
          -- the row just written is not read back
          rcases store_run (c := c') hentry with ⟨-, hrun⟩ | ⟨hnot, -⟩
          · have hlatest := h.latest (calls ++ [c']) (List.prefix_refl _)
            rw [afterCalls_append_singleton, succeeded_append_singleton, Prog.exec, hrun,
              directoryEntry_insert] at hlatest
            injection hlatest with hlatest
            rw [if_pos (by rfl), List.getLast?_concat] at hlatest
            exact parse_encode_ne htag hlatest
          · exact hnot hadm
        · rw [if_neg hadm] at hc'
          cases hc'
  · intro htags
    have hprefix : ∀ first, first <+: calls →
        directoryEntry paymentPubkey (afterCalls paymentPubkey first s) =
            .ok (first.foldl nextEntry none) ∧
          succeeded paymentPubkey first s = admitted none first := by
      rintro first ⟨rest, rfl⟩
      rw [admitted_append] at htags
      exact follows_rule hnone (fun c h => hcalls c (List.mem_append_left _ h))
        fun c h => htags c (List.mem_append_left _ h)
    obtain ⟨-, hsucceeded⟩ := hprefix calls (List.prefix_refl _)
    refine ⟨fun first hfirst => ?_, ?_, ?_, fun first c hfirst hrefused => ?_⟩
    · obtain ⟨hentry, hsucc⟩ := hprefix first hfirst
      rw [hentry, hsucc, foldl_nextEntry]
    · rw [hsucceeded]
      exact (pairwise_admitted calls).imp fun h => h.1
    · rw [hsucceeded]
      exact (pairwise_admitted calls).imp fun h => h.2
    · rw [afterCalls_append_singleton]
      rcases store_run (c := c) (directoryEntry_eq paymentPubkey
        (afterCalls paymentPubkey first s)) with ⟨-, hrun⟩ | ⟨-, e, hrun⟩
      · rw [hrun] at hrefused
        cases hrefused
      · rw [Prog.exec, hrun]

/-- A key at version 1, a new proof for it, and another key at the same version. -/
theorem directory_contract_iff_three_calls :
    DirectoryContract (Bytes32.fill 1) [⟨[7], 1, [9]⟩, ⟨[7], 1, [8, 8]⟩, ⟨[9], 1, [1]⟩]
        Cache.initial ↔
      ∀ c ∈ admitted none [⟨[7], 1, [9]⟩, ⟨[7], 1, [8, 8]⟩, ⟨[9], 1, [1]⟩],
        ¬ TaggedVersion c.keyVersion := by
  apply directory_contract_iff
  · decide +kernel
  · simp

/-- A registration at version `0x3376` reads back as no entry. -/
theorem tagged_version_not_read_back :
    ¬ DirectoryContract (Bytes32.fill 1) [⟨[7], 0x3376, [9]⟩] Cache.initial := by
  intro h
  have hlatest := h.latest [⟨[7], 0x3376, [9]⟩] (List.prefix_refl _)
  have hread : directoryEntry (Bytes32.fill 1)
      (afterCalls (Bytes32.fill 1) [⟨[7], 0x3376, [9]⟩] Cache.initial) = .ok none := by
    decide +kernel
  have hsucceeded : (succeeded (Bytes32.fill 1) [⟨[7], 0x3376, [9]⟩] Cache.initial).length = 1 := by
    decide +kernel
  rw [hread] at hlatest
  injection hlatest with hlatest
  rw [eq_comm, Option.map_eq_none_iff, List.getLast?_eq_none_iff] at hlatest
  rw [hlatest] at hsucceeded
  cases hsucceeded

end Server

end LightWalletd
