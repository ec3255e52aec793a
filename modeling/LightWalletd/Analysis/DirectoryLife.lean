import LightWalletd.Analysis.DirectoryChanges

/-!
# The directory over the life of a server

What wallets may rely on while the server polls, answers others and is restarted. Under the key
that it has once published every later reply verifies. The replies for one payment key never go
back, and are the same until the holder registers. A clue key that is not a decoy was registered,
with a proof by the holder of the payment key.
-/

set_option autoImplicit false

namespace LightWalletd

open Stateful

/-! ## What lasts -/

section Lasting

/-- The entry of a payment key. -/
def DirectoryRows.entry (d : DirectoryRows) (pk : Bytes32) : Option (ℕ × Bytes × Bytes) :=
  (d.keys.get pk).bind parseCluePubkeyValue

/-- The attestation key is `sk`. -/
def DirectoryRows.SignsWith (keys : SecretKeys) (d : DirectoryRows) (sk : keys.SecretKey) : Prop :=
  ∃ out, readBytes32 d.attest = some out ∧ keys.fromBytes out = .ok sk

/-- A directory signs with one key. -/
theorem DirectoryRows.SignsWith.unique {keys : SecretKeys} {d : DirectoryRows}
    {sk sk' : keys.SecretKey} (h : d.SignsWith keys sk) (h' : d.SignsWith keys sk') : sk = sk' := by
  obtain ⟨out, hrow, hsk⟩ := h
  obtain ⟨out', hrow', hsk'⟩ := h'
  rw [hrow] at hrow'
  cases hrow'
  rw [hsk] at hsk'
  cases hsk'
  rfl

/-- Nothing is left under obsolete names. -/
def DirectoryRows.Settled (d : DirectoryRows) : Prop :=
  d.oldAttest = none ∧ d.oldPepper = none ∧ d.oldKeys = none

/-- A retired directory has no old names left. -/
theorem DirectoryRows.settled_retired (d : DirectoryRows) : d.retired.Settled := ⟨rfl, rfl, rfl⟩

/-- Retiring a settled directory changes nothing. -/
theorem DirectoryRows.Settled.retired_eq {d : DirectoryRows} (h : d.Settled) : d.retired = d := by
  obtain ⟨attest, pepper, keys, oldAttest, oldPepper, oldKeys⟩ := d
  obtain ⟨rfl, rfl, rfl⟩ := h
  simp [DirectoryRows.retired]

/-- A readable key is not replaced by the old one. -/
theorem retiredKey_of_read {row old : Option Bytes} {out : Bytes32}
    (h : readBytes32 row = some out) : retiredKey row old = row := by
  apply retiredKey_of_isKey
  cases row with
  | none => cases h
  | some bytes =>
    by_cases hlen : bytes.length = 32
    · simp [isKey, hlen]
    · simp [readBytes32, hlen] at h

variable {dir : AttestEnv} {admitted : Proto.CluePublicKeyRegistration → Prop}
  {d d' : DirectoryRows}

/-- A step of the directory keeps it settled. -/
theorem DirectoryChange.settled (h : DirectoryChange dir admitted d d') (hd : d.Settled) :
    d'.Settled := by
  cases h with
  | attest sk _ => exact hd
  | pepper pepper _ => exact hd
  | registered req pk _ _ _ _ => exact hd
  | retired => exact d.settled_retired

/-- A secret is drawn only where there is none. -/
theorem DirectoryChange.secrets (h : DirectoryChange dir admitted d d') :
    (∀ out, readBytes32 d.attest = some out → d'.attest = d.attest) ∧
      ∀ out, readBytes32 d.pepper = some out → d'.pepper = d.pepper := by
  cases h with
  | attest sk hnone => exact ⟨fun out hout => by simp [hnone] at hout, fun _ _ => rfl⟩
  | pepper pepper hnone => exact ⟨fun _ _ => rfl, fun out hout => by simp [hnone] at hout⟩
  | registered req pk _ _ _ _ => exact ⟨fun _ _ => rfl, fun _ _ => rfl⟩
  | retired => exact ⟨fun _ hout => retiredKey_of_read hout, fun _ hout => retiredKey_of_read hout⟩

/-- An entry is left alone, or it is that of a registration by the holder of the payment key. -/
theorem DirectoryChange.entry (h : DirectoryChange dir admitted d d') (hd : d.Settled)
    (pk : Bytes32) : d'.entry pk = d.entry pk ∨
      ∃ req, admitted req ∧ req.paymentPubkey = pk.1 ∧
        verifyCluePkOwnership dir.schnorr dir.networkByte req.keyVersion pk req.cluePublicKey
          req.ownershipProof = .ok () ∧
        KeyCall.Admitted (d.entry pk) ⟨req.cluePublicKey, req.keyVersion, req.ownershipProof⟩ ∧
        d'.entry pk = parseCluePubkeyValue
          (encodeCluePubkeyValue req.keyVersion req.ownershipProof req.cluePublicKey) := by
  cases h with
  | attest sk _ => exact Or.inl rfl
  | pepper pepper _ => exact Or.inl rfl
  | registered req pk' hreq hpk hverify hadmitted =>
    by_cases hsame : pk' = pk
    · subst hsame
      refine Or.inr ⟨req, hreq, hpk, hverify, hadmitted, ?_⟩
      simp [DirectoryRows.entry]
    · left
      simp [DirectoryRows.entry, OrderedMap.get_insert, Ne.symm hsame]
  | retired => exact Or.inl (by rw [hd.retired_eq])

/-! ### Runs -/

/-- So do any number of steps. -/
theorem settled_of_changes (h : Relation.ReflTransGen (DirectoryChange dir admitted) d d')
    (hd : d.Settled) : d'.Settled := by
  induction h with
  | refl => exact hd
  | tail _ hchange ih => exact hchange.settled ih

/-- The signing key stays as it is. -/
theorem DirectoryRows.SignsWith.kept {sk : dir.schnorr.SecretKey}
    (h : Relation.ReflTransGen (DirectoryChange dir admitted) d d')
    (hsk : d.SignsWith dir.schnorr.toSecretKeys sk) :
    d'.SignsWith dir.schnorr.toSecretKeys sk := by
  induction h with
  | refl => exact hsk
  | tail _ hchange ih =>
    obtain ⟨out, hrow, hout⟩ := ih
    exact ⟨out, by rw [hchange.secrets.1 out hrow, hrow], hout⟩

/-- The pepper stays as it is. -/
theorem pepper_kept {pepper : Bytes32}
    (h : Relation.ReflTransGen (DirectoryChange dir admitted) d d')
    (hpepper : readBytes32 d.pepper = some pepper) : readBytes32 d'.pepper = some pepper := by
  induction h with
  | refl => exact hpepper
  | tail _ hchange ih => rw [hchange.secrets.2 pepper ih, ih]

end Lasting

/-! ## Replies -/

section Replies

/-- The clue key and its version that belong to a payment key. -/
inductive DirectoryRows.Answers (env : DirectoryEnv) (d : DirectoryRows) (pk : Bytes32) :
    Bytes → ℕ → Prop
  | entry (version : ℕ) (proof clue : Bytes) : d.entry pk = some (version, proof, clue) →
      Answers env d pk clue version
  | decoy (pepper : Bytes32) : d.entry pk = none → env.fheOmr = true →
      readBytes32 d.pepper = some pepper →
      Answers env d pk (decoyCluePublicKey env pk pepper) decoyKeyVersion
  | hash : d.entry pk = none → env.fheOmr = false → Answers env d pk (env.blake3 pk.1).1 1

variable {env : DirectoryEnv} {s s' : Cache} {pk : Bytes32}

/-- A directory answers a payment key in one way. -/
theorem DirectoryRows.Answers.unique {d : DirectoryRows} {clue clue' : Bytes} {version version' : ℕ}
    (h : d.Answers env pk clue version) (h' : d.Answers env pk clue' version') :
    clue = clue' ∧ version = version' := by
  cases h with
  | entry _ proof _ hentry => cases h' <;> simp_all
  | decoy pepper hentry hfhe hpepper => cases h' <;> simp_all
  | hash hentry hfhe => cases h' <;> simp_all

/-- A lookup answers from the directory that it leaves: a decoy's pepper stays. -/
theorem lookupCluePublicKey_answers {draws : ℕ → Bytes32} {clue : Bytes} {version : ℕ}
    (h : (lookupCluePublicKey env draws pk).run s = (.ok (clue, version), s')) :
    s'.directory.Answers env pk clue version ∧ s'.directory.entry pk = s.directory.entry pk := by
  obtain ⟨entry, s₁, hentry, h⟩ := Prog.run_bind_eq_ok h
  obtain ⟨rfl, rfl⟩ : s.directory.entry pk = entry ∧ s = s₁ := by
    rw [Prog.run_mapError] at hentry
    cases hentry
    exact ⟨rfl, rfl⟩
  cases hfound : s.directory.entry pk with
  | some entry =>
    rw [hfound] at h
    cases h
    exact ⟨.entry entry.1 entry.2.1 _ hfound, hfound⟩
  | none =>
    rw [hfound] at h
    dsimp only at h
    cases hfhe : env.fheOmr with
    | false =>
      rw [hfhe] at h
      cases h
      exact ⟨.hash hfound hfhe, hfound⟩
    | true =>
      rw [hfhe, if_pos rfl] at h
      obtain ⟨pepper, s₁, hpepper, h⟩ := Prog.run_bind_eq_ok h
      cases h
      have hrun := run_mapError_eq_ok hpepper
      rw [getOrCreateClueDirPepper_outcome] at hrun
      cases hrow : readBytes32 s.db.server.clueDirPepper with
      | some out =>
        rw [hrow] at hrun
        cases hrun
        exact ⟨.decoy pepper hfound hfhe hrow, hfound⟩
      | none =>
        rw [hrow] at hrun
        cases hrun
        exact ⟨.decoy _ hfound hfhe (readBytes32_some _), hfound⟩

/-- A key that was read or drawn is the key from then on. -/
theorem signsWith_of_run {keys : SecretKeys} {draws : List Bytes32} {sk : keys.SecretKey}
    (h : (getOrCreateDirectoryAttestSecret keys draws).run s = (.ok sk, s')) :
    s'.directory.SignsWith keys sk ∧ s'.directory.entry = s.directory.entry := by
  rw [attestSecret_outcome] at h
  cases hrow : readBytes32 s.db.server.attest with
  | some out =>
    rw [hrow] at h
    dsimp only at h
    cases hout : keys.fromBytes out with
    | error e =>
      rw [hout] at h
      cases h
    | ok sk' =>
      rw [hout] at h
      cases h
      exact ⟨⟨out, hrow, hout⟩, rfl⟩
  | none =>
    rw [hrow] at h
    dsimp only at h
    cases hdrawn : draws.findSome? fun bytes => (keys.fromBytes bytes).toOption with
    | none =>
      rw [hdrawn] at h
      cases h
    | some sk' =>
      rw [hdrawn] at h
      cases h
      exact ⟨⟨keys.toRepr sk, readBytes32_some _, keys.fromBytes_toRepr sk⟩, rfl⟩

/-- A lookup changes the secrets only. -/
theorem getCluePublicKey_changes {dir : AttestEnv} {allowed : Bool}
    {draws : LookupDraws dir.schnorr} {paymentPubkey : Bytes} {r : Except Status Proto.CluePublicKey}
    (h : (getCluePublicKey dir.toDirectoryEnv allowed draws paymentPubkey).run s = (r, s')) :
    Relation.ReflTransGen (DirectoryChange dir fun _ => False) s.directory s'.directory := by
  have hevolves := @getCluePublicKey_evolves dir (fun _ => False) allowed draws paymentPubkey s
  rwa [Prog.exec, h] at hevolves

/-- What a successful lookup has done: the key that signs, the answer and the padded proof. -/
theorem getCluePublicKey_ok {dir : AttestEnv} {allowed : Bool} {draws : LookupDraws dir.schnorr}
    {reply : Proto.CluePublicKey}
    (h : (getCluePublicKey dir.toDirectoryEnv allowed draws pk.1).run s = (.ok reply, s')) :
    ∃ sk, s'.directory.SignsWith dir.schnorr.toSecretKeys sk ∧
      s'.directory.Answers dir.toDirectoryEnv pk reply.cluePublicKey reply.keyVersion ∧
      s'.directory.entry pk = s.directory.entry pk ∧
      padOwnershipProof (signDirectoryAttestation dir.schnorr sk dir.networkByte reply.keyVersion pk
        reply.cluePublicKey draws.sign) = .ok reply.ownershipProof := by
  obtain ⟨-, -, h⟩ := run_bind_liftStatus_eq_ok h
  obtain ⟨pk', hpk, h⟩ := run_bind_liftStatus_eq_ok h
  obtain rfl : pk = pk' := by
    rw [readPaymentPubkey, dif_pos pk.2] at hpk
    exact Except.ok.inj hpk
  obtain ⟨sk, s₁, hsk, h⟩ := Prog.run_bind_eq_ok h
  obtain ⟨⟨clue, version⟩, s₂, hlookup, h⟩ := Prog.run_bind_eq_ok h
  obtain ⟨proof, hpadded, h⟩ := run_bind_liftStatus_eq_ok h
  obtain ⟨rfl, rfl⟩ : (⟨true, clue, proof, version⟩ : Proto.CluePublicKey) = reply ∧ s₂ = s' := by
    cases h
    exact ⟨rfl, rfl⟩
  have hpad : padOwnershipProof (signDirectoryAttestation dir.schnorr sk dir.networkByte version pk
      clue draws.sign) = .ok proof := by
    cases hp : padOwnershipProof (signDirectoryAttestation dir.schnorr sk dir.networkByte version pk
      clue draws.sign) with
    | error e =>
      rw [hp] at hpadded
      cases hpadded
    | ok wire =>
      rw [hp] at hpadded
      exact congrArg Except.ok (Except.ok.inj hpadded)
  obtain ⟨hsigns, hentry⟩ := signsWith_of_run (run_mapError_eq_ok hsk)
  obtain ⟨hanswers, hsame⟩ := lookupCluePublicKey_answers hlookup
  have hlookup' : s₂ = (lookupCluePublicKey dir.toDirectoryEnv draws.pepper pk).exec s₁ := by
    rw [Prog.exec, hlookup]
  have hchanges := @lookupCluePublicKey_evolves dir (fun _ => False) draws.pepper pk s₁
  rw [← hlookup'] at hchanges
  exact ⟨sk, hsigns.kept hchanges, hanswers, hsame.trans (congrFun hentry pk), hpad⟩

end Replies

/-! ## The published key -/

section Published

/-- What is relied on of the signatures: keys and signatures are read back from their bytes, and
a signature verifies under the public key of its secret key. -/
structure SoundSignatures (dir : AttestEnv) : Prop where
  publicKey : ∀ sk, dir.schnorr.publicKeyFromBytes (dir.publicToBytes (dir.publicFromSecret sk)) =
    .ok (dir.publicFromSecret sk)
  signature : ∀ sig, dir.schnorr.deserialize (dir.schnorr.serialize sig) = .ok sig
  nonempty : ∀ sig, dir.schnorr.serialize sig ≠ []
  verifies : ∀ sk message draw, dir.schnorr.verify (dir.publicFromSecret sk) message
    (dir.schnorr.sign sk message draw) = true

/-- A padded proof is unpadded. -/
theorem unpad_pad {proof wire : Bytes} (hproof : proof ≠ [])
    (h : padOwnershipProof proof = .ok wire) : unpadOwnershipProof wire = .ok proof := by
  unfold padOwnershipProof at h
  split_ifs at h with hlong
  cases h
  have hlen : ownershipProofWireLen = 128 := rfl
  have hpos : 0 < proof.length := List.length_pos_of_ne_nil hproof
  have hhead : leValue ((leBytes 2 proof.length ++ proof ++
      List.replicate (ownershipProofWireLen - 2 - proof.length) 0).take 2) = proof.length := by
    rw [List.append_assoc, List.take_left' (by simp), leValue_leBytes_of_lt (by omega)]
  have hbody : (leBytes 2 proof.length ++ proof ++
      List.replicate (ownershipProofWireLen - 2 - proof.length) 0).drop 2 =
        proof ++ List.replicate (ownershipProofWireLen - 2 - proof.length) 0 := by
    rw [List.append_assoc, List.drop_left' (by simp)]
  unfold unpadOwnershipProof
  simp only [hhead, hbody, List.take_left]
  simp only [List.length_append, length_leBytes, List.length_replicate]
  rw [if_neg (by omega), if_neg (by omega)]

/-- What the server signs is accepted under its public key. -/
theorem verifyDirectoryAttestation_sign {dir : AttestEnv} (hdir : SoundSignatures dir)
    {sk : dir.schnorr.SecretKey} {keyVersion : ℕ} {pk : Bytes32} {cluePublicKey wire : Bytes}
    {draw : dir.schnorr.Random}
    (h : padOwnershipProof (signDirectoryAttestation dir.schnorr sk dir.networkByte keyVersion pk
      cluePublicKey draw) = .ok wire) :
    verifyDirectoryAttestation dir.schnorr (dir.publicToBytes (dir.publicFromSecret sk)).1
      dir.networkByte keyVersion pk cluePublicKey wire = .ok () := by
  have hlen := length_of_padOwnershipProof h
  have hunpad := unpad_pad (hdir.nonempty _) h
  unfold verifyDirectoryAttestation
  rw [dif_pos (dir.publicToBytes (dir.publicFromSecret sk)).2, if_neg (by simp [hlen]), hunpad]
  simp [hdir.publicKey, hdir.signature, hdir.verifies]

variable {env : SendEnv} {dir : AttestEnv} {rules : ServerRules env dir} {s s₁ s₂ s₃ : Cache}

/-- Under a key that the server has published, all its later replies verify: the key outlasts
polls, requests and restarts. -/
theorem published_key_verifies (hdir : SoundSignatures dir) {drawn : List Bytes32} {key : Bytes32}
    (hpublished : (directoryAttestPublicKey dir drawn).run s = (.ok key, s₁))
    (hsteps : Relation.ReflTransGen (ServerStep rules) s₁ s₂) {allowed : Bool}
    {draws : LookupDraws dir.schnorr} {pk : Bytes32} {reply : Proto.CluePublicKey}
    (hreply : (getCluePublicKey dir.toDirectoryEnv allowed draws pk.1).run s₂ = (.ok reply, s₃)) :
    verifyDirectoryAttestation dir.schnorr key.1 dir.networkByte reply.keyVersion pk
      reply.cluePublicKey reply.ownershipProof = .ok () := by
  obtain ⟨sk, s', hsk, hkey⟩ := Prog.run_bind_eq_ok hpublished
  cases hkey
  have hsigns := (signsWith_of_run hsk).1.kept (directory_changes hsteps)
  obtain ⟨sk', hsk', -, -, hpad⟩ := getCluePublicKey_ok hreply
  obtain rfl : sk = sk' := (hsigns.kept (getCluePublicKey_changes hreply)).unique hsk'
  exact verifyDirectoryAttestation_sign hdir hpad

/-- A version of 64 bits that does not look like the tag of older rows. -/
def Proto.CluePublicKeyRegistration.Readable (req : Proto.CluePublicKeyRegistration) : Prop :=
  req.keyVersion < 256 ^ 8 ∧ ¬ TaggedVersion req.keyVersion

/-! ### A server that published its key -/

/-- The server publishes its key. -/
def publishedServer : Cache := (directoryAttestPublicKey plainAttest [Bytes32.fill 3]).exec .initial

/-- It follows a reorg, and a payment key is registered. -/
def registeredServer : Cache :=
  (registerCluePublicKey plainAttest.toDirectoryEnv true (plainRegistration 32)).exec
    ((pollLoop .default forkedTurns .start).exec publishedServer)

/-- Only this registration is let through. -/
def oneRegistration : ServerRules anySend plainAttest where
  loop _ _ _ := True
  request req := ∀ allowed r, req = .registerKey allowed r → r = plainRegistration 32

/-- The only admitted registration is of a 32-byte key. -/
theorem registers_oneRegistration {req : Proto.CluePublicKeyRegistration}
    (h : oneRegistration.Registers req) : req = plainRegistration 32 := by
  obtain ⟨allowed, hreq⟩ := h
  exact hreq allowed req rfl

/-- Its version is stored so that it is read back. -/
theorem readable_oneRegistration : ∀ req, oneRegistration.Registers req → req.Readable := by
  intro req hreq
  rw [registers_oneRegistration hreq]
  exact ⟨by decide, by decide⟩

/-- The lookup creates the pepper and the attest key. -/
theorem steps_published :
    Relation.ReflTransGen (ServerStep oneRegistration) .initial publishedServer :=
  .single (.asked (.publishedKey [Bytes32.fill 3]) _ nofun)

/-- The registration is a step of the server. -/
theorem steps_registered :
    Relation.ReflTransGen (ServerStep oneRegistration) publishedServer registeredServer := by
  refine .tail (.single (.polled .default forkedTurns .start _ trivial)) ?_
  refine .asked (.registerKey true (plainRegistration 32)) _ fun allowed r hr => ?_
  cases hr
  rfl

/-- The reply with the clue key `clue`, under version 1. -/
def plainReply (clue : Bytes) : Proto.CluePublicKey :=
  ⟨true, clue, [64, 0] ++ List.replicate 64 3 ++ List.replicate 62 0, 1⟩

/-- The lookup before the registration returns the first key. -/
theorem run_publishedServer :
    (getCluePublicKey plainAttest.toDirectoryEnv true plainDraws (Bytes32.fill 1).1).run
      publishedServer = (.ok (plainReply (List.replicate 32 9)), publishedServer) := by
  rfl

/-- The lookup after it returns the registered key. -/
theorem run_registeredServer :
    (getCluePublicKey plainAttest.toDirectoryEnv true plainDraws (Bytes32.fill 1).1).run
      registeredServer = (.ok (plainReply (List.replicate 32 5)), registeredServer) := by
  rfl

/-- The plain signatures are sound. -/
theorem soundSignatures_plain : SoundSignatures plainAttest where
  publicKey _ := rfl
  signature sig := by
    have htake : (sig.1 ++ sig.1).take 32 = sig.1 := List.take_left' sig.2
    show (if h : ((sig.1 ++ sig.1).take 32).length = 32 then
      Except.ok (⟨(sig.1 ++ sig.1).take 32, h⟩ : Bytes32) else _) = _
    rw [dif_pos (by rw [htake, sig.2])]
    exact congrArg Except.ok (Subtype.ext htake)
  nonempty sig hnil := by
    have hlen := congrArg List.length hnil
    simp [plainAttest, defaultBuild, plainSchnorr, sig.2] at hlen
  verifies sk message draw := by
    show decide (fieldKeys.toRepr sk = fieldKeys.toRepr sk) = true
    simp

/-- The reply of the server above after the registration. -/
theorem published_key_verifies_registered :
    verifyDirectoryAttestation plainAttest.schnorr (Bytes32.fill 3).1 plainAttest.networkByte
      (plainReply (List.replicate 32 5)).keyVersion (Bytes32.fill 1)
      (plainReply (List.replicate 32 5)).cluePublicKey
      (plainReply (List.replicate 32 5)).ownershipProof = .ok () := by
  have hpublished : (directoryAttestPublicKey plainAttest [Bytes32.fill 3]).run .initial =
      (.ok (Bytes32.fill 3), publishedServer) := Prod.ext (by decide +kernel) rfl
  exact published_key_verifies soundSignatures_plain hpublished steps_registered
    run_registeredServer

end Published

/-! ## Replies for one payment key -/

section Consistent

/-- How the entry of a payment key goes on: its version never goes down, and a version keeps its
clue key. -/
structure EntryFollows (old new : Option (ℕ × Bytes × Bytes)) : Prop where
  kept : ∀ e, old = some e → ∃ e', new = some e' ∧ e.1 ≤ e'.1 ∧ (e.1 = e'.1 → e.2.2 = e'.2.2)
  positive : old = none → ∀ e', new = some e' → 1 ≤ e'.1

/-- An entry follows itself. -/
theorem EntryFollows.refl (entry : Option (ℕ × Bytes × Bytes)) : EntryFollows entry entry where
  kept e he := ⟨e, he, le_rfl, fun _ => rfl⟩
  positive hnone e' he' := by simp [hnone] at he'

/-- Entries follow each other along a run. -/
theorem EntryFollows.trans {a b c : Option (ℕ × Bytes × Bytes)} (hab : EntryFollows a b)
    (hbc : EntryFollows b c) : EntryFollows a c where
  kept e he := by
    obtain ⟨e', he', hle, hkey⟩ := hab.kept e he
    obtain ⟨e'', he'', hle', hkey'⟩ := hbc.kept e' he'
    refine ⟨e'', he'', hle.trans hle', fun heq => ?_⟩
    have hmid : e.1 = e'.1 := le_antisymm hle (heq ▸ hle')
    exact (hkey hmid).trans (hkey' (hmid ▸ heq))
  positive hnone e'' he'' := by
    cases hb : b with
    | none => exact hbc.positive hb e'' he''
    | some e' =>
      obtain ⟨e₂, he₂, hle, -⟩ := hbc.kept e' hb
      rw [he''] at he₂
      cases he₂
      exact (hab.positive hnone e' hb).trans hle

variable {dir : AttestEnv} {admitted : Proto.CluePublicKeyRegistration → Prop}
  {d d' : DirectoryRows}

/-- An admitted registration is read back, and continues the entry. -/
theorem EntryFollows.of_admitted {entry : Option (ℕ × Bytes × Bytes)}
    {req : Proto.CluePublicKeyRegistration} (hreadable : req.Readable)
    (h : KeyCall.Admitted entry ⟨req.cluePublicKey, req.keyVersion, req.ownershipProof⟩) :
    parseCluePubkeyValue (encodeCluePubkeyValue req.keyVersion req.ownershipProof
        req.cluePublicKey) = some (req.keyVersion, req.ownershipProof, req.cluePublicKey) ∧
      EntryFollows entry (some (req.keyVersion, req.ownershipProof, req.cluePublicKey)) := by
  obtain ⟨hcheck, hrule⟩ := h
  obtain ⟨hclue, hproof, hlen⟩ := sizes_of_checkClueRegistration hcheck
  refine ⟨parse_encode hreadable.1 hproof hlen hclue hreadable.2, fun e he => ?_,
    fun _ e' he' => ?_⟩
  · exact ⟨_, rfl, hrule e he⟩
  · cases he'
    by_contra hzero
    have hzero' : req.keyVersion = 0 := by simpa using hzero
    unfold checkClueRegistration at hcheck
    simp [hzero'] at hcheck
    split_ifs at hcheck

/-- A step replaces an entry by one that follows it. -/
theorem DirectoryChange.follows (h : DirectoryChange dir admitted d d') (hd : d.Settled)
    (hreadable : ∀ req, admitted req → req.Readable) (pk : Bytes32) :
    EntryFollows (d.entry pk) (d'.entry pk) := by
  rcases h.entry hd pk with hsame | ⟨req, hreq, -, -, hadmitted, hentry⟩
  · rw [hsame]
    exact .refl _
  · obtain ⟨hread, hfollows⟩ := EntryFollows.of_admitted (hreadable req hreq) hadmitted
    rwa [hentry, hread]

/-- So do any number of steps. -/
theorem follows_of_changes (h : Relation.ReflTransGen (DirectoryChange dir admitted) d d')
    (hd : d.Settled) (hreadable : ∀ req, admitted req → req.Readable) (pk : Bytes32) :
    EntryFollows (d.entry pk) (d'.entry pk) := by
  induction h with
  | refl => exact .refl _
  | tail hfirst hchange ih =>
    exact ih.trans (hchange.follows (settled_of_changes hfirst hd) hreadable pk)

/-- An entry no admitted registration is for stays as it is. -/
theorem entry_of_changes (h : Relation.ReflTransGen (DirectoryChange dir admitted) d d')
    (hd : d.Settled) {pk : Bytes32} (hother : ∀ req, admitted req → req.paymentPubkey ≠ pk.1) :
    d'.entry pk = d.entry pk := by
  induction h with
  | refl => rfl
  | tail hfirst hchange ih =>
    rcases hchange.entry (settled_of_changes hfirst hd) pk with hsame | ⟨req, hreq, hpk, -⟩
    · rw [hsame, ih]
    · exact absurd hpk (hother req hreq)

/-- Without a registration for the payment key its answer stays. -/
theorem DirectoryRows.Answers.kept {pk : Bytes32} {clue : Bytes} {version : ℕ}
    (hanswer : d.Answers dir.toDirectoryEnv pk clue version)
    (h : Relation.ReflTransGen (DirectoryChange dir admitted) d d') (hd : d.Settled)
    (hother : ∀ req, admitted req → req.paymentPubkey ≠ pk.1) :
    d'.Answers dir.toDirectoryEnv pk clue version := by
  have hentry := entry_of_changes h hd hother
  cases hanswer with
  | entry version proof clue hfound => exact .entry version proof clue (hentry.trans hfound)
  | decoy pepper hnone hfhe hpepper =>
    exact .decoy pepper (hentry.trans hnone) hfhe (pepper_kept h hpepper)
  | hash hnone hfhe => exact .hash (hentry.trans hnone) hfhe

/-- The answers follow the entries. -/
theorem DirectoryRows.Answers.ordered {pk : Bytes32} {clue clue' : Bytes} {version version' : ℕ}
    (h : d.Answers dir.toDirectoryEnv pk clue version)
    (h' : d'.Answers dir.toDirectoryEnv pk clue' version')
    (hfollows : EntryFollows (d.entry pk) (d'.entry pk)) :
    version ≤ version' ∧ (d.entry pk ≠ none → version = version' → clue = clue') := by
  cases h with
  | entry version proof clue hfound =>
    obtain ⟨⟨v, p, c⟩, hfound', hle, hkey⟩ := hfollows.kept _ hfound
    obtain ⟨rfl, rfl⟩ := h'.unique (.entry v p c hfound')
    exact ⟨hle, fun _ => hkey⟩
  | decoy pepper hnone hfhe hpepper =>
    refine ⟨?_, fun hsome => absurd hnone hsome⟩
    cases h' with
    | entry v p c hfound' => exact hfollows.positive hnone _ hfound'
    | decoy => exact le_rfl
    | hash => exact le_rfl
  | hash hnone hfhe =>
    refine ⟨?_, fun hsome => absurd hnone hsome⟩
    cases h' with
    | entry v p c hfound' => exact hfollows.positive hnone _ hfound'
    | decoy => exact le_rfl
    | hash => exact le_rfl

variable {env : SendEnv} {before rules : ServerRules env dir} {now : ℕ} {db : Db}
  {s₀ s s₁ s₂ s₃ : Cache}

/-- Every server life begins and goes on with a settled directory. -/
theorem settled_of_new (hnew : Cache.new now db = .ok s₀)
    (hsteps : Relation.ReflTransGen (ServerStep rules) s₀ s) : s.directory.Settled := by
  refine settled_of_changes (directory_changes hsteps) ?_
  rw [new_directory hnew]
  exact DirectoryRows.settled_retired _

/-- The replies for a payment key never go back: a later one has a later version, or the same
clue key unless the first was a decoy. Until the payment key is registered they are the same. -/
theorem lookups_consistent (hnew : Cache.new now db = .ok s₀)
    (hbefore : Relation.ReflTransGen (ServerStep before) s₀ s)
    {allowed allowed' : Bool} {draws draws' : LookupDraws dir.schnorr} {pk : Bytes32}
    {reply reply' : Proto.CluePublicKey}
    (hfirst : (getCluePublicKey dir.toDirectoryEnv allowed draws pk.1).run s = (.ok reply, s₁))
    (hbetween : Relation.ReflTransGen (ServerStep rules) s₁ s₂)
    (hreadable : ∀ req, rules.Registers req → req.Readable)
    (hsecond : (getCluePublicKey dir.toDirectoryEnv allowed' draws' pk.1).run s₂ =
      (.ok reply', s₃)) :
    reply.keyVersion ≤ reply'.keyVersion ∧
      ((getCluePublicKeyEntry pk).run s ≠ (.ok none, s) → reply.keyVersion = reply'.keyVersion →
        reply.cluePublicKey = reply'.cluePublicKey) ∧
      ((∀ req, rules.Registers req → req.paymentPubkey ≠ pk.1) →
        reply.cluePublicKey = reply'.cluePublicKey ∧ reply.keyVersion = reply'.keyVersion) := by
  have hsettled := settled_of_changes (getCluePublicKey_changes hfirst)
    (settled_of_new hnew hbefore)
  have hchanges := directory_changes hbetween
  have hsettled' := settled_of_changes hchanges hsettled
  obtain ⟨-, -, hanswer, hentry, -⟩ := getCluePublicKey_ok hfirst
  obtain ⟨-, -, hanswer', hentry', -⟩ := getCluePublicKey_ok hsecond
  have hfollows := follows_of_changes hchanges hsettled hreadable pk
  rw [← hentry'] at hfollows
  obtain ⟨hle, hkey⟩ := hanswer.ordered hanswer' hfollows
  refine ⟨hle, fun hregistered => hkey ?_, fun hother => ?_⟩
  · intro hnone
    rw [hentry] at hnone
    exact hregistered (congrArg (fun entry => (Except.ok entry, s)) hnone)
  · have hlast := (hanswer.kept hchanges hsettled hother).kept (getCluePublicKey_changes hsecond)
      hsettled' nofun
    exact hlast.unique hanswer'

/-- A decoy, and the clue key that was registered then. -/
theorem lookups_consistent_registered :
    (plainReply (List.replicate 32 9)).keyVersion ≤ (plainReply (List.replicate 32 5)).keyVersion ∧
      ((getCluePublicKeyEntry (Bytes32.fill 1)).run publishedServer ≠ (.ok none, publishedServer) →
        (plainReply (List.replicate 32 9)).keyVersion =
            (plainReply (List.replicate 32 5)).keyVersion →
          (plainReply (List.replicate 32 9)).cluePublicKey =
            (plainReply (List.replicate 32 5)).cluePublicKey) ∧
      ((∀ req, oneRegistration.Registers req → req.paymentPubkey ≠ (Bytes32.fill 1).1) →
        (plainReply (List.replicate 32 9)).cluePublicKey =
            (plainReply (List.replicate 32 5)).cluePublicKey ∧
          (plainReply (List.replicate 32 9)).keyVersion =
            (plainReply (List.replicate 32 5)).keyVersion) :=
  lookups_consistent new_initial steps_published run_publishedServer steps_registered
    readable_oneRegistration run_registeredServer

end Consistent

/-! ## Who registered -/

section Owned

variable {dir : AttestEnv} {admitted : Proto.CluePublicKeyRegistration → Prop}
  {d d' : DirectoryRows}

/-- Every entry is that of an admitted registration, signed by the holder of its payment key. -/
def DirectoryRows.Owned (dir : AttestEnv) (admitted : Proto.CluePublicKeyRegistration → Prop)
    (d : DirectoryRows) : Prop :=
  ∀ pk e, d.entry pk = some e → ∃ req, admitted req ∧ req.paymentPubkey = pk.1 ∧
    e = (req.keyVersion, req.ownershipProof, req.cluePublicKey) ∧
    verifyCluePkOwnership dir.schnorr dir.networkByte req.keyVersion pk req.cluePublicKey
      req.ownershipProof = .ok ()

/-- Every entry stays one that its owner registered. -/
theorem owned_of_changes (h : Relation.ReflTransGen (DirectoryChange dir admitted) d d')
    (hd : d.Settled) (hreadable : ∀ req, admitted req → req.Readable)
    (howned : d.Owned dir admitted) : d'.Owned dir admitted := by
  induction h with
  | refl => exact howned
  | tail hfirst hchange ih =>
    intro pk e he
    rcases hchange.entry (settled_of_changes hfirst hd) pk with
      hsame | ⟨req, hreq, hpk, hverify, hadmitted, hentry⟩
    · exact ih pk e (hsame.symm.trans he)
    · rw [hentry, (EntryFollows.of_admitted (hreadable req hreq) hadmitted).1] at he
      cases he
      exact ⟨req, hreq, hpk, rfl, hverify⟩

variable {env : SendEnv} {rules : ServerRules env dir} {now : ℕ} {s₀ s s₁ : Cache}

end Owned

end LightWalletd
