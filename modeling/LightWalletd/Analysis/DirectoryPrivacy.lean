import LightWalletd.Analysis.ClueWire
import LightWalletd.Analysis.DirectoryContract
import LightWalletd.Analysis.LastingSecrets
import LightWalletd.Model.DirectoryHandlers

/-!
# Registrations and lookups

Two lookups of one payment key are compared, before and after it was registered. What the
server answers has the same shape when it is built with `fhe-omr`, since a registered clue key
then has the wire form of a decoy. Without that feature any clue key is taken, and the decoy is
a hash of 32 bytes.
-/

set_option autoImplicit false

namespace LightWalletd

open Stateful

/-! ## Lengths -/

section Lengths

variable (env : DirectoryEnv)

/-- SOURCE: unifomr.rs:545-547 -/
def cluePublicKeyWireLen : ℕ := 4 + 16 * clueN

/-- A clue public key that is read is made of the words behind its header. -/
theorem deserializePublicKey_eq_ok {bytes : Bytes} {pk : RlwePublicKey}
    (h : deserializePublicKey bytes = .ok pk) : bytes.length = cluePublicKeyWireLen ∧
      pk = ⟨readWords clueN (bytes.drop 4), readWords clueN (bytes.drop (4 + 8 * clueN))⟩ := by
  unfold deserializePublicKey at h
  dsimp only at h
  by_cases hshort : bytes.length < 4
  · rw [if_pos hshort] at h
    cases h
  rw [if_neg hshort] at h
  by_cases hheader : bytes.getD 0 0 ≠ clueVersion ∨ bytes.getD 1 0 ≠ schemeUnifomr
  · rw [if_pos hheader] at h
    cases h
  rw [if_neg hheader] at h
  by_cases hn : leValue ((bytes.drop 2).take 2) = clueN
  · rw [if_neg (not_not.mpr hn), hn] at h
    by_cases hlen : bytes.length = 4 + 16 * clueN
    · rw [if_neg (not_not.mpr hlen)] at h
      cases h
      exact ⟨hlen, rfl⟩
    · rw [if_pos hlen] at h
      cases h
  · rw [if_pos hn] at h
    cases h

/-- A clue key that is decoded has the length of the wire format. -/
theorem length_of_deserializePublicKey {bytes : Bytes} {pk : RlwePublicKey}
    (h : deserializePublicKey bytes = .ok pk) : bytes.length = cluePublicKeyWireLen :=
  (deserializePublicKey_eq_ok h).1

/-- The length of a serialised clue key. -/
theorem length_serializePublicKey (pk : RlwePublicKey) :
    (serializePublicKey pk).length = 4 + 8 * pk.a.length + 8 * pk.b.length := by
  unfold serializePublicKey
  simp only [List.length_append, length_flatMap_words, length_leBytes, List.length_cons,
    List.length_nil]

/-- `n` draws give `n` values. -/
theorem length_draws {α : Type} (rng : SeededRng) (next : rng.Rng → α × rng.Rng) (n : ℕ)
    (r : rng.Rng) : (rng.draws next n r).1.length = n := by
  induction n generalizing r with
  | zero => rfl
  | succ n ih => exact congrArg (· + 1) (ih _)

/-- A decoy has the length of a clue key. -/
theorem length_decoyCluePublicKey (pk pepper : Bytes32) :
    (decoyCluePublicKey env pk pepper).length = cluePublicKeyWireLen := by
  unfold decoyCluePublicKey
  rw [length_serializePublicKey]
  unfold SeededRng.publicFromSecret cluePublicKeyWireLen
  simp only [List.length_map, List.length_range, length_draws]
  omega

/-- A padded proof has the length of the wire format. -/
theorem length_of_padOwnershipProof {proof wire : Bytes} (h : padOwnershipProof proof = .ok wire) :
    wire.length = ownershipProofWireLen := by
  unfold padOwnershipProof at h
  split_ifs at h with hlong
  cases h
  simp only [List.length_append, length_leBytes, List.length_replicate]
  have hlen : ownershipProofWireLen = 128 := rfl
  omega

/-- Whether a proof can be padded depends on its length only. -/
theorem isOk_padOwnershipProof {proof proof' : Bytes} (h : proof.length = proof'.length) :
    (padOwnershipProof proof).isOk = (padOwnershipProof proof').isOk := by
  unfold padOwnershipProof
  rw [h]
  by_cases hlong : ownershipProofWireLen - 2 < proof'.length
  · simp only [if_pos hlong]
  · simp only [if_neg hlong]
    rfl

end Lengths

/-! ## Registering -/

section Register

variable {env : DirectoryEnv} {allowed : Bool} {req : Proto.CluePublicKeyRegistration} {s s' : Cache}

/-- Renaming errors does not touch success. -/
theorem run_mapError_eq_ok {ε ε' α : Type} {g : ε → ε'} {p : Prog ε Cache α} {a : α}
    (h : (p.mapError g).run s = (.ok a, s')) : p.run s = (.ok a, s') := by
  rw [Prog.run_mapError] at h
  rcases hp : p.run s with ⟨r, s₁⟩
  rw [hp] at h
  cases r with
  | error e => cases h
  | ok b =>
    cases h
    rfl

/-- An accepted registration names a payment key, has a clue key that the build takes, and is
stored. -/
theorem registerCluePublicKey_ok (h : (registerCluePublicKey env allowed req).run s = (.ok (), s')) :
    ∃ pk : Bytes32, req.paymentPubkey = pk.1 ∧ checkCluePublicKey env.fheOmr req.cluePublicKey = .ok () ∧
      (storeCluePublicKey pk req.cluePublicKey req.keyVersion req.ownershipProof).run s =
        (.ok (), s') := by
  obtain ⟨-, -, h⟩ := run_bind_liftStatus_eq_ok h
  obtain ⟨pk, hpk, h⟩ := run_bind_liftStatus_eq_ok h
  have hlen : req.paymentPubkey = pk.1 := by
    unfold readPaymentPubkey at hpk
    split_ifs at hpk
    cases hpk
    rfl
  by_cases hclue : req.cluePublicKey.isEmpty
  · rw [if_pos hclue] at h
    cases h
  rw [if_neg hclue] at h
  by_cases hproof : req.ownershipProof.isEmpty
  · rw [if_pos hproof] at h
    cases h
  rw [if_neg hproof] at h
  obtain ⟨-, -, h⟩ := run_bind_liftStatus_eq_ok h
  obtain ⟨_, hcheck, h⟩ := run_bind_liftStatus_eq_ok h
  exact ⟨pk, hlen, hcheck, run_mapError_eq_ok h⟩

/-- The clue keys that a build with `fhe-omr` takes have the length of a decoy. -/
theorem length_of_checkCluePublicKey {cluePublicKey : Bytes}
    (h : checkCluePublicKey true cluePublicKey = .ok ()) :
    cluePublicKey.length = cluePublicKeyWireLen := by
  unfold checkCluePublicKey at h
  rw [if_pos rfl] at h
  cases hpk : deserializePublicKey cluePublicKey with
  | error e =>
    rw [hpk] at h
    cases h
  | ok pk => exact length_of_deserializePublicKey hpk

/-- After the first registration of a payment key, under version 1, its entry is found, and
nothing but the directory has changed. -/
theorem directoryEntry_of_registered {pk : Bytes32} {cluePk proof : Bytes}
    (hnone : directoryEntry pk s = .ok none)
    (h : (storeCluePublicKey pk cluePk 1 proof).run s = (.ok (), s')) :
    directoryEntry pk s' = .ok (some (1, proof, cluePk)) ∧ s'.db.server = s.db.server := by
  obtain ⟨hadm, hrun⟩ | ⟨-, e, hrun⟩ := store_run (c := ⟨cluePk, 1, proof⟩) hnone
  · unfold KeyCall.store at hrun
    rw [h] at hrun
    obtain ⟨hclue, hproof, hlen⟩ := sizes_of_checkClueRegistration hadm.1
    cases hrun
    refine ⟨?_, rfl⟩
    have hversion : (1 : ℕ) < 256 ^ 8 := by decide
    have huntagged : ¬ TaggedVersion 1 := by decide
    rw [directoryEntry_insert, parse_encode hversion hproof hlen hclue huntagged]
  · unfold KeyCall.store at hrun
    rw [h] at hrun
    cases hrun

end Register

/-! ## Looking up -/

section Lookup

variable {env : DirectoryEnv} {s s' : Cache}

/-- The attestation key is that of the metadata tree, whatever the directory holds. -/
theorem attestSecret_outcome (keys : SecretKeys) (draws : List Bytes32)
    (t : Cache) : (getOrCreateDirectoryAttestSecret keys draws).run t =
      match readBytes32 t.db.server.attest with
      | some out => match keys.fromBytes out with
        | .ok sk => (.ok sk, t)
        | .error e => (.error (.cacheError ("invalid directory attest secret: " ++ e)), t)
      | none => match draws.findSome? fun bytes => (keys.fromBytes bytes).toOption with
        | none => (.error .panicked, t)
        | some sk => (.ok sk, (metaAttest.insert (keys.toRepr sk).1).exec t) := by
  have hsel : metaAttest.sel t.db = t.db.server.attest := rfl
  unfold getOrCreateDirectoryAttestSecret
  rw [Prog.bind_eq, Prog.run_bind_of_ok (Cell.run_get _ _), hsel]
  cases readBytes32 t.db.server.attest with
  | some out =>
    cases hout : keys.fromBytes out with
    | ok sk => simp [hout]
    | error e => simp [hout]
  | none =>
    cases draws.findSome? fun bytes => (keys.fromBytes bytes).toOption with
    | none => rfl
    | some sk => rfl

/-- The attest call depends on the server's rows only. -/
theorem attestSecret_run (keys : SecretKeys) (draws : List Bytes32)
    (hserver : s'.db.server = s.db.server) :
    ((getOrCreateDirectoryAttestSecret keys draws).run s').1 =
        ((getOrCreateDirectoryAttestSecret keys draws).run s).1 ∧
      ∀ t : Cache, ((getOrCreateDirectoryAttestSecret keys draws).run t).2.db.omr = t.db.omr := by
  have hrun := attestSecret_outcome keys draws
  constructor
  · rw [hrun, hrun, hserver]
    cases readBytes32 s.db.server.attest with
    | some out => cases hout : keys.fromBytes out <;> simp [hout]
    | none => cases draws.findSome? fun bytes => (keys.fromBytes bytes).toOption <;> rfl
  · intro t
    rw [hrun]
    cases readBytes32 t.db.server.attest with
    | some out => cases hout : keys.fromBytes out <;> simp [hout]
    | none => cases draws.findSome? fun bytes => (keys.fromBytes bytes).toOption <;> rfl

/-- A lookup alone always gets a pepper. -/
theorem getOrCreateClueDirPepper_ok (fuel : ℕ) (draws : ℕ → Bytes32) (s : Cache) :
    ∃ v s₁, (getOrCreateClueDirPepper (fuel + 1) draws).run s = (.ok v, s₁) := by
  unfold getOrCreateClueDirPepper
  rw [Prog.bind_eq, Prog.run_bind_of_ok (Cell.run_get _ _)]
  cases readBytes32 (metaClueDirPepper.sel s.db) with
  | some out => exact ⟨out, s, rfl⟩
  | none =>
    -- nothing changes the row between the second read and the swap
    refine ⟨draws 0, { s with db := metaClueDirPepper.upd (some (draws 0).1) s.db }, ?_⟩
    simp [installPepper, Cell.compareAndSwap, Prog.run_bind]

/-- The length of a decoy. -/
def decoyLength (fheOmr : Bool) : ℕ := if fheOmr then cluePublicKeyWireLen else 32

/-- What a wallet sees of a reply besides its bytes: the flag, the version and the lengths. -/
def Proto.CluePublicKey.shape (reply : Proto.CluePublicKey) : Bool × ℕ × ℕ × ℕ :=
  (reply.found, reply.keyVersion, reply.cluePublicKey.length, reply.ownershipProof.length)

/-- The shape of the reply for an entry, and for a decoy. -/
def entryShape (fheOmr : Bool) : Option (ℕ × Bytes × Bytes) → Bool × ℕ × ℕ × ℕ
  | some (version, _, clue) => (true, version, clue.length, ownershipProofWireLen)
  | none => (true, decoyKeyVersion, decoyLength fheOmr, ownershipProofWireLen)

/-- A lookup finds the entry, or a decoy. -/
theorem lookupCluePublicKey_run (env : DirectoryEnv) (pepperDraws : ℕ → Bytes32) {pk : Bytes32}
    {entry : Option (ℕ × Bytes × Bytes)} (hentry : directoryEntry pk s = .ok entry) :
    ∃ clue version s₁, (lookupCluePublicKey env pepperDraws pk).run s = (.ok (clue, version), s₁) ∧
      (true, version, clue.length, ownershipProofWireLen) = entryShape env.fheOmr entry := by
  have hread : ((getCluePublicKeyEntry pk).mapError cacheStatus).run s = (.ok entry, s) := by
    apply Prog.run_mapError_of_ok
    rw [directoryEntry_eq] at hentry
    injection hentry with hentry
    rw [← hentry]
    rfl
  unfold lookupCluePublicKey
  rw [Prog.bind_eq, Prog.run_bind_of_ok hread]
  cases entry with
  | some entry => exact ⟨entry.2.2, entry.1, s, rfl, rfl⟩
  | none =>
    dsimp only
    cases hfhe : env.fheOmr with
    | false =>
      refine ⟨(env.blake3 pk.1).1, 1, s, rfl, ?_⟩
      rw [(env.blake3 pk.1).2]
      rfl
    | true =>
      obtain ⟨pepper, s₁, hpepper⟩ := getOrCreateClueDirPepper_ok 1 pepperDraws s
      refine ⟨decoyCluePublicKey env pk pepper, decoyKeyVersion, s₁, ?_, ?_⟩
      · rw [if_pos rfl, Prog.bind_eq, Prog.run_bind_of_ok (Prog.run_mapError_of_ok hpepper)]
        rfl
      · rw [length_decoyCluePublicKey]
        rfl

/-- The steps of a lookup: the limiter, the attestation key, the clue key and its signature. -/
theorem getCluePublicKey_run (allowed : Bool) (draws : LookupDraws env.schnorr) {pk : Bytes32}
    {entry : Option (ℕ × Bytes × Bytes)} (hentry : directoryEntry pk s = .ok entry) :
    (∃ e, ((getCluePublicKey env allowed draws pk.1).run s).1 = .error e ∧
      (allowed = false ∨ ∃ e', ((getOrCreateDirectoryAttestSecret env.schnorr.toSecretKeys
        draws.attest).run s).1 = .error e')) ∨
    ∃ sk clue version, allowed = true ∧
      ((getOrCreateDirectoryAttestSecret env.schnorr.toSecretKeys draws.attest).run s).1 = .ok sk ∧
      (true, version, clue.length, ownershipProofWireLen) = entryShape env.fheOmr entry ∧
      ((getCluePublicKey env allowed draws pk.1).run s).1 =
        ((padOwnershipProof (signDirectoryAttestation env.schnorr sk env.networkByte version pk clue
          draws.sign)).mapError fun e => ⟨.internal, e⟩).map fun proof =>
            ⟨true, clue, proof, version⟩ := by
  cases allowed with
  | false => exact Or.inl ⟨_, rfl, Or.inl rfl⟩
  | true =>
    have hpk : readPaymentPubkey pk.1 = .ok pk := dif_pos pk.2
    unfold getCluePublicKey
    rw [Prog.bind_eq, Prog.run_bind_of_ok (run_liftStatus (checkClueRateLimit true) s),
      Prog.bind_eq, Prog.run_bind_of_ok (by rw [run_liftStatus, hpk])]
    have homr := (attestSecret_run env.schnorr.toSecretKeys draws.attest (Eq.refl s.db.server)).2 s
    rcases hattest : (getOrCreateDirectoryAttestSecret env.schnorr.toSecretKeys draws.attest).run s
      with ⟨e | sk, s₁⟩
    · refine Or.inl ⟨cacheStatus e, ?_, Or.inr ⟨e, rfl⟩⟩
      rw [Prog.bind_eq, Prog.run_bind_of_error (by rw [Prog.run_mapError, hattest]; rfl)]
    · rw [hattest] at homr
      have hentry₁ : directoryEntry pk s₁ = .ok entry := by
        rw [directoryEntry_eq] at hentry ⊢
        rw [← hentry, homr]
      obtain ⟨clue, version, s₂, hlookup, hshape⟩ :=
        lookupCluePublicKey_run env draws.pepper hentry₁
      refine Or.inr ⟨sk, clue, version, rfl, rfl, hshape, ?_⟩
      rw [Prog.bind_eq, Prog.run_bind_of_ok (Prog.run_mapError_of_ok hattest), Prog.bind_eq,
        Prog.run_bind_of_ok hlookup]
      dsimp only
      rw [Prog.bind_eq, Prog.run_bind, run_liftStatus]
      cases padOwnershipProof (signDirectoryAttestation env.schnorr sk env.networkByte version pk clue
        draws.sign) with
      | error e => rfl
      | ok proof => rfl

/-- A reply has the shape of the entry. -/
theorem getCluePublicKey_shape {allowed : Bool} {draws : LookupDraws env.schnorr} {pk : Bytes32}
    {entry : Option (ℕ × Bytes × Bytes)} (hentry : directoryEntry pk s = .ok entry)
    {reply : Proto.CluePublicKey}
    (h : ((getCluePublicKey env allowed draws pk.1).run s).1 = .ok reply) :
    reply.shape = entryShape env.fheOmr entry := by
  obtain ⟨e, herror, -⟩ | ⟨sk, clue, version, -, -, hshape, hrun⟩ :=
    getCluePublicKey_run allowed draws hentry
  · rw [h] at herror
    cases herror
  · rw [h] at hrun
    cases hpad : padOwnershipProof (signDirectoryAttestation env.schnorr sk env.networkByte version
      pk clue draws.sign) with
    | error e =>
      rw [hpad] at hrun
      cases hrun
    | ok proof =>
      rw [hpad] at hrun
      cases hrun
      rw [← hshape, ← length_of_padOwnershipProof hpad]
      rfl

/-- Whether there is a reply does not depend on the entry, when all signatures are of one
length. -/
theorem getCluePublicKey_isOk {n : ℕ}
    (hlength : ∀ sk msg draw, (env.schnorr.serialize (env.schnorr.sign sk msg draw)).length = n)
    (hserver : s'.db.server = s.db.server) {pk : Bytes32}
    {entry entry' : Option (ℕ × Bytes × Bytes)} (hentry : directoryEntry pk s = .ok entry)
    (hentry' : directoryEntry pk s' = .ok entry') (allowed : Bool)
    (draws : LookupDraws env.schnorr) :
    ((getCluePublicKey env allowed draws pk.1).run s').1.isOk =
      ((getCluePublicKey env allowed draws pk.1).run s).1.isOk := by
  have hattest := (attestSecret_run env.schnorr.toSecretKeys draws.attest hserver).1
  have hmap : ∀ (r : Except String Bytes) (f : Bytes → Proto.CluePublicKey) (g : String → Status),
      ((r.mapError g).map f).isOk = r.isOk := by
    intro r f g
    cases r <;> rfl
  obtain ⟨e, herror, hwhy⟩ | ⟨sk, clue, version, hallowed, hsk, -, hrun⟩ :=
      getCluePublicKey_run allowed draws hentry <;>
    obtain ⟨e', herror', hwhy'⟩ | ⟨sk', clue', version', hallowed', hsk', -, hrun'⟩ :=
      getCluePublicKey_run allowed draws hentry'
  · rw [herror, herror']
    rfl
  · rw [hallowed'] at hwhy
    obtain ⟨e₁, he₁⟩ := hwhy.resolve_left nofun
    rw [hattest, he₁] at hsk'
    cases hsk'
  · rw [hallowed] at hwhy'
    obtain ⟨e₁, he₁⟩ := hwhy'.resolve_left nofun
    rw [hattest, hsk] at he₁
    cases he₁
  · rw [hrun, hrun', hmap, hmap]
    apply isOk_padOwnershipProof
    rw [signDirectoryAttestation, signDirectoryAttestation, hlength, hlength]

end Lookup

/-! ## Two lookups -/

section TwoLookups

/-- The build and the clue key hide that the clue key was registered: its length is that of a
decoy. -/
def HidesRegistration (env : DirectoryEnv) (cluePublicKey : Bytes) : Prop :=
  env.fheOmr = true ∨ cluePublicKey.length = 32

/-- Beside a payment key without an entry, put the cache after it was registered under version
1. Lookups answer in both or in neither, and two replies have the same flag, the same version
and the same lengths exactly when the build has `fhe-omr` or the clue key has 32 bytes. -/
theorem registration_hidden_iff (env : DirectoryEnv) {n : ℕ}
    (hlength : ∀ sk msg draw, (env.schnorr.serialize (env.schnorr.sign sk msg draw)).length = n)
    {s s' : Cache} {pk : Bytes32} (hnone : (getCluePublicKeyEntry pk).run s = (.ok none, s))
    {limit : Bool} {req : Proto.CluePublicKeyRegistration} (hpk : req.paymentPubkey = pk.1)
    (hversion : req.keyVersion = 1)
    (hregister : (registerCluePublicKey env limit req).run s = (.ok (), s')) :
    (∀ allowed draws, ((getCluePublicKey env allowed draws pk.1).run s').1.isOk =
      ((getCluePublicKey env allowed draws pk.1).run s).1.isOk) ∧
    ∀ allowed draws reply allowed' draws' reply',
      ((getCluePublicKey env allowed draws pk.1).run s).1 = .ok reply →
      ((getCluePublicKey env allowed' draws' pk.1).run s').1 = .ok reply' →
      ((reply'.found = reply.found ∧ reply'.keyVersion = reply.keyVersion ∧
          reply'.cluePublicKey.length = reply.cluePublicKey.length ∧
          reply'.ownershipProof.length = reply.ownershipProof.length) ↔
        HidesRegistration env req.cluePublicKey) := by
  have hentry : directoryEntry pk s = .ok none := congrArg Prod.fst hnone
  obtain ⟨pk', hpk', hcheck, hstore⟩ := registerCluePublicKey_ok hregister
  obtain rfl : pk = pk' := Subtype.ext (hpk.symm.trans hpk')
  rw [hversion] at hstore
  obtain ⟨hentry', hserver⟩ := directoryEntry_of_registered hentry hstore
  refine ⟨getCluePublicKey_isOk hlength hserver hentry hentry', ?_⟩
  intro allowed draws reply allowed' draws' reply' h h'
  have hshape := getCluePublicKey_shape hentry h
  have hshape' := getCluePublicKey_shape hentry' h'
  simp only [Proto.CluePublicKey.shape, entryShape, Prod.mk.injEq] at hshape hshape'
  obtain ⟨hfound, hver, hclue, hproof⟩ := hshape
  obtain ⟨hfound', hver', hclue', hproof'⟩ := hshape'
  rw [hfound, hfound', hver, hver', hclue, hclue', hproof, hproof']
  unfold HidesRegistration
  cases hfhe : env.fheOmr with
  | true =>
    rw [hfhe] at hcheck
    simp [decoyLength, decoyKeyVersion, length_of_checkCluePublicKey hcheck]
  | false => simp [decoyLength, decoyKeyVersion]

/-! ## The default build -/

/-- Signatures that repeat the key, on keys that are field elements. -/
def plainSchnorr : Schnorr where
  toSecretKeys := fieldKeys
  PublicKey := Bytes32
  Signature := Bytes32
  Random := Unit
  publicKeyFromBytes := .ok
  sign sk _ _ := fieldKeys.toRepr sk
  verify pk _ sig := decide (sig = pk)
  serialize sig := sig.1 ++ sig.1
  deserialize bytes := if h : (bytes.take 32).length = 32 then .ok ⟨bytes.take 32, h⟩
    else .error "short signature"

/-- A server without `fhe-omr`. -/
def defaultBuild : DirectoryEnv where
  fheOmr := false
  networkByte := 1
  schnorr := plainSchnorr
  rng := ⟨Unit, fun _ => (), fun r => (0, r), fun r => (0, r), fun r => (0, r)⟩
  blake3 _ := Bytes32.fill 9
  keyedBlake3 _ _ := Bytes32.fill 9

/-- A registration of `n` bytes as clue key. -/
def plainRegistration (n : ℕ) : Proto.CluePublicKeyRegistration :=
  ⟨(Bytes32.fill 1).1, List.replicate n 5, (Bytes32.fill 1).1 ++ (Bytes32.fill 1).1, 1⟩

/-- The draws of a lookup in the plain build. -/
def plainDraws : LookupDraws plainSchnorr := ⟨[Bytes32.fill 3], fun _ => Bytes32.fill 4, ()⟩

/-- The cache after a registration of `n` bytes. -/
def afterRegistration (n : ℕ) : Cache :=
  (registerCluePublicKey defaultBuild true (plainRegistration n)).exec Cache.initial

/-- A registration of 32 bytes is hidden in the plain build. -/
theorem registration_hidden_iff_plain :
    (∀ allowed draws,
      ((getCluePublicKey defaultBuild allowed draws (Bytes32.fill 1).1).run
          (afterRegistration 32)).1.isOk =
        ((getCluePublicKey defaultBuild allowed draws (Bytes32.fill 1).1).run
          Cache.initial).1.isOk) ∧
    ∀ allowed draws reply allowed' draws' reply',
      ((getCluePublicKey defaultBuild allowed draws (Bytes32.fill 1).1).run Cache.initial).1 =
          .ok reply →
      ((getCluePublicKey defaultBuild allowed' draws' (Bytes32.fill 1).1).run
          (afterRegistration 32)).1 = .ok reply' →
      ((reply'.found = reply.found ∧ reply'.keyVersion = reply.keyVersion ∧
          reply'.cluePublicKey.length = reply.cluePublicKey.length ∧
          reply'.ownershipProof.length = reply.ownershipProof.length) ↔
        HidesRegistration defaultBuild (plainRegistration 32).cluePublicKey) := by
  have hlength : ∀ sk msg draw, (plainSchnorr.serialize (plainSchnorr.sign sk msg draw)).length =
      64 := by
    intro sk msg draw
    show ((fieldKeys.toRepr sk).1 ++ (fieldKeys.toRepr sk).1).length = 64
    rw [List.length_append, (fieldKeys.toRepr sk).2]
  have hregister : (registerCluePublicKey defaultBuild true (plainRegistration 32)).run
      Cache.initial = (.ok (), afterRegistration 32) := by rfl
  exact registration_hidden_iff defaultBuild hlength (by rfl) rfl rfl hregister

/-- A registered clue key of 33 bytes is told from the 32 bytes of the decoy. -/
theorem long_clue_key_seen :
    ((registerCluePublicKey defaultBuild true (plainRegistration 33)).run Cache.initial).1 = .ok () ∧
      ((getCluePublicKey defaultBuild true plainDraws (Bytes32.fill 1).1).run Cache.initial).1.map
        (fun reply => reply.cluePublicKey.length) = .ok 32 ∧
      ((getCluePublicKey defaultBuild true plainDraws (Bytes32.fill 1).1).run
        (afterRegistration 33)).1.map (fun reply => reply.cluePublicKey.length) = .ok 33 := by
  decide +kernel

end TwoLookups

end LightWalletd
