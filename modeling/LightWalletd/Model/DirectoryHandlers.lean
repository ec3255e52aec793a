import LightWalletd.Model.ClueDirectory
import LightWalletd.Model.Detection

/-!
# The directory requests

Registering a clue public key for a payment key, and looking one up. A payment key without an
entry is answered with a decoy, and every answer is signed by the server. Signatures, the seeded
generator of the decoys and the hash function are parameters, and so is the build: with the
feature `fhe-omr` or without.
-/

set_option autoImplicit false

namespace LightWalletd

open Stateful

/-! ## Parameters -/

/-- The signatures of `darkfi_sdk`, with their wire forms. A signature takes a random draw. -/
structure Schnorr extends SecretKeys where
  PublicKey : Type
  Signature : Type
  Random : Type
  publicKeyFromBytes : Bytes32 → Except String PublicKey
  sign : SecretKey → Bytes → Random → Signature
  verify : PublicKey → Bytes → Signature → Bool
  serialize : Signature → Bytes
  deserialize : Bytes → Except String Signature

/-- `StdRng`, and the draw of an error, whose thresholds are floating-point numbers.
SOURCE: unifomr.rs:212-234 -/
structure SeededRng where
  Rng : Type
  fromSeed : Bytes32 → Rng
  nextU32 : Rng → ℕ × Rng
  nextU64 : Rng → ℕ × Rng
  sampleGaussianSigmaHalf : Rng → ℤ × Rng

/-- What the server is built and configured with. -/
structure DirectoryEnv where
  fheOmr : Bool
  networkByte : UInt8
  schnorr : Schnorr
  rng : SeededRng
  blake3 : Bytes → Bytes32
  keyedBlake3 : Bytes32 → Bytes → Bytes32

/-- The bytes of a text. -/
def textBytes (text : String) : Bytes := text.toUTF8.toList

/-! ## Clue public keys -/

/-- SOURCE: unifomr.rs:177-181 -/
structure RlwePublicKey where
  a : List ℕ
  b : List ℕ
  deriving DecidableEq

/-- SOURCE: unifomr.rs:502-514 -/
def serializePublicKey (pk : RlwePublicKey) : Bytes :=
  [clueVersion, schemeUnifomr] ++ leBytes 2 clueN ++ pk.a.flatMap (leBytes 8) ++
    pk.b.flatMap (leBytes 8)

/-- SOURCE: unifomr.rs:516-542 -/
def deserializePublicKey (bytes : Bytes) : Except String RlwePublicKey :=
  if bytes.length < 4 then .error "pk too short"
  else if bytes.getD 0 0 ≠ clueVersion ∨ bytes.getD 1 0 ≠ schemeUnifomr then
    .error "bad pk header"
  else
    let n := leValue ((bytes.drop 2).take 2)
    if n ≠ clueN then .error ("pk n=" ++ toString n ++ ", expected " ++ toString clueN)
    else if bytes.length ≠ 4 + 16 * n then .error "bad pk length"
    else .ok ⟨readWords n (bytes.drop 4), readWords n (bytes.drop (4 + 8 * n))⟩

/-! ## Decoys -/

/-- SOURCE: unifomr.rs:92 -/
def clueH : ℕ := 80

/-- SOURCE: unifomr.rs:236-243 -/
def modQ (x : ℤ) : ℕ :=
  let r := x.tmod clueQ
  (if r < 0 then r + clueQ else r).toNat

/-- SOURCE: unifomr.rs:245-253 -/
def centerLift (u : ℕ) : ℤ := if (u : ℤ) > clueQ / 2 then u - clueQ else u

/-- One product of coefficients; `x^n` is -1. SOURCE: unifomr.rs:266-277 -/
def addProduct (a : List ℕ) (s : List ℤ) (i : ℕ) (out : List ℤ) (j : ℕ) : List ℤ :=
  let ai : ℤ := a.getD i 0
  let sj := s.getD j 0
  if ai = 0 ∨ sj = 0 then out
  else
    let exp := i + j
    let term := ai * sj
    if exp < a.length then out.set exp (out.getD exp 0 + term)
    else out.set (exp - a.length) (out.getD (exp - a.length) 0 - term)

/-- SOURCE: unifomr.rs:256-283 -/
def polyMulMod (a : List ℕ) (s : List ℤ) : List ℕ :=
  let n := a.length
  let out := (List.range n).foldl
    (fun out i => (List.range n).foldl (addProduct a s i) out) (List.replicate n 0)
  out.map fun x => modQ (x % clueQ)

namespace SeededRng

variable (rng : SeededRng)

/-- `n` draws. -/
def draws {α : Type} (next : rng.Rng → α × rng.Rng) : ℕ → rng.Rng → List α × rng.Rng
  | 0, r => ([], r)
  | n + 1, r =>
    let (x, r) := next r
    let (xs, r) := draws next n r
    (x :: xs, r)

/-- One round of the shuffle. SOURCE: unifomr.rs:291-299 -/
def shuffleRound (st : List ℤ × List ℕ × rng.Rng) (i : ℕ) : List ℤ × List ℕ × rng.Rng :=
  let (coeffs, idxs, r) := st
  let (u, r) := rng.nextU32 r
  let j := i + u % (clueN - i)
  let idxs := (idxs.set i (idxs.getD j 0)).set j (idxs.getD i 0)
  let (v, r) := rng.nextU32 r
  (coeffs.set (idxs.getD i 0) (if v % 2 = 0 then 1 else -1), idxs, r)

/-- `RlweSecretKey::from_seed`. SOURCE: unifomr.rs:286-307 -/
def secretFromSeed (seed : Bytes32) : RlweSecretKey :=
  ⟨((List.range clueH).foldl rng.shuffleRound
    (List.replicate clueN 0, List.range clueN, rng.fromSeed seed)).1⟩

/-- `RlwePublicKey::from_secret`. SOURCE: unifomr.rs:318-329 -/
def publicFromSecret (sk : RlweSecretKey) (r : rng.Rng) : RlwePublicKey :=
  let (words, r) := rng.draws rng.nextU64 clueN r
  let a := words.map (· % clueQ)
  let (e, _) := rng.draws rng.sampleGaussianSigmaHalf clueN r
  let product := polyMulMod a sk.coeffs
  ⟨a, (List.range clueN).map fun i => modQ (centerLift (product.getD i 0) + e.getD i 0)⟩

end SeededRng

/-- SOURCE: unifomr.rs:51 -/
def unifomrClueDirDecoy : Bytes := textBytes "DarkFi-UnifOMR-ClueDirDecoy-v1"

/-- SOURCE: unifomr.rs:554-571 -/
def decoyCluePublicKey (env : DirectoryEnv) (paymentPubkey pepper : Bytes32) : Bytes :=
  let seed := env.keyedBlake3 pepper (unifomrClueDirDecoy ++ paymentPubkey.1)
  let sk := env.rng.secretFromSeed seed
  let seed2 := env.keyedBlake3 pepper
    (unifomrClueDirDecoy ++ textBytes "-pk-rand" ++ paymentPubkey.1)
  serializePublicKey (env.rng.publicFromSecret sk (env.rng.fromSeed seed2))

/-- SOURCE: unifomr.rs:573-575 -/
def decoyKeyVersion : ℕ := 1

/-! ## Proofs -/

/-- SOURCE: clue_ownership.rs:24 -/
def ownershipProofWireLen : ℕ := 128

/-- SOURCE: clue_ownership.rs:27-40 -/
def padOwnershipProof (proof : Bytes) : Except String Bytes :=
  if ownershipProofWireLen - 2 < proof.length then
    .error ("ownership proof too large: " ++ toString proof.length ++ " (max " ++
      toString (ownershipProofWireLen - 2) ++ ")")
  else .ok (leBytes 2 proof.length ++ proof ++
    List.replicate (ownershipProofWireLen - 2 - proof.length) 0)

/-- The text that a proof signs, behind its domain.
SOURCE: clue_ownership.rs:64-78, clue_ownership.rs:123-137 -/
def signedMessage (domain : String) (network : UInt8) (keyVersion : ℕ)
    (paymentPubkey cluePublicKey : Bytes) : Bytes :=
  textBytes domain ++ [network] ++ leBytes 8 keyVersion ++ paymentPubkey ++ cluePublicKey

/-- SOURCE: clue_ownership.rs:13, clue_ownership.rs:64-78 -/
def cluePkOwnershipMessage : UInt8 → ℕ → Bytes → Bytes → Bytes :=
  signedMessage "DarkFi-UnifOMR-CluePK"

/-- SOURCE: clue_ownership.rs:19, clue_ownership.rs:123-137 -/
def directoryAttestMessage : UInt8 → ℕ → Bytes → Bytes → Bytes :=
  signedMessage "DarkFi-UnifOMR-DirAttest"

/-- SOURCE: clue_ownership.rs:97-117 -/
def verifyCluePkOwnership (schnorr : Schnorr) (network : UInt8) (keyVersion : ℕ)
    (paymentPubkey : Bytes32) (cluePublicKey ownershipProof : Bytes) : Except String Unit :=
  match schnorr.publicKeyFromBytes paymentPubkey with
  | .error e => .error ("invalid payment pubkey: " ++ e)
  | .ok pk => match schnorr.deserialize ownershipProof with
    | .error e => .error ("invalid ownership proof encoding: " ++ e)
    | .ok sig =>
      if schnorr.verify pk (cluePkOwnershipMessage network keyVersion paymentPubkey.1 cluePublicKey)
          sig then .ok ()
      else .error "clue public key ownership proof verification failed"

/-- SOURCE: clue_ownership.rs:141-153 -/
def signDirectoryAttestation (schnorr : Schnorr) (serverSk : schnorr.SecretKey) (network : UInt8)
    (keyVersion : ℕ) (paymentPubkey : Bytes32) (cluePublicKey : Bytes)
    (draw : schnorr.Random) : Bytes :=
  schnorr.serialize (schnorr.sign serverSk
    (directoryAttestMessage network keyVersion paymentPubkey.1 cluePublicKey) draw)

/-! ## Handlers -/

/-- A registration of a clue key. -/
structure Proto.CluePublicKeyRegistration where
  paymentPubkey : Bytes
  cluePublicKey : Bytes
  ownershipProof : Bytes
  keyVersion : ℕ

/-- The reply to a lookup of a clue key. -/
structure Proto.CluePublicKey where
  found : Bool
  cluePublicKey : Bytes
  ownershipProof : Bytes
  keyVersion : ℕ
  deriving DecidableEq

/-- A refusal of what the client sent. -/
def invalidArgument (message : String) : Status := ⟨.invalidArgument, message⟩

/-- SOURCE: server.rs:1180-1188 -/
def checkClueRateLimit (allowed : Bool) : Except Status Unit :=
  if allowed then .ok ()
  else .error ⟨.resourceExhausted, "OMR clue registration rate limit exceeded; retry later"⟩

/-- The payment key of a request. SOURCE: server.rs:2678-2688, server.rs:2729-2733 -/
def readPaymentPubkey (bytes : Bytes) : Except Status Bytes32 :=
  if h : bytes.length = 32 then .ok ⟨bytes, h⟩
  else .error (invalidArgument "payment_pubkey must be 32 bytes")

/-- SOURCE: server.rs:2701-2706 -/
def checkCluePublicKey (fheOmr : Bool) (cluePublicKey : Bytes) : Except Status Unit :=
  if fheOmr then
    match deserializePublicKey cluePublicKey with
    | .error e => .error (invalidArgument ("invalid UnifOMR clue public key: " ++ e))
    | .ok _ => .ok ()
  else .ok ()

/-- SOURCE: server.rs:2672-2717 -/
def registerCluePublicKey (env : DirectoryEnv) (allowed : Bool)
    (req : Proto.CluePublicKeyRegistration) : Handler Unit := do
  liftStatus (checkClueRateLimit allowed)
  let pk ← liftStatus (readPaymentPubkey req.paymentPubkey)
  if req.cluePublicKey.isEmpty then Prog.fail (invalidArgument "clue_public_key required")
  else if req.ownershipProof.isEmpty then Prog.fail (invalidArgument "ownership_proof required")
  else do
    liftStatus ((verifyCluePkOwnership env.schnorr env.networkByte req.keyVersion pk
      req.cluePublicKey req.ownershipProof).mapError invalidArgument)
    liftStatus (checkCluePublicKey env.fheOmr req.cluePublicKey)
    (storeCluePublicKey pk req.cluePublicKey req.keyVersion req.ownershipProof).mapError
      fun e => invalidArgument ("Failed to store clue pk: " ++ e.display)

/-- The random draws of a lookup: for a new attestation key, for a new pepper, and for the
signature. -/
structure LookupDraws (schnorr : Schnorr) where
  attest : List Bytes32
  pepper : ℕ → Bytes32
  sign : schnorr.Random

/-- The entry of a payment key, or a decoy.
SOURCE: server.rs:2742-2779 -/
def lookupCluePublicKey (env : DirectoryEnv) (pepperDraws : ℕ → Bytes32) (pk : Bytes32) :
    Handler (Bytes × ℕ) := do
  match ← (getCluePublicKeyEntry pk).mapError cacheStatus with
  | some (ver, _, real) => pure (real, ver)
  | none =>
    if env.fheOmr then do
      let pepper ← (getOrCreateClueDirPepper 2 pepperDraws).mapError cacheStatus
      pure (decoyCluePublicKey env pk pepper, decoyKeyVersion)
    else pure ((env.blake3 pk.1).1, 1)

/-- The reply; that it is held back for a fixed time is left out.
SOURCE: server.rs:2719-2803 -/
def getCluePublicKey (env : DirectoryEnv) (allowed : Bool) (draws : LookupDraws env.schnorr)
    (paymentPubkey : Bytes) : Handler Proto.CluePublicKey := do
  liftStatus (checkClueRateLimit allowed)
  let pk ← liftStatus (readPaymentPubkey paymentPubkey)
  let attestSk ← (getOrCreateDirectoryAttestSecret env.schnorr.toSecretKeys draws.attest).mapError
    cacheStatus
  let (cluePublicKey, keyVersion) ← lookupCluePublicKey env draws.pepper pk
  let ownershipProof ← liftStatus ((padOwnershipProof (signDirectoryAttestation env.schnorr attestSk
    env.networkByte keyVersion pk cluePublicKey draws.sign)).mapError fun e => ⟨.internal, e⟩)
  pure ⟨true, cluePublicKey, ownershipProof, keyVersion⟩

end LightWalletd
