import LightWalletd.Model.Store

/-!
# Clue directory and server secrets

The directory of clue public keys, one row for each payment key, and the two secrets that
the server draws once and keeps: the pepper of the directory's decoys and the key that signs
directory entries. Random bytes are arguments. The key type of the signing key belongs to
`darkfi_sdk` and is a parameter.
-/

set_option autoImplicit false

namespace LightWalletd

open Stateful

/-! ## Directory rows -/

/-- SOURCE: cache.rs:576, cache.rs:581 -/
def maxClueKeyBytes : ℕ := 65536

/-- `key_version u64 LE || proof_len u32 LE || proof || clue_pk`.
SOURCE: cache.rs:606-610 -/
def encodeCluePubkeyValue (keyVersion : ℕ) (ownershipProof cluePk : Bytes) : Bytes :=
  leBytes 8 keyVersion ++ leBytes 4 ownershipProof.length ++ ownershipProof ++ cluePk

/-- `v3`, the tag of older rows. SOURCE: cache.rs:621 -/
def oldRowTag : Bytes := [118, 51]

/-- SOURCE: cache.rs:616-640 -/
def parseCluePubkeyValue (v : Bytes) : Option (ℕ × Bytes × Bytes) :=
  let v := if oldRowTag.isPrefixOf v then v.drop 2 else v
  if v.length < 8 + 4 then none
  else
    let keyVersion := leValue (v.take 8)
    let proofLen := leValue ((v.drop 8).take 4)
    if v.length < 12 + proofLen then none
    else
      let proof := (v.drop 12).take proofLen
      let clue := v.drop (12 + proofLen)
      if clue.isEmpty || proof.isEmpty then none else some (keyVersion, proof, clue)

/-- The checks before the row is read.
SOURCE: cache.rs:575-589 -/
def checkClueRegistration (cluePk : Bytes) (keyVersion : ℕ) (ownershipProof : Bytes) :
    Except LightWalletError Unit :=
  if cluePk.isEmpty || decide (maxClueKeyBytes < cluePk.length) then
    .error (.cacheError "invalid clue public key size")
  else if ownershipProof.isEmpty || decide (maxClueKeyBytes < ownershipProof.length) then
    .error (.cacheError "invalid ownership proof size")
  else if keyVersion = 0 then .error (.cacheError "clue key_version 0 is rejected")
  else .ok ()

/-- The checks against the row that is there.
SOURCE: cache.rs:590-605 -/
def checkStoredClueKey (existing : Option Bytes) (cluePk : Bytes) (keyVersion : ℕ) :
    Except LightWalletError Unit :=
  match existing.bind parseCluePubkeyValue with
  | none => .ok ()
  | some (storedVersion, _, storedClue) =>
    if keyVersion < storedVersion then
      .error (.cacheError ("stale clue registration: key_version " ++ toString keyVersion ++
        " < registered " ++ toString storedVersion))
    else if keyVersion = storedVersion ∧ storedClue ≠ cluePk then
      .error (.cacheError "clue public key already registered at this key_version")
    else .ok ()

/-- SOURCE: cache.rs:559-614 -/
def storeCluePublicKey (paymentPubkey : Bytes32) (cluePk : Bytes) (keyVersion : ℕ)
    (ownershipProof : Bytes) : CacheM Unit := do
  liftExcept (checkClueRegistration cluePk keyVersion ownershipProof)
  let existing ← omrCluePubkeys.get paymentPubkey
  liftExcept (checkStoredClueKey existing cluePk keyVersion)
  omrCluePubkeys.insert paymentPubkey (encodeCluePubkeyValue keyVersion ownershipProof cluePk)

/-- SOURCE: cache.rs:650-659 -/
def getCluePublicKeyEntry (paymentPubkey : Bytes32) : CacheM (Option (ℕ × Bytes × Bytes)) := do
  let row ← omrCluePubkeys.get paymentPubkey
  pure (row.bind parseCluePubkeyValue)

/-! ## Secrets -/

/-- `compare_and_swap` on a key of the metadata tree: whether the value was `old`. -/
def Cell.compareAndSwap {V : Type} [DecidableEq V] (c : Cell V) (old : Option V) (new : V) :
    CacheM Bool :=
  .swap sledError (fun s => decide (c.sel s.db = old)) fun s =>
    if c.sel s.db = old then { s with db := c.upd (some new) s.db } else s

/-- A value of 32 bytes. -/
def readBytes32 (row : Option Bytes) : Option Bytes32 :=
  match row with
  | some bytes => if h : bytes.length = 32 then some ⟨bytes, h⟩ else none
  | none => none

/-- Put a pepper in place of what the key holds now, or start over with `retry`.
SOURCE: cache.rs:672-680 -/
def installPepper (pepper : Bytes32) (retry : CacheM Bytes32) : CacheM Bytes32 := do
  let current ← metaClueDirPepper.get
  if ← metaClueDirPepper.compareAndSwap current pepper.1 then pure pepper else retry

/-- The attempts of one call draw the peppers `draws`; `fuel` bounds their number, and the
model panics when it runs out. Only other calls that install a pepper make an attempt fail,
so the second attempt of a call finds theirs.
SOURCE: cache.rs:661-681 -/
def getOrCreateClueDirPepper : ℕ → (ℕ → Bytes32) → CacheM Bytes32
  | 0, _ => .fail .panicked
  | fuel + 1, draws => do
    match readBytes32 (← metaClueDirPepper.get) with
    | some out => pure out
    | none => installPepper (draws 0) (getOrCreateClueDirPepper fuel fun n => draws (n + 1))

/-- `SecretKey` of `darkfi_sdk`: its byte form can be read back. -/
structure SecretKeys where
  SecretKey : Type
  fromBytes : Bytes32 → Except String SecretKey
  toRepr : SecretKey → Bytes32
  fromBytes_toRepr : ∀ sk, fromBytes (toRepr sk) = .ok sk

/-- The key under `unifomr_dir_attest_sk`, or a key of the random bytes `draws`: the first
that is one. A call that draws no key goes on for ever; it is a panic here.
SOURCE: cache.rs:683-710 -/
def getOrCreateDirectoryAttestSecret (keys : SecretKeys) (draws : List Bytes32) :
    CacheM keys.SecretKey := do
  match readBytes32 (← metaAttest.get) with
  | some out =>
    match keys.fromBytes out with
    | .ok sk => pure sk
    | .error e => .fail (.cacheError ("invalid directory attest secret: " ++ e))
  | none =>
    match draws.findSome? fun bytes => (keys.fromBytes bytes).toOption with
    | none => .fail .panicked
    | some sk => do
      metaAttest.insert (keys.toRepr sk).1
      pure sk

end LightWalletd
