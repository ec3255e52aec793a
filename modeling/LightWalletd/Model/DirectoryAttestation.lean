import LightWalletd.Model.DirectoryHandlers

/-!
# Directory attestations

How a client checks a directory entry: the server publishes its attestation key, and the proof in a
reply, unpadded, has to be a signature of the entry under this key. The public keys of secret keys
come with the signatures, as a parameter.
-/

set_option autoImplicit false

namespace LightWalletd

open Stateful

/-- What the server is built with, and `PublicKey::from_secret` and `to_bytes`. -/
structure AttestEnv extends DirectoryEnv where
  publicFromSecret : schnorr.SecretKey → schnorr.PublicKey
  publicToBytes : schnorr.PublicKey → Bytes32

/-! ## Proofs on the wire -/

/-- SOURCE: clue_ownership.rs:42-52 -/
def unpadOwnershipProof (wire : Bytes) : Except String Bytes :=
  if wire.length < 2 then .error "ownership proof wire too short"
  else
    let len := leValue (wire.take 2)
    if len = 0 ∨ wire.length < 2 + len then .error "ownership proof length invalid"
    else .ok ((wire.drop 2).take len)

/-- SOURCE: clue_ownership.rs:80-94 -/
def signCluePkOwnership (schnorr : Schnorr) (paymentSk : schnorr.SecretKey) (network : UInt8)
    (keyVersion : ℕ) (paymentPubkey : Bytes32) (cluePublicKey : Bytes) (draw : schnorr.Random) :
    Bytes :=
  schnorr.serialize (schnorr.sign paymentSk
    (cluePkOwnershipMessage network keyVersion paymentPubkey.1 cluePublicKey) draw)

/-- SOURCE: clue_ownership.rs:155-188 -/
def verifyDirectoryAttestation (schnorr : Schnorr) (serverPk : Bytes) (network : UInt8)
    (keyVersion : ℕ) (paymentPubkey : Bytes32) (cluePublicKey attestation : Bytes) :
    Except String Unit :=
  if h : serverPk.length = 32 then
    if attestation.length ≠ ownershipProofWireLen then
      .error "directory attestation must be the fixed-length wire proof"
    else match unpadOwnershipProof attestation with
      | .error e => .error e
      | .ok proofBytes => match schnorr.publicKeyFromBytes ⟨serverPk, h⟩ with
        | .error e => .error ("invalid directory attest pubkey: " ++ e)
        | .ok pk => match schnorr.deserialize proofBytes with
          | .error e => .error ("invalid directory attestation encoding: " ++ e)
          | .ok sig =>
            if schnorr.verify pk
                (directoryAttestMessage network keyVersion paymentPubkey.1 cluePublicKey) sig then
              .ok ()
            else .error "directory attestation verification failed"
  else .error "directory attest pubkey must be 32 bytes"

/-! ## The published key -/

/-- The key in `GetLightInfo`. SOURCE: cache.rs:712-716 -/
def directoryAttestPublicKey (env : AttestEnv) (draws : List Bytes32) : CacheM Bytes32 := do
  let sk ← getOrCreateDirectoryAttestSecret env.schnorr.toSecretKeys draws
  pure (env.publicToBytes (env.publicFromSecret sk))

end LightWalletd
