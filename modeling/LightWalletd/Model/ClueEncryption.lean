import LightWalletd.Model.DirectoryHandlers

/-!
# Clue encryption

A clue is an encryption of zero under a clue public key; the holder of the secret decrypts it to
an error. The generator of the random words is a parameter, and so are the thresholds of the error
draw. The functions compute over the integers; beside them stand the same ones over machine
integers, which stop at an overflow and at a read past the end.
-/

set_option autoImplicit false

namespace LightWalletd

/-! ## Draws -/

/-- What an encryption draws. -/
structure EncryptionDraws where
  u : List ℤ
  e1 : List ℤ
  e2 : List ℤ

namespace SeededRng

/-- The draw of an error. The thresholds are floating-point numbers: `below k m` says whether
`m / 2 ^ 53` is below the `k`-th one. SOURCE: unifomr.rs:212-234 -/
def gaussianSigmaHalf (rng : SeededRng) (below : ℕ → ℕ → Bool) (r : rng.Rng) : ℤ × rng.Rng :=
  let (x, r) := rng.nextU64 r
  let u := x / 2 ^ 11
  let mag : ℤ :=
    if below 0 u then 0
    else if below 1 u then 1
    else if below 2 u then 2
    else if below 3 u then 3
    else 4
  if mag = 0 then (0, r)
  else
    let (v, r) := rng.nextU32 r
    (if v % 2 = 0 then mag else -mag, r)

/-- The generator with the error draw of these thresholds. -/
def withThresholds (rng : SeededRng) (below : ℕ → ℕ → Bool) : SeededRng :=
  { rng with sampleGaussianSigmaHalf := rng.gaussianSigmaHalf below }

/-- SOURCE: unifomr.rs:336-355 -/
def encryptionDraws (rng : SeededRng) (r : rng.Rng) : EncryptionDraws × rng.Rng :=
  let (u, _, r) := (List.range (clueH / 2)).foldl rng.shuffleRound
    (List.replicate clueN 0, List.range clueN, r)
  let (e1, r) := rng.draws rng.sampleGaussianSigmaHalf clueN r
  let (e2, r) := rng.draws rng.sampleGaussianSigmaHalf clueN r
  (⟨u, e1, e2⟩, r)

end SeededRng

/-- SOURCE: unifomr.rs:286-301 -/
def RlweSecretKey.random (rng : SeededRng) (r : rng.Rng) : RlweSecretKey × rng.Rng :=
  let (coeffs, _, r) := (List.range clueH).foldl rng.shuffleRound
    (List.replicate clueN 0, List.range clueN, r)
  (⟨coeffs⟩, r)

/-! ## Encryption and decryption -/

/-- The ciphertext of some draws. SOURCE: unifomr.rs:356-364 -/
def RlwePublicKey.encryptWith (pk : RlwePublicKey) (draws : EncryptionDraws) : RlweCiphertext :=
  let bu := polyMulMod pk.b draws.u
  let au := polyMulMod pk.a draws.u
  { a := (List.range clueN).map fun i => modQ (centerLift (au.getD i 0) + draws.e2.getD i 0)
    b := (List.range clueN).map fun i => modQ (centerLift (bu.getD i 0) + draws.e1.getD i 0) }

/-- SOURCE: unifomr.rs:331-365 -/
def RlwePublicKey.encryptZeros (rng : SeededRng) (pk : RlwePublicKey) (r : rng.Rng) :
    RlweCiphertext × rng.Rng :=
  let (draws, r) := rng.encryptionDraws r
  (pk.encryptWith draws, r)

/-- SOURCE: unifomr.rs:308-314 -/
def RlweSecretKey.decryptError (sk : RlweSecretKey) (ct : RlweCiphertext) : List ℤ :=
  let product := polyMulMod ct.a sk.coeffs
  (List.range clueN).map fun i => centerLift (ct.b.getD i 0) - centerLift (product.getD i 0)

/-! ## Machine integers -/

/-- A signed integer of the given width; none at an overflow. -/
def checkedInt (bits : ℕ) (x : ℤ) : Option ℤ :=
  if -2 ^ (bits - 1) ≤ x ∧ x < 2 ^ (bits - 1) then some x else none

/-- `modQ` on `i64`. SOURCE: unifomr.rs:236-243 -/
def modQChecked (x : ℤ) : Option ℕ := do
  let r := x.tmod clueQ
  let r ← if r < 0 then checkedInt 64 (r + clueQ) else some r
  some r.toNat

/-- `centerLift` on `i64`. SOURCE: unifomr.rs:245-253 -/
def centerLiftChecked (u : ℕ) : Option ℤ := do
  let v ← checkedInt 64 u
  if v > clueQ / 2 then checkedInt 64 (v - clueQ) else some v

/-- `addProduct` on `i128`. SOURCE: unifomr.rs:261-278 -/
def addProductChecked (a : List ℕ) (s : List ℤ) (i : ℕ) (out : List ℤ) (j : ℕ) :
    Option (List ℤ) := do
  let ai ← checkedInt 128 (a.getD i 0)
  if ai = 0 then some out
  else do
    let sj ← s[j]?
    if sj = 0 then some out
    else do
      let exp := i + j
      let term ← checkedInt 128 (ai * sj)
      if exp < a.length then do
        let x ← checkedInt 128 (out.getD exp 0 + term)
        some (out.set exp x)
      else do
        let x ← checkedInt 128 (out.getD (exp - a.length) 0 - term)
        some (out.set (exp - a.length) x)

/-- `polyMulMod` on `i128` and `i64`. SOURCE: unifomr.rs:256-283 -/
def polyMulModChecked (a : List ℕ) (s : List ℤ) : Option (List ℕ) := do
  let n := a.length
  let out ← (List.range n).foldlM
    (fun out i => (List.range n).foldlM (addProductChecked a s i) out) (List.replicate n 0)
  out.mapM fun x => do
    let r ← checkedInt 64 (x % clueQ)
    modQChecked r

/-- A sum of a lifted coefficient and an error, on `i64`. SOURCE: unifomr.rs:358-363 -/
def addErrorChecked (product : List ℕ) (e : List ℤ) (i : ℕ) : Option ℕ := do
  let x ← centerLiftChecked (← product[i]?)
  let y ← checkedInt 64 (x + (← e[i]?))
  modQChecked y

/-- `encryptWith` on machine integers. SOURCE: unifomr.rs:356-364 -/
def RlwePublicKey.encryptWithChecked (pk : RlwePublicKey) (draws : EncryptionDraws) :
    Option RlweCiphertext := do
  let bu ← polyMulModChecked pk.b draws.u
  let au ← polyMulModChecked pk.a draws.u
  let b ← (List.range clueN).mapM (addErrorChecked bu draws.e1)
  let a ← (List.range clueN).mapM (addErrorChecked au draws.e2)
  some ⟨a, b⟩

end LightWalletd
