import Mathlib.Data.List.Destutter
import LightWalletd.Computation.SlotScheme
import LightWalletd.Model.Digest

/-!
# Detection

A detection key is the clue secret of a wallet, encrypted coefficient by coefficient. Under it
the server decrypts the clues of a window, one to a slot, without learning which of them are
the wallet's; the wallet opens the result and keeps the slots that are close to zero. The
encryption is a parameter, with the draws of its random choices.
-/

set_option autoImplicit false

namespace LightWalletd

/-! ## Parameters -/

/-- SOURCE: unifomr.rs:57 -/
def digestFormatVersion : UInt8 := 1

/-- SOURCE: unifomr.rs:109 -/
def cluePlaintextBits : ℕ := 2

/-- SOURCE: unifomr.rs:118 -/
def rPrime : ℕ := 149

/-- SOURCE: unifomr.rs:146-165 -/
def packingDegree : ℕ := 4096

/-- The encryption with the parameters of `bfv_params`. SOURCE: unifomr.rs:146-161 -/
abbrev BfvScheme := SlotScheme packingDegree clueQ

/-- SOURCE: omr_traits.rs:23-35 -/
inductive OmrError
  | deserializationError (msg : String)
  | evaluationError (msg : String)
  | invalidParameter (msg : String)
  | unknown (msg : String)
  deriving DecidableEq

/-- SOURCE: unifomr.rs:172-175 -/
structure RlweSecretKey where
  coeffs : List ℤ
  deriving DecidableEq

/-! ## Frames -/

/-- `usize::div_ceil`. -/
def divCeil (a b : ℕ) : ℕ := if a % b = 0 then a / b else a / b + 1

/-- `slice::chunks`. -/
def chunksOf {α : Type} (n : ℕ) (xs : List α) : List (List α) :=
  (List.range (divCeil xs.length n)).map fun i => (xs.drop (i * n)).take n

/-- Bytes behind their length. -/
def frame (bytes : Bytes) : Bytes := leBytes 4 bytes.length ++ bytes

/-- Take a frame off the front. -/
def readFrame (noLength noBytes : String) (bytes : Bytes) : Except String (Bytes × Bytes) :=
  if bytes.length < 4 then .error noLength
  else
    let len := leValue (bytes.take 4)
    let rest := bytes.drop 4
    if rest.length < len then .error noBytes else .ok (rest.take len, rest.drop len)

/-- `n` values, one after the other. -/
def readMany {α : Type} (read : Bytes → Except String (α × Bytes)) :
    ℕ → Bytes → Except String (List α × Bytes)
  | 0, bytes => .ok ([], bytes)
  | n + 1, bytes => do
    let (x, rest) ← read bytes
    let (xs, rest) ← readMany read n rest
    pure (x :: xs, rest)

/-- Put a text in front of an error. -/
def labelled {α : Type} (label : String) (r : Except String α) : Except String α :=
  r.mapError fun e => label ++ e

/-! ## The detection key -/

/-- SOURCE: unifomr.rs:597-602 -/
structure UnifOmrClient (S : BfvScheme) where
  detSk : S.SecretKey
  detPk : S.PublicKey
  clueSk : RlweSecretKey

variable {S : BfvScheme}

/-- A coefficient of the clue secret as a slot value. SOURCE: unifomr.rs:634-638 -/
def coeffSlot (coeff : ℤ) : ℕ :=
  if coeff < 0 then clueQ - (-coeff).toNat % clueQ else coeff.toNat % clueQ

/-- One coefficient of the key. SOURCE: unifomr.rs:639-648 -/
def keyFrame (pk : S.PublicKey) (coeff : ℤ) (r : S.Random) : Except String Bytes := do
  let pt ← labelled "encode sk coeff: " (S.encode (List.replicate packingDegree (coeffSlot coeff)))
  let ct ← labelled "encrypt sk coeff: " (S.encrypt pk pt r)
  pure (frame (S.toBytes ct))

/-- SOURCE: unifomr.rs:623-651 -/
def UnifOmrClient.buildDetectionKey (client : UnifOmrClient S) (draws : ℕ → S.Random)
    (network : UInt8) : Except String Bytes := do
  let frames ← client.clueSk.coeffs.zipIdx.mapM fun p => keyFrame client.detPk p.1 (draws p.2)
  pure ([0x02, network, schemeUnifomr] ++ leBytes 2 clueN ++ frames.flatten)

/-- SOURCE: unifomr.rs:776-787 -/
def checkFreshCiphertext (ct : S.Ciphertext) : Except String Unit :=
  if S.polynomials ct ≠ 2 then
    .error ("expected 2 polynomials, got " ++ toString (S.polynomials ct))
  else do
    let level ← labelled "ciphertext context: " (S.level ct)
    if level ≠ 0 then .error ("expected level 0, got " ++ toString level) else .ok ()

/-- SOURCE: unifomr.rs:812-824 -/
def readKeyCt (bytes : Bytes) : Except String (S.Ciphertext × Bytes) := do
  let (ctBytes, rest) ← readFrame "truncated det key" "truncated det key ct" bytes
  let ct ← labelled "det key ct: " (S.fromBytes ctBytes)
  let _ ← labelled "det key ct: " (checkFreshCiphertext ct)
  pure (ct, rest)

/-- SOURCE: unifomr.rs:790-829 -/
def parseDetectionKey (key : Bytes) : Except String (UInt8 × List S.Ciphertext) :=
  if key.length < 5 then .error "detection key too short"
  else if key.getD 0 0 ≠ 0x02 then
    .error ("unsupported det key version " ++ hexByte (key.getD 0 0))
  else if key.getD 2 0 ≠ schemeUnifomr then
    .error ("expected UnifOMR scheme, got " ++ hexByte (key.getD 2 0))
  else
    let n := leValue ((key.drop 3).take 2)
    if n ≠ clueN then
      .error ("det key n=" ++ toString n ++ ", expected " ++ toString clueN)
    else do
      let (cts, rest) ← readMany readKeyCt n (key.drop 5)
      if rest ≠ [] then .error "trailing det key bytes" else pure (key.getD 1 0, cts)

/-! ## The server -/

/-- SOURCE: unifomr.rs:986-991 -/
inductive SlotClue
  | clue (ct : RlweCiphertext)
  | impertinent

/-- What the `j`-th coefficient of the secret is multiplied with.
SOURCE: unifomr.rs:944-956 -/
def SlotClue.aSlot (bit j : ℕ) : SlotClue → ℕ
  | clue ct =>
    if j ≤ bit then ct.a.getD (bit - j) 0 % clueQ
    else (clueQ - ct.a.getD (clueN + bit - j) 0 % clueQ) % clueQ
  | impertinent => 0

/-- SOURCE: unifomr.rs:967-973 -/
def SlotClue.bSlot (bit : ℕ) : SlotClue → ℕ
  | clue ct => ct.b.getD bit 0 % clueQ
  | impertinent => clueQ / 2 % clueQ

/-- A value for every slot, zero where there is no clue. -/
def slotVector (value : SlotClue → ℕ) (clues : List SlotClue) : List ℕ :=
  (clues.take packingDegree).map value ++ List.replicate (packingDegree - clues.length) 0

/-- Encode slot values on the server. -/
def encodeSlots (values : List ℕ) : Except OmrError S.Plaintext :=
  (S.encode values).mapError .evaluationError

/-- SOURCE: unifomr.rs:961-964 -/
def addTerm (acc : Option S.Ciphertext) (term : S.Ciphertext) : S.Ciphertext :=
  match acc with
  | none => term
  | some prev => S.add prev term

/-- The sum over the coefficients from the `j`-th on, on top of `acc`.
SOURCE: unifomr.rs:942-965 -/
def accumulate (clues : List SlotClue) (bit : ℕ) :
    ℕ → List S.Ciphertext → Option S.Ciphertext → Except OmrError (Option S.Ciphertext)
  | _, [], acc => .ok acc
  | j, skCt :: skCts, acc => do
    let pt ← encodeSlots (slotVector (SlotClue.aSlot bit j) clues)
    accumulate clues bit (j + 1) skCts (some (addTerm acc (S.mulPlain skCt pt)))

/-- SOURCE: unifomr.rs:934-982 -/
def partialDecryptSimd (skCts : List S.Ciphertext) (clues : List SlotClue) (bit : ℕ) :
    Except OmrError S.Ciphertext := do
  match ← accumulate clues bit 0 (skCts.take clueN) none with
  | none => .error (.evaluationError "empty acc")
  | some acc => do
    let ptB ← encodeSlots (slotVector (SlotClue.bSlot bit) clues)
    let diff := S.subPlain acc ptB
    let neg ← encodeSlots (List.replicate packingDegree (clueQ - 1))
    pure (S.mulPlain diff neg)

/-- One ciphertext of a digest. SOURCE: unifomr.rs:918-925 -/
def bitFrame (skCts : List S.Ciphertext) (clues : List SlotClue) (bit : ℕ) :
    Except OmrError Bytes := do
  let ct ← partialDecryptSimd skCts clues bit
  let ct ← (S.switchDown ct).mapError fun e => .evaluationError ("mod-switch: " ++ e)
  pure (frame (S.toBytes ct))

/-- The clues of a chunk, one to a slot. SOURCE: unifomr.rs:908-916 -/
def slotClues (chunk : List RlweCiphertext) : List SlotClue :=
  chunk.map SlotClue.clue ++ List.replicate (packingDegree - chunk.length) .impertinent

/-- SOURCE: unifomr.rs:907-926 -/
def chunkFrames (skCts : List S.Ciphertext) (chunk : List RlweCiphertext) :
    Except OmrError Bytes := do
  let frames ← (List.range cluePlaintextBits).mapM (bitFrame skCts (slotClues chunk))
  pure frames.flatten

/-- SOURCE: unifomr.rs:835-838 -/
structure UnifOmrDetector where
  network : UInt8

/-- SOURCE: unifomr.rs:880-929 -/
def UnifOmrDetector.encodeMessages (S : BfvScheme) (detector : UnifOmrDetector)
    (detectionKey : Bytes) (messages : List RlweCiphertext) : Except OmrError Bytes := do
  let (keyNet, skCts) ← (parseDetectionKey (S := S) detectionKey).mapError .deserializationError
  if keyNet ≠ detector.network then
    .error (.invalidParameter ("detection key network 0x" ++ hexByte keyNet ++
      " does not match server network 0x" ++ hexByte detector.network))
  else if skCts.length ≠ clueN then
    .error (.invalidParameter ("expected " ++ toString clueN ++ " sk ciphertexts"))
  else do
    let chunks ← (chunksOf packingDegree messages).mapM (chunkFrames skCts)
    pure ([digestFormatVersion] ++ leBytes 4 (divCeil messages.length packingDegree) ++
      chunks.flatten)

/-! ## The client -/

/-- The range check: the centred value is within `R_PRIME` of zero.
SOURCE: unifomr.rs:696-703, unifomr.rs:757-762 -/
def inRange (raw : ℕ) : Bool :=
  let centered : ℤ := if raw > clueQ / 2 then (clueQ : ℤ) - raw else raw
  decide (centered.natAbs ≤ rPrime)

/-- SOURCE: unifomr.rs:710-731 -/
def UnifOmrClient.readDigestCt (client : UnifOmrClient S) (bytes : Bytes) :
    Except String (List ℕ × Bytes) := do
  let (ctBytes, rest) ← readFrame "truncated digest ct len" "truncated digest ct" bytes
  let ct ← labelled "digest ct: " (S.fromBytes ctBytes)
  let pt ← labelled "digest decrypt: " (S.decrypt client.detSk ct)
  let slots ← labelled "digest decode: " (S.decode pt)
  if slots.length < packingDegree then .error "digest slot count < BFV degree"
  else pure (slots, rest)

/-- One flag for each slot of a chunk: 0 if every bit is in range.
SOURCE: unifomr.rs:732-736 -/
def chunkFlags (bits : List (List ℕ)) : List ℕ :=
  (List.range packingDegree).map fun i =>
    if bits.all fun slots => inRange (slots.getD i 0) then 0 else clueQ / 2

/-- SOURCE: unifomr.rs:706-737 -/
def UnifOmrClient.readDigestChunk (client : UnifOmrClient S) (bytes : Bytes) :
    Except String (List ℕ × Bytes) := do
  let (bits, rest) ← readMany client.readDigestCt cluePlaintextBits bytes
  pure (chunkFlags bits, rest)

/-- SOURCE: unifomr.rs:667-742 -/
def UnifOmrClient.decryptDigestSlots (client : UnifOmrClient S) (digest : Bytes) :
    Except String (List ℕ) :=
  if digest.length < 5 then .error "empty digest"
  else if digest.getD 0 0 ≠ digestFormatVersion then
    .error ("unsupported UnifOMR digest version 0x" ++ hexByte (digest.getD 0 0) ++
      " (expected 0x" ++ hexByte digestFormatVersion ++ "); " ++
      "server and client must deploy from the same revision")
  else
    let chunkCount := leValue ((digest.drop 1).take 4)
    let maxChunks := divCeil maxOmrMessages packingDegree
    let body := digest.drop 5
    if maxChunks < chunkCount then
      .error ("digest chunk_count " ++ toString chunkCount ++ " exceeds max " ++
        toString maxChunks)
    else if body.length < chunkCount * (cluePlaintextBits * 4) then
      .error ("digest chunk_count " ++ toString chunkCount ++ " exceeds remaining " ++
        toString body.length ++ " bytes")
    else do
      let (flags, rest) ← readMany client.readDigestChunk chunkCount body
      if rest ≠ [] then .error "trailing digest bytes" else pure flags.flatten

/-- SOURCE: unifomr.rs:752-769 -/
def rangeCheckMatches (slots slotHeights : List ℕ) : List ℕ :=
  let out := ((slotHeights.zip slots).filter fun p => inRange p.2).map Prod.fst
  (out.mergeSort fun a b => decide (a ≤ b)).destutter (· ≠ ·)

end LightWalletd
