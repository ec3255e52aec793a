import LightWalletd.Model.Detection
import Mathlib.Data.UInt

/-!
# Private retrieval

The payloads of a window are a table of limbs: column `j` holds the `j`-th limb of every
payload. A client encrypts which rows it wants, one ciphertext for each stripe of the window,
the server multiplies a column with it, and the client reads its rows column by column.
-/

set_option autoImplicit false

namespace LightWalletd

/-! ## Limbs -/

/-- SOURCE: pir_server.rs:33 -/
def maxPirLimbs : ℕ := 4096

/-- SOURCE: pir_server.rs:37 -/
def pirLimbBytes : ℕ := 2

/-- SOURCE: pir_server.rs:40 -/
def maxPirStripes : ℕ := 8

/-- SOURCE: pir_server.rs:77 -/
def maxPirPayloadBytes : ℕ := (maxPirLimbs - 1) * pirLimbBytes

/-- `usize::next_power_of_two`. -/
def nextPowerOfTwo (n : ℕ) : ℕ := 2 ^ Nat.clog 2 n

/-- SOURCE: pir_server.rs:47-50 -/
def paddedLimbCount (needed : ℕ) : ℕ :=
  let n := min (max needed 8) maxPirLimbs
  min (nextPowerOfTwo n) maxPirLimbs

/-- SOURCE: pir_server.rs:80-86 -/
def pirPayloadLimbCount (len : ℕ) : Option ℕ :=
  if len = 0 ∨ maxPirPayloadBytes < len then none else some (1 + divCeil len pirLimbBytes)

/-- `Vec::resize` with zero. -/
def resizeZero {α : Type} [Zero α] (n : ℕ) (xs : List α) : List α :=
  xs.take n ++ List.replicate (n - xs.length) 0

/-- SOURCE: pir_server.rs:336-340 -/
def chunkToLimb (chunk : Bytes) : ℕ := leValue (resizeZero pirLimbBytes chunk)

/-- SOURCE: pir_server.rs:327-334 -/
def bytesToLimbs (data : Bytes) : List ℕ :=
  data.length :: (chunksOf pirLimbBytes data).map chunkToLimb

/-- SOURCE: pir_server.rs:342-349 -/
def limbsToBytes (limbs : List ℕ) (len : ℕ) : Bytes :=
  (limbs.flatMap (leBytes pirLimbBytes)).take len

/-- SOURCE: pir_server.rs:355-364 -/
def payloadLimb (data : Bytes) (limbIndex : ℕ) : ℕ :=
  if limbIndex = 0 then min data.length (maxPirPayloadBytes + 1)
  else
    let rest := data.drop ((limbIndex - 1) * pirLimbBytes)
    if rest.isEmpty then 0 else chunkToLimb (rest.take (min rest.length pirLimbBytes))

/-- SOURCE: pir_server.rs:367-372 -/
def limbColumn (payloads : List Bytes) (limbIndex : ℕ) : List ℕ :=
  payloads.map fun p => payloadLimb p limbIndex

/-- SOURCE: pir_server.rs:89-98 -/
def decodeLengthPrefixedLimbs (limbs : List ℕ) : Bytes :=
  match limbs.head?.bind pirPayloadLimbCount with
  | none => []
  | some need =>
    if limbs.length < need then []
    else limbsToBytes ((limbs.take need).drop 1) (limbs.getD 0 0)

/-- SOURCE: pir_server.rs:104-115 -/
def assemblePayloads (indices : List ℕ) (limbCols : List (List ℕ)) : List Bytes :=
  indices.map fun idx => decodeLengthPrefixedLimbs (limbCols.map fun col => col.getD idx 0)

/-! ## The server -/

/-- SOURCE: pir_server.rs:69-74 -/
def sealpirStripeCount (windowSize degree : ℕ) : ℕ :=
  if windowSize = 0 then 1 else max (divCeil windowSize degree) 1

variable {S : BfvScheme}

/-- SOURCE: pir_server.rs:132-145 -/
def evaluateLimb (query : S.Ciphertext) (db : List ℕ) : Except String S.Ciphertext :=
  if packingDegree < db.length then
    .error ("db length " ++ toString db.length ++ " exceeds BFV degree " ++ toString packingDegree)
  else do
    let pt ← labelled "PIR db encode: " (S.encode (resizeZero packingDegree db))
    pure (S.mulPlain query pt)

/-- SOURCE: pir_server.rs:147-152 -/
def evaluateLimbBytes (S : BfvScheme) (queryBytes : Bytes) (db : List ℕ) :
    Except String Bytes := do
  let query ← labelled "PIR query deserialize: " (S.fromBytes queryBytes)
  let _ ← labelled "PIR query: " (checkFreshCiphertext query)
  let ct ← evaluateLimb query db
  pure (S.toBytes ct)

/-- The part of a column that belongs to a stripe, filled up with zeros.
SOURCE: pir_server.rs:171-179 -/
def stripeDb (db : List ℕ) (windowSize s : ℕ) : List ℕ :=
  let start := s * packingDegree
  if windowSize ≤ start then List.replicate packingDegree 0
  else
    let stop := min (min (start + packingDegree) windowSize) db.length
    resizeZero packingDegree (if start ≤ stop then (db.drop start).take (stop - start) else [])

/-- SOURCE: pir_server.rs:155-183 -/
def evaluateSealpirStripes (S : BfvScheme) (queries : List Bytes) (db : List ℕ)
    (windowSize : ℕ) : Except String (List Bytes) :=
  let stripes := sealpirStripeCount windowSize packingDegree
  if queries.length ≠ stripes then
    .error ("expected " ++ toString stripes ++ " stripe queries, got " ++ toString queries.length)
  else queries.zipIdx.mapM fun q => evaluateLimbBytes S q.1 (stripeDb db windowSize q.2)

/-! ## The client -/

/-- SOURCE: pir_server.rs:187-191 -/
structure BatchPirClient (S : BfvScheme) where
  secretKey : S.SecretKey
  publicKey : S.PublicKey

namespace BatchPirClient

/-- SOURCE: pir_server.rs:210-219 -/
def encryptSelection (client : BatchPirClient S) (selection : List ℕ) (r : S.Random) :
    Except String Bytes := do
  let pt ← labelled "PIR query encode: " (S.encode selection)
  let ct ← labelled "PIR query encrypt: " (S.encrypt client.publicKey pt r)
  pure (S.toBytes ct)

/-- Mark the row `idx` if it is in stripe `s`. SOURCE: pir_server.rs:250-252 -/
def selectRow (s : ℕ) (selection : List ℕ) (idx : ℕ) : List ℕ :=
  if idx / packingDegree = s then selection.set (idx % packingDegree) 1 else selection

/-- SOURCE: pir_server.rs:248-253 -/
def stripeSelection (indices : List ℕ) (s : ℕ) : List ℕ :=
  indices.foldl (selectRow s) (List.replicate packingDegree 0)

/-- SOURCE: pir_server.rs:225-257 -/
def generateSealpirQueries (client : BatchPirClient S) (draws : ℕ → S.Random)
    (indices : List ℕ) (windowSize : ℕ) : Except String (List Bytes) :=
  if indices.isEmpty then .error "empty PIR index set"
  else
    let stripes := sealpirStripeCount windowSize packingDegree
    if maxPirStripes < stripes then
      .error ("window " ++ toString windowSize ++ " needs " ++ toString stripes ++
        " stripes (max " ++ toString maxPirStripes ++ ")")
    else match indices.find? fun idx => decide (windowSize ≤ idx) with
      | some idx =>
        .error ("index " ++ toString idx ++ " out of window " ++ toString windowSize)
      | none => (List.range stripes).mapM fun s =>
        client.encryptSelection (stripeSelection indices s) (draws s)

/-- SOURCE: pir_server.rs:282-290 -/
def decryptResponse (client : BatchPirClient S) (response : Bytes) : Except String (List ℕ) := do
  let ct ← labelled "PIR response: " (S.fromBytes response)
  let pt ← labelled "PIR decrypt: " (S.decrypt client.secretKey ct)
  labelled "PIR decode: " (S.decode pt)

/-- Put slot `i` of stripe `s` in its place. SOURCE: pir_server.rs:311-315 -/
def placeSlot (windowSize s : ℕ) (slots out : List ℕ) (i : ℕ) : List ℕ :=
  let g := s * packingDegree + i
  if windowSize ≤ g then out else out.set g (slots.getD i 0)

/-- SOURCE: pir_server.rs:309-316 -/
def placeStripe (windowSize s : ℕ) (slots out : List ℕ) : List ℕ :=
  (List.range packingDegree).foldl (placeSlot windowSize s slots) out

/-- The responses from stripe `s` on. SOURCE: pir_server.rs:307-318 -/
def placeStripes (client : BatchPirClient S) (windowSize : ℕ) :
    ℕ → List Bytes → List ℕ → Except String (List ℕ)
  | _, [], out => .ok out
  | s, response :: responses, out => do
    let slots ← client.decryptResponse response
    placeStripes client windowSize (s + 1) responses (placeStripe windowSize s slots out)

/-- SOURCE: pir_server.rs:293-319 -/
def decryptSealpirStripes (client : BatchPirClient S) (responses : List Bytes)
    (windowSize : ℕ) : Except String (List ℕ) :=
  let stripes := sealpirStripeCount windowSize packingDegree
  if responses.length ≠ stripes then
    .error ("expected " ++ toString stripes ++ " stripe responses, got " ++
      toString responses.length)
  else client.placeStripes windowSize 0 responses (List.replicate windowSize 0)

/-- A client fetches a column: queries, evaluation on the server, decryption.
SOURCE: pir_server.rs:529-538 -/
def fetchColumn (client : BatchPirClient S) (draws : ℕ → S.Random) (indices : List ℕ)
    (payloads : List Bytes) (limbIndex : ℕ) : Except String (List ℕ) := do
  let windowSize := payloads.length
  let queries ← client.generateSealpirQueries draws indices windowSize
  let responses ← evaluateSealpirStripes S queries (limbColumn payloads limbIndex) windowSize
  client.decryptSealpirStripes responses windowSize

end BatchPirClient

end LightWalletd
