import LightWalletd.Model.Types

/-!
# UnifOMR clues

The wire form of a clue and its validation. A clue is a ring element pair `(a, b)` of
dimension `CLUE_N` over the integers modulo `CLUE_Q`; the wire form carries both as eight-byte
words behind a header and in front of a four-byte checksum. The hash function is a parameter.
-/

set_option autoImplicit false

namespace LightWalletd

/-- SOURCE: unifomr.rs:39 -/
def schemeUnifomr : UInt8 := 5

/-- SOURCE: unifomr.rs:42 -/
def clueVersion : UInt8 := 1

/-- SOURCE: unifomr.rs:85 -/
def clueN : ℕ := 1024

/-- SOURCE: unifomr.rs:89 -/
def clueQ : ℕ := 1032193

/-- SOURCE: unifomr.rs:121 -/
def unifomrMaxClueSize : ℕ := 32768

/-- SOURCE: unifomr.rs:183-187 -/
structure RlweCiphertext where
  a : List ℕ
  b : List ℕ
  deriving DecidableEq

/-- A byte as two hexadecimal digits, `\x7b:02x\x7d`. -/
def hexByte (b : UInt8) : String :=
  String.ofList [Nat.digitChar (b.toNat / 16), Nat.digitChar (b.toNat % 16)]

/-- `n` words of eight bytes. -/
def readWords : ℕ → Bytes → List ℕ
  | 0, _ => []
  | n + 1, bytes => leValue (bytes.take 8) :: readWords n (bytes.drop 8)

/-- The checksum of a clue: four bytes of the hash of what stands before it. -/
def clueChecksum (blake3 : Bytes → Bytes32) (body : Bytes) : Bytes := (blake3 body).1.take 4

/-- SOURCE: unifomr.rs:376-391 -/
def serializeClue (blake3 : Bytes → Bytes32) (ct : RlweCiphertext) : Bytes :=
  let body := [clueVersion, schemeUnifomr] ++ leBytes 2 ct.a.length ++
    ct.a.flatMap (leBytes 8) ++ ct.b.flatMap (leBytes 8)
  body ++ clueChecksum blake3 body

/-- SOURCE: unifomr.rs:393-431 -/
def deserializeClue (blake3 : Bytes → Bytes32) (bytes : Bytes) : Except String RlweCiphertext :=
  if bytes.length < 7 then .error "clue too short"
  else
    let version := bytes.getD 0 0
    let scheme := bytes.getD 1 0
    if version ≠ clueVersion then .error ("bad clue version " ++ hexByte version)
    else if scheme ≠ schemeUnifomr then
      .error ("not UnifOMR clue (scheme " ++ hexByte scheme ++ ")")
    else
      let n := leValue ((bytes.drop 2).take 2)
      if n = 0 ∨ 4096 < n then .error ("invalid clue n=" ++ toString n)
      else
        let expected := 4 + 16 * n + 4
        if bytes.length ≠ expected then
          .error ("clue length " ++ toString bytes.length ++ " != expected " ++ toString expected)
        else if clueChecksum blake3 (bytes.take (bytes.length - 4)) ≠
            bytes.drop (bytes.length - 4) then .error "clue checksum mismatch"
        else .ok ⟨readWords n (bytes.drop 4), readWords n (bytes.drop (4 + 8 * n))⟩

/-- SOURCE: unifomr.rs:434-458 -/
def validateUnifomrClue (blake3 : Bytes → Bytes32) (clue : Bytes) : Except String Unit :=
  if clue.isEmpty then .error "Clue cannot be empty"
  else if unifomrMaxClueSize < clue.length then
    .error ("Clue too large: " ++ toString clue.length ++ " bytes (max " ++
      toString unifomrMaxClueSize ++ ")")
  else do
    let ct ← deserializeClue blake3 clue
    if ct.a.length ≠ clueN ∨ ct.b.length ≠ clueN then
      .error ("Unexpected clue dimension " ++ toString ct.a.length ++ " (expected " ++
        toString clueN ++ ")")
    else if (ct.a ++ ct.b).any fun x => decide (clueQ ≤ x) then
      .error "Clue coefficient out of range (possible poison)"
    else .ok ()

end LightWalletd
