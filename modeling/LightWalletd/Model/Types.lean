import Mathlib.Algebra.GroupWithZero.Nat
import Mathlib.Order.Basic
import Mathlib.Data.List.Lex
import Mathlib.Tactic.Common

/-!
# Data types

The values the lightwallet server keeps: compact blocks with their transactions
and outputs, 32-byte strings, field elements and the Money tree. Heights are
naturals; the operations whose `u32` arithmetic can reach the end of the type use
`saturatingAdd` and `wrappingAdd`. The Money tree is its leaf sequence.
-/

set_option autoImplicit false

namespace LightWalletd

/-! ## Bytes and numbers -/

/-- Byte strings. -/
abbrev Bytes := List UInt8

/-- `[u8; 32]`. -/
abbrev Bytes32 := { b : Bytes // b.length = 32 }

/-- The 32 bytes `[b; 32]`. -/
def Bytes32.fill (b : UInt8) : Bytes32 := ⟨List.replicate 32 b, List.length_replicate⟩

/-- Byte strings compare byte by byte, as the keys of a sled tree do. -/
instance : LinearOrder Bytes32 :=
  LinearOrder.lift' (fun b : Bytes32 => b.1.map UInt8.toNat) (by
    intro a b h
    exact Subtype.ext ((List.map_injective_iff.mpr fun _ _ => UInt8.toNat_inj.mp) h))

/-- The largest `u32`. -/
def u32Max : ℕ := 4294967295

/-- The largest `u64`. -/
def u64Max : ℕ := 18446744073709551615

/-- `u32::saturating_add`. -/
def saturatingAdd (a b : ℕ) : ℕ := min (a + b) u32Max

/-- `+` on `u32` in a release build. -/
def wrappingAdd (a b : ℕ) : ℕ := (a + b) % (u32Max + 1)

/-- The number with the little-endian digits `bytes`. -/
def leValue : Bytes → ℕ
  | [] => 0
  | b :: bs => b.toNat + 256 * leValue bs

/-- The `n` little-endian digits of a number. -/
def leBytes : ℕ → ℕ → Bytes
  | 0, _ => []
  | n + 1, v => UInt8.ofNat v :: leBytes n (v / 256)

/-! ## Errors -/

/-- The errors of the modelled functions. `panicked` is no error value: it stands
for the panic of a slice out of range, which ends the task.
SOURCE: error.rs:22-59 -/
inductive LightWalletError
  | rpcError (msg : String)
  | cacheError (msg : String)
  | serializationError (msg : String)
  | processingError (msg : String)
  | connectionError (msg : String)
  | invalidBlockRange (start last : ℕ)
  | panicked
  deriving DecidableEq

/-- The text of an error. A panic has no text of its own. SOURCE: error.rs:22-60 -/
def LightWalletError.display : LightWalletError → String
  | rpcError msg => "darkfid RPC error: " ++ msg
  | cacheError msg => "Cache error: " ++ msg
  | serializationError msg => "Serialization error: " ++ msg
  | processingError msg => "Block processing error: " ++ msg
  | connectionError msg => "Connection error: " ++ msg
  | invalidBlockRange start last =>
    "Invalid block range: start=" ++ toString start ++ " end=" ++ toString last
  | panicked => ""

/-- SOURCE: error.rs:70-73 -/
def LightWalletError.isConnection : LightWalletError → Bool
  | .connectionError _ => true
  | _ => false

/-- A stored value: the value its bytes decode to, or bytes that do not decode.
Encoding followed by decoding is the identity, so a row the server wrote is a `value`. -/
inductive Stored (α : Type)
  | value (a : α)
  | raw (bytes : Bytes)
  deriving DecidableEq

/-! ## Field elements and the Money tree -/

/-- The order of the Pallas base field. -/
def pallasModulus : ℕ := 0x40000000000000000000000000000000224698fc094cf91b992d30ed00000001

/-- An element of `pallas::Base` by its canonical little-endian representation. -/
structure Base where
  repr : Bytes32
  canonical : leValue repr.1 < pallasModulus
  deriving DecidableEq

/-- `pallas::Base::ZERO`. -/
def Base.zero : Base := ⟨Bytes32.fill 0, by decide⟩

/-- `MerkleNode::from_bytes`: only canonical representations are accepted. -/
def Base.fromBytes (bytes : Bytes32) : Option Base :=
  if h : leValue bytes.1 < pallasModulus then some ⟨bytes, h⟩ else none

/-- The Money tree as the sequence of its leaves. -/
structure MerkleTree where
  leaves : List Base
  deriving DecidableEq

namespace MerkleTree

/-- `MerkleTree::new`. -/
def new : MerkleTree := ⟨[]⟩

/-- `MerkleTree::append`. -/
def append (t : MerkleTree) (node : Base) : MerkleTree := ⟨t.leaves ++ [node]⟩

/-- The leaves as the byte strings they were made from. -/
def leafBytes (t : MerkleTree) : List Bytes32 := t.leaves.map Base.repr

end MerkleTree

/-! ## Compact blocks -/

/-- SOURCE: compact_block.rs:39-70 -/
structure CompactOutput where
  coin : Bytes32
  encryptedNote : Bytes
  valueCommit : Bytes
  tokenCommit : Bytes32
  omrClue : Bytes
  omrMetadataEnc : Bytes
  funcCode : UInt8
  deriving DecidableEq

/-- SOURCE: compact_block.rs:73-78 -/
structure CompactFuncEvent where
  txHash : Bytes32
  funcCode : UInt8
  deriving DecidableEq

/-- SOURCE: compact_block.rs:89-95 -/
structure CompactDaoCallRecord where
  txHash : Bytes32
  kind : ℕ
  bulla : Bytes
  payload : Bytes
  deriving DecidableEq

/-- SOURCE: compact_block.rs:100-114 -/
structure CompactTx where
  txHash : Bytes32
  outputs : List CompactOutput
  nullifiers : List Bytes32
  fee : ℕ
  deriving DecidableEq

/-- SOURCE: compact_block.rs:127-152 -/
structure CompactBlock where
  height : ℕ
  hash : Bytes32
  prevHash : Bytes32
  timestamp : ℕ
  txs : List CompactTx
  daoCalls : List CompactDaoCallRecord
  funcEvents : List CompactFuncEvent
  deriving DecidableEq

namespace CompactBlock

/-- The coin commitments of a block in transaction, then output order. -/
def allCoins (block : CompactBlock) : List Bytes32 :=
  block.txs.flatMap fun tx => tx.outputs.map CompactOutput.coin

/-- The nullifiers of a block in transaction order. -/
def allNullifiers (block : CompactBlock) : List Bytes32 :=
  block.txs.flatMap CompactTx.nullifiers

/-- Every coin is the representation of a field element. -/
def CanonicalCoins (block : CompactBlock) : Prop :=
  ∀ coin ∈ block.allCoins, leValue coin.1 < pallasModulus

/-- Whether all coins are canonical is decided coin by coin. -/
instance (block : CompactBlock) : Decidable block.CanonicalCoins :=
  inferInstanceAs (Decidable (∀ coin ∈ block.allCoins, leValue coin.1 < pallasModulus))

/-- A small block for concrete runs: one transaction with an output for each of `coins`,
every byte string filled with one byte. -/
def sample (height : ℕ) (hash : UInt8) (coins nullifiers : List UInt8) : CompactBlock where
  height := height
  hash := Bytes32.fill hash
  prevHash := Bytes32.fill 0
  timestamp := 0
  txs := [{
    txHash := Bytes32.fill hash
    outputs := coins.map fun coin =>
      ⟨Bytes32.fill coin, [], [], Bytes32.fill 0, [], [], 0⟩
    nullifiers := nullifiers.map Bytes32.fill
    fee := 0 }]
  daoCalls := []
  funcEvents := []

end CompactBlock

end LightWalletd
