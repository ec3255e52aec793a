import LightWalletd.Computation.OrderedMap
import LightWalletd.Computation.Prog
import LightWalletd.Model.Types

/-!
# The store

What the cache keeps: the sled trees on disk and the Money tree in memory. A tree
whose keys are heights is keyed by the height itself, since four big-endian bytes
sort as the number they spell. The keys of the metadata tree are cells, grouped
with the trees they are updated with.

Every sled call is one atomic command. A write that sled refuses surfaces as a
cache error.
-/

set_option autoImplicit false

namespace LightWalletd

open Stateful

/-! ## Rows -/

/-- The rows derived from blocks, and the tip keys of the metadata tree.
SOURCE: cache.rs:114-124, cache.rs:87-88 -/
structure BlockRows where
  compactBlocks : OrderedMap ℕ (Stored CompactBlock)
  blockHashes : OrderedMap ℕ (Stored Bytes32)
  hashToHeight : OrderedMap Bytes32 (Stored ℕ)
  nullifiers : OrderedMap ℕ (Stored (List Bytes32))
  coins : OrderedMap ℕ (Stored (List Bytes32))
  tipHeight : Option (Stored ℕ)
  tipHash : Option (Stored Bytes32)
  deriving DecidableEq

/-- The Money-tree snapshots, and the tip-tree keys of the metadata tree.
SOURCE: cache.rs:125-127, cache.rs:89-90 -/
structure TreeRows where
  merkleSnapshots : OrderedMap ℕ (Stored MerkleTree)
  tipMerkleTree : Option (Stored MerkleTree)
  tipMerkleHeight : Option (Stored ℕ)
  deriving DecidableEq

/-- The clue trees, the two trees kept under obsolete names included.
SOURCE: cache.rs:128-135, cache.rs:209-210 -/
structure OmrRows where
  omrClueHints : OrderedMap Bytes32 Bytes
  omrClueHintMeta : OrderedMap Bytes32 Bytes
  omrCluePubkeys : OrderedMap Bytes32 Bytes
  omrMetadataEnc : OrderedMap Bytes32 Bytes
  oldClueTree : Option (OrderedMap Bytes32 Bytes)
  oldClueTreeV1 : Option (OrderedMap Bytes32 Bytes)
  deriving DecidableEq

/-- The remaining keys of the metadata tree.
SOURCE: cache.rs:91-93, cache.rs:204-208, cache.rs:242 -/
structure ServerRows where
  cacheFormat : Option (Stored ℕ)
  clueDirPepper : Option Bytes
  clueDirPepperAnchor : Option Bytes
  attest : Option Bytes
  oldAttestV1 : Option Bytes
  oldAttestV2 : Option Bytes
  oldPepper : Option Bytes
  oldPepperAnchor : Option Bytes
  deriving DecidableEq

/-- What is on disk. -/
structure Db where
  blocks : BlockRows
  trees : TreeRows
  omr : OmrRows
  server : ServerRows
  deriving DecidableEq

/-- No block rows, and no tip. -/
def BlockRows.empty : BlockRows :=
  ⟨.empty, .empty, .empty, .empty, .empty, none, none⟩

/-- No tree rows. -/
def TreeRows.empty : TreeRows := ⟨.empty, none, none⟩

/-- No clue rows. -/
def OmrRows.empty : OmrRows := ⟨.empty, .empty, .empty, .empty, none, none⟩

/-- No keys, and no format stamp. -/
def ServerRows.empty : ServerRows := ⟨none, none, none, none, none, none, none, none⟩

/-- A database that was never written. -/
def Db.empty : Db := ⟨.empty, .empty, .empty, .empty⟩

/-- SOURCE: cache.rs:105-111 -/
structure LiveTipTree where
  height : Option ℕ
  tree : MerkleTree
  loadFailed : Bool
  deriving DecidableEq

/-- The open cache: what is on disk and what is in memory.
SOURCE: cache.rs:113-143 -/
structure Cache where
  db : Db
  tipTree : LiveTipTree
  omrHintSweepUnix : ℕ
  deriving DecidableEq

/-! ## Commands -/

/-- Programs over the cache, with its errors. -/
abbrev CacheM := Prog LightWalletError Cache

/-- The error of a sled call that fails.
SOURCE: error.rs:78-82 -/
def sledError : LightWalletError := .cacheError "sled"

/-- The error of a sled call that fails while derived rows are cleared.
SOURCE: cache.rs:270-272 -/
def clearError : LightWalletError := .cacheError "clear derived cache: sled"

/-- A sled tree, by where it lies in the database. -/
structure Tree (K V : Type) [LinearOrder K] where
  sel : Db → OrderedMap K V
  upd : OrderedMap K V → Db → Db

namespace Tree

variable {K V : Type} [LinearOrder K] (t : Tree K V)

/-- `Tree::get`. -/
def get (k : K) : CacheM (Option V) := .get fun s => (t.sel s.db).get k

/-- `Tree::insert`. -/
def insert (k : K) (v : V) : CacheM Unit :=
  .put sledError fun s => { s with db := t.upd ((t.sel s.db).insert k v) s.db }

/-- Remove the row under `k` and return it. -/
def remove (k : K) : CacheM (Option V) :=
  .swap sledError (fun s => (t.sel s.db).get k)
    fun s => { s with db := t.upd ((t.sel s.db).remove k) s.db }

/-- `Tree::clear`. -/
def clear : CacheM Unit := .put clearError fun s => { s with db := t.upd .empty s.db }

/-- The rows whose key satisfies `p`, in key order. -/
def range (p : K → Bool) : CacheM (List (K × V)) :=
  .get fun s => ((t.sel s.db).filter p).rows

/-- The keys that satisfy `p`, in order. -/
def keys (p : K → Bool) : CacheM (List K) := .get fun s => ((t.sel s.db).filter p).keys

/-- The row of the greatest key at or below `k`. -/
def lastUpTo (k : K) : CacheM (Option (K × V)) := .get fun s => (t.sel s.db).lastUpTo k

/-- A lookup, run at once. -/
@[simp] theorem run_get (k : K) (s : Cache) :
    (t.get k).run s = (.ok ((t.sel s.db).get k), s) := rfl

/-- An insert, run at once. -/
@[simp] theorem run_insert (k : K) (v : V) (s : Cache) :
    (t.insert k v).run s = (.ok (), { s with db := t.upd ((t.sel s.db).insert k v) s.db }) :=
  rfl

/-- A removal, run at once: it returns the old row. -/
@[simp] theorem run_remove (k : K) (s : Cache) :
    (t.remove k).run s =
      (.ok ((t.sel s.db).get k), { s with db := t.upd ((t.sel s.db).remove k) s.db }) := rfl

/-- A clear, run at once. -/
@[simp] theorem run_clear (s : Cache) :
    t.clear.run s = (.ok (), { s with db := t.upd .empty s.db }) := rfl

/-- The rows of a range, read at once. -/
@[simp] theorem run_range (p : K → Bool) (s : Cache) :
    (t.range p).run s = (.ok ((t.sel s.db).filter p).rows, s) := rfl

/-- The keys of a range, read at once. -/
@[simp] theorem run_keys (p : K → Bool) (s : Cache) :
    (t.keys p).run s = (.ok ((t.sel s.db).filter p).keys, s) := rfl

/-- The last row up to a key, read at once. -/
@[simp] theorem run_lastUpTo (k : K) (s : Cache) :
    (t.lastUpTo k).run s = (.ok ((t.sel s.db).lastUpTo k), s) := rfl

end Tree

/-- A key of the metadata tree, by where its value lies in the database. -/
structure Cell (V : Type) where
  sel : Db → Option V
  upd : Option V → Db → Db

namespace Cell

variable {V : Type} (c : Cell V)

/-- `Tree::get` of a metadata key. -/
def get : CacheM (Option V) := .get fun s => c.sel s.db

/-- `Tree::insert` of a metadata key. -/
def insert (v : V) : CacheM Unit := .put sledError fun s => { s with db := c.upd (some v) s.db }

/-- `Tree::remove` of a metadata key. -/
def remove : CacheM Unit := .put sledError fun s => { s with db := c.upd none s.db }

/-- `remove` while derived rows are cleared. -/
def clear : CacheM Unit := .put clearError fun s => { s with db := c.upd none s.db }

/-- A metadata key, read at once. -/
@[simp] theorem run_get (s : Cache) : c.get.run s = (.ok (c.sel s.db), s) := rfl

/-- A metadata key, written at once. -/
@[simp] theorem run_insert (v : V) (s : Cache) :
    (c.insert v).run s = (.ok (), { s with db := c.upd (some v) s.db }) := rfl

/-- A metadata key, removed at once. -/
@[simp] theorem run_remove (s : Cache) :
    c.remove.run s = (.ok (), { s with db := c.upd none s.db }) := rfl

/-- A metadata key, cleared at once. -/
@[simp] theorem run_clear (s : Cache) :
    c.clear.run s = (.ok (), { s with db := c.upd none s.db }) := rfl

end Cell

/-- An error found without touching the store. -/
def liftExcept {α : Type} : Except LightWalletError α → CacheM α
  | .ok a => .ret a
  | .error e => .fail e

/-- A result that is known is returned at once. -/
@[simp] theorem run_liftExcept {α : Type} (r : Except LightWalletError α) (s : Cache) :
    (liftExcept r).run s = (r, s) := by
  cases r <;> rfl

/-! ## Names -/

section Names

/-- The blocks by height. -/
def compactBlocks : Tree ℕ (Stored CompactBlock) :=
  ⟨(·.blocks.compactBlocks), fun m db => { db with blocks.compactBlocks := m }⟩

/-- The block hashes by height. -/
def blockHashes : Tree ℕ (Stored Bytes32) :=
  ⟨(·.blocks.blockHashes), fun m db => { db with blocks.blockHashes := m }⟩

/-- The heights by block hash. -/
def hashToHeight : Tree Bytes32 (Stored ℕ) :=
  ⟨(·.blocks.hashToHeight), fun m db => { db with blocks.hashToHeight := m }⟩

/-- The nullifiers by height. -/
def nullifiers : Tree ℕ (Stored (List Bytes32)) :=
  ⟨(·.blocks.nullifiers), fun m db => { db with blocks.nullifiers := m }⟩

/-- The coins by height. -/
def coins : Tree ℕ (Stored (List Bytes32)) :=
  ⟨(·.blocks.coins), fun m db => { db with blocks.coins := m }⟩

/-- The height of the tip. -/
def metaTipHeight : Cell (Stored ℕ) :=
  ⟨(·.blocks.tipHeight), fun v db => { db with blocks.tipHeight := v }⟩

/-- The hash of the tip. -/
def metaTipHash : Cell (Stored Bytes32) :=
  ⟨(·.blocks.tipHash), fun v db => { db with blocks.tipHash := v }⟩

/-- The Money trees by height. -/
def merkleSnapshots : Tree ℕ (Stored MerkleTree) :=
  ⟨(·.trees.merkleSnapshots), fun m db => { db with trees.merkleSnapshots := m }⟩

/-- The Money tree of the tip. -/
def metaTipMerkleTree : Cell (Stored MerkleTree) :=
  ⟨(·.trees.tipMerkleTree), fun v db => { db with trees.tipMerkleTree := v }⟩

/-- The height of that tree. -/
def metaTipMerkleHeight : Cell (Stored ℕ) :=
  ⟨(·.trees.tipMerkleHeight), fun v db => { db with trees.tipMerkleHeight := v }⟩

/-- The pending clues by transaction. -/
def omrClueHints : Tree Bytes32 Bytes :=
  ⟨(·.omr.omrClueHints), fun m db => { db with omr.omrClueHints := m }⟩

/-- When the pending clues of a transaction were last written. -/
def omrClueHintMeta : Tree Bytes32 Bytes :=
  ⟨(·.omr.omrClueHintMeta), fun m db => { db with omr.omrClueHintMeta := m }⟩

/-- The registered clue keys by payment key. -/
def omrCluePubkeys : Tree Bytes32 Bytes :=
  ⟨(·.omr.omrCluePubkeys), fun m db => { db with omr.omrCluePubkeys := m }⟩

/-- The pending metadata by transaction. -/
def omrMetadataEnc : Tree Bytes32 Bytes :=
  ⟨(·.omr.omrMetadataEnc), fun m db => { db with omr.omrMetadataEnc := m }⟩

/-- The tree `lightwalletd_omr_clue_pubkeys_v2`, when it exists. -/
def oldClueTree : Cell (OrderedMap Bytes32 Bytes) :=
  ⟨(·.omr.oldClueTree), fun v db => { db with omr.oldClueTree := v }⟩

/-- The tree `lightwalletd_omr_clue_pubkeys_v1`, when it exists. -/
def oldClueTreeV1 : Cell (OrderedMap Bytes32 Bytes) :=
  ⟨(·.omr.oldClueTreeV1), fun v db => { db with omr.oldClueTreeV1 := v }⟩

/-- The format stamp. -/
def metaCacheFormat : Cell (Stored ℕ) :=
  ⟨(·.server.cacheFormat), fun v db => { db with server.cacheFormat := v }⟩

/-- The pepper of the clue directory. -/
def metaClueDirPepper : Cell Bytes :=
  ⟨(·.server.clueDirPepper), fun v db => { db with server.clueDirPepper := v }⟩

/-- The anchor of the pepper, which is no longer written. -/
def metaClueDirPepperAnchor : Cell Bytes :=
  ⟨(·.server.clueDirPepperAnchor), fun v db => { db with server.clueDirPepperAnchor := v }⟩

/-- `unifomr_dir_attest_sk`. -/
def metaAttest : Cell Bytes := ⟨(·.server.attest), fun v db => { db with server.attest := v }⟩

/-- `unifomr_dir_attest_sk_v1`. -/
def metaOldAttestV1 : Cell Bytes :=
  ⟨(·.server.oldAttestV1), fun v db => { db with server.oldAttestV1 := v }⟩

/-- `unifomr_dir_attest_sk_v2`. -/
def metaOldAttestV2 : Cell Bytes :=
  ⟨(·.server.oldAttestV2), fun v db => { db with server.oldAttestV2 := v }⟩

/-- `unifomr_clue_dir_pepper_v1`. -/
def metaOldPepper : Cell Bytes :=
  ⟨(·.server.oldPepper), fun v db => { db with server.oldPepper := v }⟩

/-- `unifomr_clue_dir_pepper_anchor_v1`. -/
def metaOldPepperAnchor : Cell Bytes :=
  ⟨(·.server.oldPepperAnchor), fun v db => { db with server.oldPepperAnchor := v }⟩

end Names

end LightWalletd
