import LightWalletd.Computation.CrashSpec
import LightWalletd.Model.Cache

/-!
# Obsolete names

A database may still hold an attestation key, a pepper and clue keys under the names of an earlier
version. Opening it copies each of them to its present name, unless something of the right form is
there, and drops the old one. `Db.retired` is the database this comes to. A run that is cut off
leaves a database that comes to the same one, and it has overwritten nothing that counts.
-/

set_option autoImplicit false

namespace LightWalletd

open Stateful

/-! ## The database without obsolete names -/

/-- A key is 32 bytes long. -/
def isKey (bytes : Bytes) : Bool := decide (bytes.length = 32)

/-- What the present name holds in the end: its own key, else the one under the old name. -/
def retiredKey (new old : Option Bytes) : Option Bytes :=
  if new.any isKey then new
  else if old.any isKey then old
  else new

/-- The clue trees once the old ones are gone. -/
def OmrRows.retired (omr : OmrRows) : OmrRows :=
  { omr with
    omrCluePubkeys := match omr.oldClueTree with
      | some old => omr.omrCluePubkeys.fill old.rows
      | none => omr.omrCluePubkeys
    oldClueTree := none
    oldClueTreeV1 := none }

/-- The server's rows once the old attest keys are gone. -/
def ServerRows.attestRetired (server : ServerRows) : ServerRows :=
  { server with
    attest := retiredKey server.attest server.oldAttestV2
    oldAttestV1 := none
    oldAttestV2 := none }

/-- The server's rows once the old pepper is gone. -/
def ServerRows.pepperRetired (server : ServerRows) : ServerRows :=
  { server with
    clueDirPepper := retiredKey server.clueDirPepper server.oldPepper
    oldPepper := none
    clueDirPepperAnchor := none
    oldPepperAnchor := none }

/-- The server's rows once no old name is left. -/
def ServerRows.retired (server : ServerRows) : ServerRows :=
  server.attestRetired.pepperRetired

/-- What is under an old name is moved where it counts, and the old names are gone. -/
def Db.retired (db : Db) : Db :=
  { db with omr := db.omr.retired, server := db.server.retired }

/-- Without an old key the new one stays. -/
@[simp] theorem retiredKey_none (new : Option Bytes) : retiredKey new none = new := by
  simp [retiredKey]

/-- A new key of the right length is not replaced. -/
theorem retiredKey_of_isKey {new : Option Bytes} (old : Option Bytes) (h : new.any isKey = true) :
    retiredKey new old = new := if_pos h

/-- A key that is moved stays. -/
@[simp] theorem retiredKey_retiredKey (new old : Option Bytes) :
    retiredKey (retiredKey new old) old = retiredKey new old := by
  unfold retiredKey
  by_cases hnew : new.any isKey
  · rw [if_pos hnew, if_pos hnew]
  by_cases hold : old.any isKey
  · rw [if_neg hnew, if_pos hold, if_pos hold]
  · rw [if_neg hnew, if_neg hold, if_neg hnew, if_neg hold]

/-! ## What a cut run leaves -/

/-- `db'` comes to the same as `db` in the end, and no key and no clue row of `db` was changed. -/
structure Db.Toward (db db' : Db) : Prop where
  retired_eq : db'.retired = db.retired
  attest_eq : db.server.attest.any isKey = true → db'.server.attest = db.server.attest
  pepper_eq : db.server.clueDirPepper.any isKey = true →
    db'.server.clueDirPepper = db.server.clueDirPepper
  clue_eq : ∀ k value, db.omr.omrCluePubkeys.get k = some value →
    db'.omr.omrCluePubkeys.get k = some value

namespace Db.Toward

variable {db db₁ db₂ : Db}

/-- Nothing has to be done to stay. -/
theorem refl (db : Db) : db.Toward db := ⟨rfl, fun _ => rfl, fun _ => rfl, fun _ _ h => h⟩

/-- Steps toward the renamed database add up. -/
theorem trans (h₁ : db.Toward db₁) (h₂ : db₁.Toward db₂) : db.Toward db₂ where
  retired_eq := h₂.retired_eq.trans h₁.retired_eq
  attest_eq h := by
    have h' := h₁.attest_eq h
    rw [h₂.attest_eq (by rwa [h']), h']
  pepper_eq h := by
    have h' := h₁.pepper_eq h
    rw [h₂.pepper_eq (by rwa [h']), h']
  clue_eq k value h := h₂.clue_eq k value (h₁.clue_eq k value h)

/-- Changes of the server rows that keep what the names come to. -/
theorem server {server : ServerRows} (h : server.retired = db.server.retired)
    (hattest : db.server.attest.any isKey = true → server.attest = db.server.attest)
    (hpepper : db.server.clueDirPepper.any isKey = true →
      server.clueDirPepper = db.server.clueDirPepper) : db.Toward { db with server := server } where
  retired_eq := congrArg (fun rows : ServerRows => { db.retired with server := rows }) h
  attest_eq := hattest
  pepper_eq := hpepper
  clue_eq _ _ h := h

/-- Changes of the clue rows that keep what the trees come to. -/
theorem clues {omr : OmrRows} (h : omr.retired = db.omr.retired)
    (hclue : ∀ k value, db.omr.omrCluePubkeys.get k = some value →
      omr.omrCluePubkeys.get k = some value) : db.Toward { db with omr := omr } where
  retired_eq := congrArg (fun rows : OmrRows => { db.retired with omr := rows }) h
  attest_eq _ := rfl
  pepper_eq _ := rfl
  clue_eq := hclue

end Db.Toward

/-! ## The writes -/

/-- Moving the attest key is a step toward it. -/
theorem toward_attest (db : Db) : db.Toward
    (metaAttest.upd (retiredKey db.server.attest db.server.oldAttestV2) db) := by
  refine .server ?_ (retiredKey_of_isKey _) fun _ => rfl
  simp [ServerRows.retired, ServerRows.attestRetired, ServerRows.pepperRetired]

/-- Removing the first attest key is a step toward it. -/
theorem toward_oldAttestV1 (db : Db) : db.Toward (metaOldAttestV1.upd none db) :=
  .server rfl (fun _ => rfl) fun _ => rfl

/-- The old name goes once its key is moved. -/
theorem toward_oldAttestV2 {db : Db}
    (h : retiredKey db.server.attest db.server.oldAttestV2 = db.server.attest) :
    db.Toward (metaOldAttestV2.upd none db) := by
  refine .server ?_ (fun _ => rfl) fun _ => rfl
  simp [ServerRows.retired, ServerRows.attestRetired, ServerRows.pepperRetired, h]

/-- Moving the pepper is a step toward it. -/
theorem toward_pepper (db : Db) : db.Toward
    (metaClueDirPepper.upd (retiredKey db.server.clueDirPepper db.server.oldPepper) db) := by
  refine .server ?_ (fun _ => rfl) (retiredKey_of_isKey _)
  simp [ServerRows.retired, ServerRows.attestRetired, ServerRows.pepperRetired]

/-- Removing the old pepper is one where the new one is in place. -/
theorem toward_oldPepper {db : Db}
    (h : retiredKey db.server.clueDirPepper db.server.oldPepper = db.server.clueDirPepper) :
    db.Toward (metaOldPepper.upd none db) := by
  refine .server ?_ (fun _ => rfl) fun _ => rfl
  simp [ServerRows.retired, ServerRows.attestRetired, ServerRows.pepperRetired, h]

/-- Removing the pepper's anchor is a step toward it. -/
theorem toward_pepperAnchor (db : Db) : db.Toward (metaClueDirPepperAnchor.upd none db) :=
  .server rfl (fun _ => rfl) fun _ => rfl

/-- Removing the old anchor is a step toward it. -/
theorem toward_oldPepperAnchor (db : Db) : db.Toward (metaOldPepperAnchor.upd none db) :=
  .server rfl (fun _ => rfl) fun _ => rfl

/-- Removing the first clue tree is a step toward it. -/
theorem toward_oldClueTreeV1 (db : Db) : db.Toward (oldClueTreeV1.upd none db) :=
  .clues rfl fun _ _ h => h

/-- A row of the old tree may be copied. -/
theorem toward_fillRow (db : Db) {old : OrderedMap Bytes32 Bytes}
    (hold : db.omr.oldClueTree = some old) {row : Bytes32 × Bytes} (hrow : row ∈ old.rows) :
    db.Toward (omrCluePubkeys.upd (db.omr.omrCluePubkeys.fillRow row) db) := by
  refine .clues ?_ ?_
  · simp only [OmrRows.retired, hold, OrderedMap.fill_fillRow hrow]
  · intro k value h
    rw [OrderedMap.get_fillRow, h, Option.some_or]

/-- The old tree goes once its rows are copied. -/
theorem toward_oldClueTree {db : Db} {old : OrderedMap Bytes32 Bytes}
    (hold : db.omr.oldClueTree = some old)
    (h : db.omr.omrCluePubkeys.fill old.rows = db.omr.omrCluePubkeys) :
    db.Toward (oldClueTree.upd none db) := by
  refine .clues ?_ fun _ _ h => h
  simp only [OmrRows.retired, hold, h]

/-! ## A run -/

section Run

variable {C : Cache → Prop} {s : Cache}

/-- The state once the old value is moved. -/
def Cache.withKey (old new : Cell Bytes) (s : Cache) : Cache :=
  { s with db := new.upd (retiredKey (new.sel s.db) (old.sel s.db)) s.db }

/-- The copy that `moveKey` makes. -/
def copyKey (old new : Cell Bytes) : CacheM Unit := do
  match ← old.get with
  | some value => if value.length = 32 then new.insert value else pure ()
  | none => pure ()

/-- `move_key` copies the old key unless the new one has the right length. -/
theorem moveKey_eq (old new : Cell Bytes) : moveKey old new =
    new.get.bind fun row => if row.any isKey then pure () else copyKey old new := by
  unfold moveKey
  refine congrArg new.get.bind (funext fun row => ?_)
  cases row with
  | none => rfl
  | some bytes =>
    by_cases hlen : bytes.length = 32
    · simp [isKey, hlen]
    · have hmissing : decide (bytes.length ≠ 32) = true := decide_eq_true hlen
      have hrow : ¬ (some bytes).any isKey = true := by simp [isKey, hlen]
      show (if decide (bytes.length ≠ 32) = true then _ else _) = _
      rw [if_pos hmissing, if_neg hrow]
      rfl

/-- The old value is moved by one write, or by none. -/
theorem moveKey_spec {old new : Cell Bytes} (hself : new.upd (new.sel s.db) s.db = s.db)
    (hs : C s) (hmoved : C (s.withKey old new)) :
    Prog.CrashSpec (· = s) (moveKey old new) (fun _ t => t = s.withKey old new) C := by
  have hstay : retiredKey (new.sel s.db) (old.sel s.db) = new.sel s.db →
      Prog.CrashSpec (· = s) (pure () : CacheM Unit) (fun _ t => t = s.withKey old new) C := by
    intro h
    refine .ret ?_
    rintro t rfl
    refine ⟨hs, ?_⟩
    unfold Cache.withKey
    rw [h, hself]
  have hmove : ∀ value, retiredKey (new.sel s.db) (old.sel s.db) = some value →
      Prog.CrashSpec (· = s) (new.insert value) (fun _ t => t = s.withKey old new) C := by
    intro value h
    have hstate : s.withKey old new = { s with db := new.upd (some value) s.db } := by
      unfold Cache.withKey
      rw [h]
    rw [hstate] at hmoved ⊢
    exact .put hs hmoved
  rw [moveKey_eq]
  refine .read ?_
  by_cases hnew : (new.sel s.db).any isKey = true
  · rw [if_pos hnew]
    exact hstay (retiredKey_of_isKey _ hnew)
  rw [if_neg hnew]
  refine .read ?_
  cases hrow : old.sel s.db with
  | none => exact hstay (by rw [hrow, retiredKey_none])
  | some value =>
    by_cases hlen : value.length = 32
    · simp only [if_pos hlen]
      exact hmove value (by simp [retiredKey, hnew, hrow, isKey, hlen])
    · simp only [if_neg hlen]
      exact hstay (by simp [retiredKey, hnew, hrow, isKey, hlen])

/-- A removal: before it or after it. -/
theorem remove_spec {V : Type} (c : Cell V) (hs : C s)
    (hremoved : C { s with db := c.upd none s.db }) : Prog.CrashSpec (· = s) c.remove
      (fun _ t => t = { s with db := c.upd none s.db }) C :=
  .put hs hremoved

/-- An insert: before it or after it. -/
theorem insert_spec {K V : Type} [LinearOrder K] (t : Tree K V) (k : K) (v : V) (hs : C s)
    (hinserted : C { s with db := t.upd ((t.sel s.db).insert k v) s.db }) :
    Prog.CrashSpec (· = s) (t.insert k v)
      (fun _ u => u = { s with db := t.upd ((t.sel s.db).insert k v) s.db }) C :=
  .put hs hinserted

variable {db : Db} {rest : CacheM Unit} {Q : Unit → Cache → Prop}

/-- The attestation key is moved before its old name goes. -/
theorem retireAttest_spec (hs : db.Toward s.db)
    (hrest : ∀ s', s' = { s with db.server := s.db.server.attestRetired } → db.Toward s'.db →
      Prog.CrashSpec (· = s') rest Q fun t => db.Toward t.db) :
    Prog.CrashSpec (· = s) ((moveKey metaOldAttestV2 metaAttest).bind fun _ =>
      metaOldAttestV1.remove.bind fun _ => metaOldAttestV2.remove.bind fun _ => rest) Q
      fun t => db.Toward t.db := by
  have h1 : db.Toward (s.withKey metaOldAttestV2 metaAttest).db := hs.trans (toward_attest s.db)
  refine (moveKey_spec rfl hs h1).bind fun _ => ?_
  have hsettled : retiredKey (s.withKey metaOldAttestV2 metaAttest).db.server.attest
      (s.withKey metaOldAttestV2 metaAttest).db.server.oldAttestV2 =
        (s.withKey metaOldAttestV2 metaAttest).db.server.attest := retiredKey_retiredKey _ _
  generalize hmoved : s.withKey metaOldAttestV2 metaAttest = s₁ at h1 hsettled ⊢
  have h2 := h1.trans (toward_oldAttestV1 s₁.db)
  refine (remove_spec metaOldAttestV1 h1 h2).bind fun _ => ?_
  have h3 : db.Toward (metaOldAttestV2.upd none (metaOldAttestV1.upd none s₁.db)) :=
    h2.trans (toward_oldAttestV2 hsettled)
  refine (remove_spec metaOldAttestV2 h2 h3).bind fun _ => ?_
  exact hrest _ (by rw [← hmoved]; rfl) h3

/-- The pepper is moved before its old name goes. -/
theorem retirePepper_spec (hs : db.Toward s.db)
    (hrest : ∀ s', s' = { s with db.server := s.db.server.pepperRetired } → db.Toward s'.db →
      Prog.CrashSpec (· = s') rest Q fun t => db.Toward t.db) :
    Prog.CrashSpec (· = s) ((moveKey metaOldPepper metaClueDirPepper).bind fun _ =>
      metaOldPepper.remove.bind fun _ => metaClueDirPepperAnchor.remove.bind fun _ =>
      metaOldPepperAnchor.remove.bind fun _ => rest) Q fun t => db.Toward t.db := by
  have h1 : db.Toward (s.withKey metaOldPepper metaClueDirPepper).db :=
    hs.trans (toward_pepper s.db)
  refine (moveKey_spec rfl hs h1).bind fun _ => ?_
  have hsettled : retiredKey (s.withKey metaOldPepper metaClueDirPepper).db.server.clueDirPepper
      (s.withKey metaOldPepper metaClueDirPepper).db.server.oldPepper =
        (s.withKey metaOldPepper metaClueDirPepper).db.server.clueDirPepper :=
    retiredKey_retiredKey _ _
  generalize hmoved : s.withKey metaOldPepper metaClueDirPepper = s₁ at h1 hsettled ⊢
  have h2 := h1.trans (toward_oldPepper hsettled)
  refine (remove_spec metaOldPepper h1 h2).bind fun _ => ?_
  have h3 := h2.trans (toward_pepperAnchor (metaOldPepper.upd none s₁.db))
  refine (remove_spec metaClueDirPepperAnchor h2 h3).bind fun _ => ?_
  have h4 := h3.trans
    (toward_oldPepperAnchor (metaClueDirPepperAnchor.upd none (metaOldPepper.upd none s₁.db)))
  refine (remove_spec metaOldPepperAnchor h3 h4).bind fun _ => ?_
  exact hrest _ (by rw [← hmoved]; rfl) h4

/-- The body of the loop over the old tree. -/
def copyClueRow (row : Bytes32 × Bytes) : CacheM Unit := do
  match ← omrCluePubkeys.get row.1 with
  | none => omrCluePubkeys.insert row.1 row.2
  | some _ => pure ()

/-- Copying a row of the old clue tree. -/
theorem copyClueRow_spec {row : Bytes32 × Bytes} (hs : C s)
    (hcopied : C { s with
      db := omrCluePubkeys.upd (s.db.omr.omrCluePubkeys.fillRow row) s.db }) :
    Prog.CrashSpec (· = s) (copyClueRow row) (fun _ t => t = { s with
      db := omrCluePubkeys.upd (s.db.omr.omrCluePubkeys.fillRow row) s.db }) C := by
  unfold OrderedMap.fillRow at hcopied ⊢
  unfold copyClueRow
  refine .read ?_
  simp only [omrCluePubkeys]
  cases hget : s.db.omr.omrCluePubkeys.get row.1 with
  | none =>
    rw [hget] at hcopied
    exact insert_spec omrCluePubkeys row.1 row.2 hs hcopied
  | some value =>
    refine .ret ?_
    rintro t rfl
    exact ⟨hs, rfl⟩

/-- The loop fills the new tree, one row after the other. -/
theorem copyClues_spec {old : OrderedMap Bytes32 Bytes} (hold : s.db.omr.oldClueTree = some old)
    (hs : db.Toward s.db) :
    Prog.CrashSpec (· = s)
      (Prog.forEach copyClueRow old.rows)
      (fun _ t => db.Toward t.db ∧ t = { s with
        db := omrCluePubkeys.upd (s.db.omr.omrCluePubkeys.fill old.rows) s.db })
      fun t => db.Toward t.db := by
  -- What is left to copy brings the tree to where the whole loop does.
  let J : List (Bytes32 × Bytes) → Cache → Prop := fun rows t =>
    (∀ row ∈ rows, row ∈ old.rows) ∧ db.Toward t.db ∧ ∃ m,
      t = { s with db := omrCluePubkeys.upd m s.db } ∧
        m.fill rows = s.db.omr.omrCluePubkeys.fill old.rows
  have hbody : ∀ row rows, Prog.CrashSpec (J (row :: rows)) (copyClueRow row)
      (fun _ => J rows) fun t => db.Toward t.db := by
    intro row rows
    refine .of_forall ?_
    rintro t ⟨hmem, ht, m, rfl, hm⟩
    have hrow : row ∈ old.rows := hmem row List.mem_cons_self
    have hfill : db.Toward (omrCluePubkeys.upd (m.fillRow row) s.db) :=
      ht.trans (toward_fillRow (omrCluePubkeys.upd m s.db) hold hrow)
    refine (copyClueRow_spec ht hfill).mono (fun _ h => h) ?_
    rintro _ t rfl
    exact ⟨fun r hr => hmem r (List.mem_cons_of_mem _ hr), hfill, _, rfl, hm⟩
  refine (Prog.CrashSpec.forEach (fun t h => h.2.1) hbody old.rows).mono ?_ ?_
  · rintro t rfl
    exact ⟨fun _ h => h, hs, _, rfl, rfl⟩
  · rintro _ t ⟨-, ht, m, rfl, hm⟩
    have hm : m = s.db.omr.omrCluePubkeys.fill old.rows := hm
    rw [hm] at ht ⊢
    exact ⟨ht, rfl⟩

/-- The part of `retireObsoleteNames` about clue keys. -/
def retireClues : CacheM Unit := do
  match ← oldClueTree.get with
  | some old => do
    Prog.forEach copyClueRow old.rows
    oldClueTree.remove
  | none => pure ()
  match ← oldClueTreeV1.get with
  | some _ => oldClueTreeV1.remove
  | none => pure ()

/-- Retiring the first clue tree, if there is one. -/
theorem retireClueTreeV1_spec (hs : db.Toward s.db) : Prog.CrashSpec (· = s)
    (oldClueTreeV1.get.bind fun
      | some _ => oldClueTreeV1.remove
      | none => pure ())
    (fun _ t => t = { s with db.omr.oldClueTreeV1 := none }) fun t => db.Toward t.db := by
  refine .read ?_
  cases hold : oldClueTreeV1.sel s.db with
  | none =>
    refine .ret ?_
    rintro t rfl
    refine ⟨hs, ?_⟩
    rw [← hold]
    rfl
  | some old => exact remove_spec oldClueTreeV1 hs (hs.trans (toward_oldClueTreeV1 s.db))

/-- The old trees go once the rows of the later one are copied. -/
theorem retireClues_spec (hs : db.Toward s.db) :
    Prog.CrashSpec (· = s) retireClues (fun _ t => t = { s with db.omr := s.db.omr.retired })
      fun t => db.Toward t.db := by
  unfold retireClues
  refine .read ?_
  simp only [oldClueTree]
  cases hold : s.db.omr.oldClueTree with
  | none =>
    have hretired : s.db.omr.retired = { s.db.omr with oldClueTreeV1 := none } := by
      simp [OmrRows.retired, hold]
    rw [hretired]
    exact retireClueTreeV1_spec hs
  | some old =>
    have hretired : s.db.omr.retired = { s.db.omr with
        omrCluePubkeys := s.db.omr.omrCluePubkeys.fill old.rows
        oldClueTree := none
        oldClueTreeV1 := none } := by
      simp [OmrRows.retired, hold]
    rw [hretired]
    refine (copyClues_spec hold hs).bind fun _ => .of_forall ?_
    rintro t ⟨ht, rfl⟩
    have hdropped : db.Toward (oldClueTree.upd none
        (omrCluePubkeys.upd (s.db.omr.omrCluePubkeys.fill old.rows) s.db)) :=
      ht.trans (toward_oldClueTree hold (OrderedMap.fill_fill _ _))
    exact (remove_spec oldClueTree ht hdropped).bind fun _ => retireClueTreeV1_spec hdropped

/-- A run from any database on the way to `db.retired` stays on it and ends there. -/
theorem retireObsoleteNames_spec (hs : db.Toward s.db) :
    Prog.CrashSpec (· = s) retireObsoleteNames (fun _ t => t = { s with db := db.retired })
      fun t => db.Toward t.db := by
  unfold retireObsoleteNames
  refine retireAttest_spec hs ?_
  rintro s₁ hs₁ h₁
  refine retirePepper_spec h₁ ?_
  rintro s₂ hs₂ h₂
  refine (retireClues_spec h₂).mono (fun _ h => h) ?_
  rintro _ t rfl
  rw [hs₂, hs₁, ← hs.retired_eq]
  rfl

end Run

/-- A run that ends changes nothing but the names. -/
theorem retireObsoleteNames_run (s : Cache) :
    retireObsoleteNames.run s = (.ok (), { s with db := s.db.retired }) := by
  obtain ⟨-, _, _, hrun, rfl⟩ := retireObsoleteNames_spec (.refl s.db) s rfl
  exact hrun

/-! ## Cut runs -/

/-- Opening the database that is left on disk. -/
def reopened (s : Cache) : Cache := .unopened s.db

/-- No key under a present name and no clue row of `db` is changed in `db'`. -/
def Db.Keeps (db db' : Db) : Prop :=
  (∀ key, db.server.attest = some key → key.length = 32 → db'.server.attest = some key) ∧
  (∀ pepper, db.server.clueDirPepper = some pepper → pepper.length = 32 →
    db'.server.clueDirPepper = some pepper) ∧
  ∀ k value, db.omr.omrCluePubkeys.get k = some value →
    db'.omr.omrCluePubkeys.get k = some value

/-- A step toward the renamed database keeps what it holds. -/
theorem Db.Toward.keeps {db db' : Db} (h : db.Toward db') : db.Keeps db' := by
  refine ⟨?_, ?_, h.clue_eq⟩
  · intro key hkey hlen
    rw [h.attest_eq (by simp [hkey, isKey, hlen]), hkey]
  · intro pepper hpepper hlen
    rw [h.pepper_eq (by simp [hpepper, isKey, hlen]), hpepper]

/-- From a database on the way, the next run stays on it and ends where the first would have. -/
theorem reopened_spec (db : Db) :
    Prog.CrashSpec (fun s => ∃ left, s = .unopened left ∧ db.Toward left) retireObsoleteNames
      (fun _ t => t = .unopened db.retired) fun t => db.Toward t.db := by
  refine .of_forall ?_
  rintro s ⟨left, rfl, hleft⟩
  exact retireObsoleteNames_spec hleft

/-- The last write of a run leaves the retired database. -/
theorem toward_retired (db : Db) : db.Toward db.retired := by
  obtain ⟨htrace, _, _, hrun, rfl⟩ := reopened_spec db _ ⟨db, rfl, .refl db⟩
  have hlast := htrace _ (Prog.exec_mem_trace retireObsoleteNames (.unopened db))
  rw [Prog.exec, hrun] at hlast
  exact hlast

/-- Runs that are cut off anywhere change no key and no clue row, and a run that ends after them
leaves what it would have left at first. -/
theorem retireObsoleteNames_crash_safe {db db' : Db}
    (h : Prog.CutRuns retireObsoleteNames reopened (.unopened db) (.unopened db')) :
    retireObsoleteNames.run (.unopened db') = (.ok (), .unopened db.retired) ∧
      retireObsoleteNames.run (.unopened db) = (.ok (), .unopened db.retired) ∧
      db.Keeps db' ∧ db.Keeps db.retired := by
  have hstart : ∃ left, Cache.unopened db = .unopened left ∧ db.Toward left :=
    ⟨db, rfl, .refl db⟩
  have hreopen : ∀ s, db.Toward s.db → ∃ left, reopened s = .unopened left ∧ db.Toward left :=
    fun s hs => ⟨s.db, rfl, hs⟩
  obtain ⟨_, _, hrun', rfl⟩ := (reopened_spec db).after_cutRuns hreopen h hstart
  obtain ⟨_, _, hrun, rfl⟩ := (reopened_spec db).after_cutRuns hreopen .refl hstart
  obtain ⟨left, hleft, htoward⟩ := (reopened_spec db).cutRuns hreopen h hstart
  cases hleft
  exact ⟨hrun', hrun, htoward.keeps, (toward_retired db).keeps⟩

/-- A database of an earlier version. -/
def Db.earlier : Db :=
  { Db.empty with
    omr.oldClueTree := some (.insert .empty (.fill 1) [7])
    server.oldAttestV2 := some (List.replicate 32 3)
    server.oldPepper := some (List.replicate 32 4) }

/-- A run is cut off between the copy of the attestation key and the removal of its old name. -/
theorem retireObsoleteNames_crash_safe_earlier :
    let cut := metaAttest.upd (some (List.replicate 32 3)) Db.earlier
    retireObsoleteNames.run (.unopened cut) = (.ok (), .unopened Db.earlier.retired) ∧
      Db.earlier.Keeps cut := by
  have hcut : Prog.CutRuns retireObsoleteNames reopened (.unopened Db.earlier)
      (.unopened (metaAttest.upd (some (List.replicate 32 3)) Db.earlier)) := by
    refine .single ⟨.unopened (metaAttest.upd (some (List.replicate 32 3)) Db.earlier), ?_, rfl⟩
    exact List.mem_cons_of_mem _ List.mem_cons_self
  obtain ⟨hrun, -, hkeeps, -⟩ := retireObsoleteNames_crash_safe hcut
  exact ⟨hrun, hkeeps⟩

end LightWalletd
