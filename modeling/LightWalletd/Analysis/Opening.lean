import LightWalletd.Analysis.BlockRows
import LightWalletd.Analysis.NameMigration

/-!
# Opening a cache

What `Cache.new` makes of a database. A database of the current format, or one that was
never stamped, keeps its block rows and its tree rows, gets a snapshot of its tip tree
if it had none, and its tip tree is copied into memory. A database of another format
loses both kinds of rows, and the tree in memory is left without the sentinel.
-/

set_option autoImplicit false

namespace LightWalletd

open Stateful

/-- The tree rows once the tip tree is indexed. -/
def TreeRows.indexed (t : TreeRows) : TreeRows :=
  match t.tipMerkleHeight, t.tipMerkleTree with
  | some (.value height), some data => match t.merkleSnapshots.get height with
    | none => { t with merkleSnapshots := t.merkleSnapshots.insert height data }
    | some _ => t
  | _, _ => t

/-- The tree in memory once the tip tree is loaded over `live`. -/
def TreeRows.loaded (t : TreeRows) (live : LiveTipTree) : LiveTipTree :=
  match t.tipMerkleHeight, t.tipMerkleTree with
  | some (.value height), some (.value tree) => ⟨some height, tree, false⟩
  | some (.value _), some (.raw _) => ⟨none, emptyTipTree, true⟩
  | _, _ => live

/-- The tree in memory before anything is loaded. -/
def LiveTipTree.fresh : LiveTipTree := ⟨none, emptyTipTree, false⟩

/-- The database is of the current format or was never stamped. -/
def Db.Current (db : Db) : Prop :=
  db.server.cacheFormat = none ∨ db.server.cacheFormat = some (.value cacheFormatVersion)

/-! ## The steps -/

/-- `get_tip_tree_state` reads both keys of the tip tree. -/
theorem getTipTreeState_run (s : Cache) :
    getTipTreeState.run s = (.ok (match s.db.trees.tipMerkleHeight, s.db.trees.tipMerkleTree with
      | some (.value height), some data => some (height, data)
      | _, _ => none), s) := by
  unfold getTipTreeState
  rw [Prog.bind_eq, Prog.run_bind_of_ok (Cell.run_get metaTipMerkleHeight s)]
  simp only [metaTipMerkleHeight]
  rcases s.db.trees.tipMerkleHeight with _ | height | bytes
  · rfl
  · simp only [Prog.bind_eq]
    rw [Prog.run_bind_of_ok (Cell.run_get metaTipMerkleTree s)]
    simp only [metaTipMerkleTree]
    cases s.db.trees.tipMerkleTree <;> rfl
  · rfl

/-- `index_existing_tip_snapshot` writes the tip tree as a snapshot, if there is one. -/
theorem indexExistingTipSnapshot_run (s : Cache) :
    indexExistingTipSnapshot.run s = (.ok (), s.setTrees s.db.trees.indexed) := by
  obtain ⟨⟨blocks, ⟨snaps, tree, height⟩, omr, server⟩, live, sweep⟩ := s
  unfold indexExistingTipSnapshot TreeRows.indexed
  rw [Prog.bind_eq, Prog.run_bind_of_ok (getTipTreeState_run _)]
  rcases height with _ | height | bytes
  · rfl
  · cases tree with
    | none => rfl
    | some data =>
      simp only [Prog.bind_eq]
      rw [Prog.run_bind_of_ok (Tree.run_get merkleSnapshots height _)]
      simp only [merkleSnapshots]
      cases snaps.get height <;> rfl
  · rfl

/-- `load_live_tip_from_disk` loads the tip tree, if there is one. -/
theorem loadLiveTipFromDisk_run (s : Cache) :
    loadLiveTipFromDisk.run s = (.ok (), s.setLive (s.db.trees.loaded s.tipTree)) := by
  unfold loadLiveTipFromDisk TreeRows.loaded
  rw [Prog.bind_eq, Prog.run_bind_of_ok (getTipTreeState_run s)]
  rcases s.db.trees.tipMerkleHeight with _ | height | bytes
  · rfl
  · rcases s.db.trees.tipMerkleTree with _ | tree | bytes <;> rfl
  · rfl

/-- A tip that is there and decodes opens. -/
theorem verifyTipReadable_run {s : Cache} (hs : s.db.blocks.Sound) :
    verifyTipReadable.run s = (.ok (), s) := by
  obtain ⟨tip, htip⟩ := hs.readTip
  unfold verifyTipReadable
  rw [Prog.bind_eq, Prog.run_bind, getTip_run, htip]
  rcases tip with _ | ⟨t, hash⟩
  · rfl
  · have hread : ∃ block, (getCompactBlock t).run s = (.ok block, s) := by
      cases hrow : s.db.blocks.compactBlocks.get t with
      | none => exact ⟨none, getCompactBlock_run_of_none hrow⟩
      | some row =>
        obtain ⟨block, rfl, -⟩ := hs.block t row hrow
        exact ⟨some block, getCompactBlock_run_of_value hrow⟩
    obtain ⟨block, hblock⟩ := hread
    have hattempt : (getCompactBlock t).attempt.run s = (.ok (.ok block), s) := by
      rw [Prog.run_attempt, hblock]
    simp only [Prog.bind_eq]
    rw [Prog.run_bind_of_ok hattempt]
    rfl

/-- A database of the current format is stamped again. -/
theorem ensureCacheFormat_run_current {s : Cache} (h : s.db.Current) :
    ensureCacheFormat.run s = (.ok (), { s with
      db := { s.db with server.cacheFormat := some (.value cacheFormatVersion) } }) := by
  have hget : metaCacheFormat.get.run s = (.ok s.db.server.cacheFormat, s) := rfl
  unfold ensureCacheFormat
  rw [Prog.bind_eq, Prog.run_bind_of_ok hget]
  rcases h with h | h
  · rw [h]
    rfl
  · have hself : s = { s with
        db := { s.db with server.cacheFormat := some (.value cacheFormatVersion) } } := by
      rw [← h]
    rw [h]
    exact congrArg (Prod.mk (Except.ok ())) hself

/-- The database without the rows derived from blocks, stamped with the current format. -/
def Db.cleared (db : Db) : Db :=
  { db with
    blocks := .empty
    trees := .empty
    server.cacheFormat := some (.value cacheFormatVersion) }

/-- The tree in memory has no sentinel after a clear. -/
theorem ensureCacheFormat_run_other {s : Cache} (h : ¬ s.db.Current) :
    ensureCacheFormat.run s = (.ok (), { s with
      db := s.db.cleared
      tipTree := ⟨none, .new, false⟩ }) := by
  have hget : metaCacheFormat.get.run s = (.ok s.db.server.cacheFormat, s) := rfl
  unfold ensureCacheFormat
  rw [Prog.bind_eq, Prog.run_bind_of_ok hget]
  unfold Db.Current at h
  rcases hrow : s.db.server.cacheFormat with _ | version | bytes
  · exact absurd (Or.inl hrow) h
  · have hne : version ≠ cacheFormatVersion := fun heq => h (Or.inr (by rw [hrow, heq]))
    simp only [if_pos hne]
    rfl
  · rfl

/-! ## The whole -/

/-- The cache with its tip tree indexed and copied into memory. -/
def Cache.reloaded (s : Cache) : Cache :=
  (s.setTrees s.db.trees.indexed).setLive (s.db.trees.indexed.loaded s.tipTree)

/-- The last steps, on a cache whose tip is readable. -/
theorem openSteps_run (now : ℕ) {s s₁ s₂ : Cache}
    (hnames : retireObsoleteNames.run s = (.ok (), s₁))
    (hformat : ensureCacheFormat.run s₁ = (.ok (), s₂)) (hsound : s₂.db.blocks.Sound) :
    (openSteps now).run s = (.ok (), (pruneExpiredOmrClueHints now).exec s₂.reloaded) := by
  have hload : loadLiveTipFromDisk.run (s₂.setTrees s₂.db.trees.indexed) = (.ok (), s₂.reloaded) :=
    loadLiveTipFromDisk_run _
  have hprune := (pruneExpiredOmrClueHints now).run_attempt s₂.reloaded
  unfold openSteps
  simp only [Prog.bind_eq]
  rw [Prog.run_bind_of_ok hnames, Prog.run_bind_of_ok hformat,
    Prog.run_bind_of_ok (verifyTipReadable_run hsound),
    Prog.run_bind_of_ok (indexExistingTipSnapshot_run s₂), Prog.run_bind_of_ok hload,
    Prog.run_bind_of_ok hprune]
  rfl

/-- Sweeping pending clues changes nothing else. -/
theorem pruneExpiredOmrClueHints_besideOmr (now : ℕ) (s : Cache) :
    ((pruneExpiredOmrClueHints now).exec s).besideOmr = s.besideOmr :=
  (pruneExpiredOmrClueHints_keeps now (p := s.besideOmr)).exec rfl

/-- A database that opens as it is, before pending clues are swept. -/
def Db.asOpened (db : Db) : Cache :=
  (Cache.unopened { db.retired with
    server.cacheFormat := some (.value cacheFormatVersion) }).reloaded

/-- `Cache::new` on a database of the current format. -/
theorem new_eq_of_current (now : ℕ) {db : Db} (hcur : db.Current) (hsound : db.blocks.Sound) :
    Cache.new now db = .ok ((pruneExpiredOmrClueHints now).exec db.asOpened) := by
  have hcur₁ : db.retired.Current := hcur
  have hrun := openSteps_run now (retireObsoleteNames_run (Cache.unopened db))
    (ensureCacheFormat_run_current hcur₁) hsound
  unfold Cache.new
  rw [hrun]
  rfl

/-- Opening a database of the current format keeps its blocks and its tree. -/
theorem new_of_current (now : ℕ) {db : Db} (hcur : db.Current) (hsound : db.blocks.Sound) :
    ∃ s, Cache.new now db = .ok s ∧ s.db.blocks = db.blocks ∧ s.db.trees = db.trees.indexed ∧
      s.db.Current ∧ s.tipTree = db.trees.indexed.loaded .fresh := by
  have hbeside := pruneExpiredOmrClueHints_besideOmr now db.asOpened
  refine ⟨_, new_eq_of_current now hcur hsound, congrArg Prod.fst hbeside,
    congrArg (fun q => q.2.1) hbeside, Or.inr ?_, congrArg (fun q => q.2.2.2) hbeside⟩
  exact congrArg (fun q => q.2.2.1.cacheFormat) hbeside

/-- Opening a database of another format empties the derived rows. -/
theorem new_of_other {now : ℕ} {db : Db} (hother : ¬ db.Current) :
    ∃ s, Cache.new now db = .ok s ∧ s.db.blocks = .empty ∧ s.db.trees = .empty ∧
      s.db.Current ∧ s.tipTree = ⟨none, .new, false⟩ := by
  have hnames := retireObsoleteNames_run (Cache.unopened db)
  have hother₁ : ¬ db.retired.Current := hother
  have hrun := openSteps_run now hnames (ensureCacheFormat_run_other hother₁) BlockRows.sound_empty
  have hbeside := pruneExpiredOmrClueHints_besideOmr now (Cache.reloaded
    ⟨db.retired.cleared, ⟨none, .new, false⟩, 0⟩)
  refine ⟨_, ?_, congrArg Prod.fst hbeside, congrArg (fun q => q.2.1) hbeside, Or.inr ?_,
    congrArg (fun q => q.2.2.2) hbeside⟩
  · unfold Cache.new
    rw [hrun]
    rfl
  · exact congrArg (fun q => q.2.2.1.cacheFormat) hbeside

/-- Opening an empty database. -/
theorem new_empty {now : ℕ} {s : Cache} (h : Cache.new now .empty = .ok s) :
    s.db.blocks = .empty ∧ s.db.trees = .empty ∧ s.db.Current ∧ s.tipTree = .fresh := by
  obtain ⟨s', hnew, h1, h2, h3, h4⟩ :=
    new_of_current now (Or.inl rfl : Db.empty.Current) BlockRows.sound_empty
  rw [h] at hnew
  cases hnew
  exact ⟨h1, h2, h3, h4⟩

/-- A cache opened on an empty database at time 0. -/
def Cache.initial : Cache := (openSteps 0).exec (Cache.unopened .empty)

/-- `Cache::new` on an empty database. -/
theorem new_initial : Cache.new 0 .empty = .ok Cache.initial := by
  obtain ⟨s, hnew, -⟩ :=
    new_of_current 0 (Or.inl rfl : Db.empty.Current) BlockRows.sound_empty
  have hinit : Cache.initial = ((openSteps 0).run (Cache.unopened .empty)).2 := rfl
  rw [hinit]
  unfold Cache.new at hnew ⊢
  rcases hrun : (openSteps 0).run (Cache.unopened .empty) with ⟨_ | _, s'⟩
  · rw [hrun] at hnew
    cases hnew
  · rfl

end LightWalletd
