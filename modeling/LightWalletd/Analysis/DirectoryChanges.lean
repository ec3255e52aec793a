import LightWalletd.Analysis.NameMigration
import LightWalletd.Analysis.ServerLife
import LightWalletd.Computation.Relations

/-!
# What happens to the directory

The rows of the directory and the two secrets of the server, over the life of the server. The
poller, and the requests that are about transactions, leave them alone. What is left is a secret
drawn where there is none, a row for a registration that was checked, and the rows under obsolete
names that an opening takes over.
-/

set_option autoImplicit false

namespace LightWalletd

open Stateful

/-- The secrets and the directory, with what is left of them under obsolete names. -/
structure DirectoryRows where
  attest : Option Bytes
  pepper : Option Bytes
  keys : OrderedMap Bytes32 Bytes
  oldAttest : Option Bytes
  oldPepper : Option Bytes
  oldKeys : Option (OrderedMap Bytes32 Bytes)

/-- The rows of the clue directory in a database. -/
def Db.directory (db : Db) : DirectoryRows where
  attest := db.server.attest
  pepper := db.server.clueDirPepper
  keys := db.omr.omrCluePubkeys
  oldAttest := db.server.oldAttestV2
  oldPepper := db.server.oldPepper
  oldKeys := db.omr.oldClueTree

/-- The rows of the clue directory in a cache. -/
def Cache.directory (s : Cache) : DirectoryRows := s.db.directory

/-- The rows after an opening. -/
def DirectoryRows.retired (d : DirectoryRows) : DirectoryRows where
  attest := retiredKey d.attest d.oldAttest
  pepper := retiredKey d.pepper d.oldPepper
  keys := match d.oldKeys with
    | some old => d.keys.fill old.rows
    | none => d.keys
  oldAttest := none
  oldPepper := none
  oldKeys := none

/-! ## What leaves it alone -/

/-- The directory is `d`. -/
abbrev Apart (d : DirectoryRows) (s : Cache) : Prop := s.directory = d

section Frames

variable {d : DirectoryRows}

/-- The pending clues are apart from the directory. -/
theorem clueFrame_apart : ClueFrame (Apart d) :=
  ⟨fun _ _ h => h, fun _ _ h => h, fun _ _ h => h, fun _ _ h => h⟩

/-- The programs that leave the directory alone have the writes of the chain. -/
theorem chainCommands_apart : ChainCommands (fun _ => True) fun _ p => p.Keeps (Apart d) :=
  chainCommands_keeps (fun _ => ⟨fun _ _ _ _ h => h, fun _ _ h => h, fun _ _ _ h => h,
    fun _ _ h => h⟩) fun _ _ h => h

/-- `insert_compact_block` leaves the directory alone. -/
theorem insertCompactBlock_keeps (now : ℕ) (block : CompactBlock) :
    (insertCompactBlock now block).Keeps (Apart d) :=
  (clueFrame_apart.applyOmrClueHints now block).bind fun _ =>
    chainCommands_apart.insertMergedBlock trivial

/-- `rewind_to_height` leaves the directory alone. -/
theorem rewindToHeight_keeps (height : ℕ) : (rewindToHeight height).Keeps (Apart d) :=
  chainCommands_apart.rewindToHeight height

/-- `prune_with_retention` leaves the directory alone. -/
theorem pruneWithRetention_keeps (retentionWindow : ℕ) :
    (pruneWithRetention retentionWindow).Keeps (Apart d) :=
  chainCommands_apart.pruneWithRetention retentionWindow

/-! ### The poller -/

/-- The walk back to a common height leaves the directory alone. -/
theorem walkBack_keeps (node : Node) (h walked : ℕ) : (walkBack node h walked).Keeps (Apart d) := by
  induction h generalizing walked with
  | zero =>
    refine (readOnly_agreesAt node 0).keeps.bind fun _ => ?_
    exact (rewindToHeight_keeps 0).bind fun _ => Prog.keeps_ret _
  | succ h ih =>
    have hstop : (do
        rewindToHeight (h + 1)
        pure 0 : CacheM ℕ).Keeps (Apart d) :=
      (rewindToHeight_keeps (h + 1)).bind fun _ => Prog.keeps_ret _
    refine (readOnly_agreesAt node (h + 1)).keeps.bind fun agrees => ?_
    exact Prog.Keeps.ite hstop (Prog.Keeps.ite hstop (ih _))

/-- Fetching blocks leaves the directory alone. -/
theorem fetchBlocks_keeps (p : Poller) (node : Node) (heights : List ℕ) (blocks : ℕ) :
    (fetchBlocks p node heights blocks).Keeps (Apart d) := by
  induction heights generalizing blocks with
  | nil => exact Prog.keeps_ret _
  | cons height heights ih =>
    refine (keeps_liftExcept _).bind fun block => ?_
    refine (readOnly_breaksLink height block).keeps.bind fun breaks => ?_
    refine Prog.Keeps.ite (walkBack_keeps node _ _) ?_
    refine (keeps_liftExcept _).bind fun compactBlock => ?_
    exact (insertCompactBlock_keeps _ compactBlock).bind fun _ => ih _

/-- `poll_once` leaves the directory alone. -/
theorem pollOnce_keeps (p : Poller) (node : Node) : (pollOnce p node).Keeps (Apart d) := by
  unfold pollOnce fetchRange
  refine (keeps_liftExcept _).bind fun last => (keeps_liftExcept _).bind fun remoteHash => ?_
  refine (getCompactBlock_keeps 0).bind fun genesis => ?_
  refine Prog.Keeps.ite (fetchBlocks_keeps p node _ _) ?_
  refine getTip_keeps.bind fun cachedTip => ?_
  refine (readOnly_getBlockHash _).keeps.bind fun cachedHash => ?_
  refine (keeps_liftExcept _).bind fun atCachedTip => ?_
  cases classifyTips cachedTip last.1 remoteHash cachedHash atCachedTip with
  | idle => exact Prog.keeps_ret _
  | holdForBackendCatchup => exact Prog.keeps_ret _
  | reorgFrom height => exact walkBack_keeps node height 0
  | fetch start last => exact fetchBlocks_keeps p node _ _

/-- A turn of the poller's loop leaves the directory alone. -/
theorem pollTurn_keeps (config : ChainPollerConfig) (turn : Turn) (loop : PollLoop) :
    (pollTurn config turn loop).Keeps (Apart d) := by
  unfold pollTurn pruneIfDue
  refine (pollOnce_keeps _ turn.node).attempt.bind fun r => ?_
  cases r with
  | error e => exact Prog.keeps_ret _
  | ok blocks =>
    refine Prog.Keeps.bind (Prog.Keeps.ite ?_ (Prog.keeps_ret _)) fun _ => Prog.keeps_ret _
    exact (pruneWithRetention_keeps _).attempt.bind fun _ => Prog.keeps_ret _

/-- The poller's loop leaves the directory alone, whatever the nodes answer. -/
theorem pollLoop_keeps (config : ChainPollerConfig) (turns : List Turn) (loop : PollLoop) :
    (pollLoop config turns loop).Keeps (Apart d) := by
  induction turns generalizing loop with
  | nil => exact Prog.keeps_ret _
  | cons turn turns ih =>
    refine (pollTurn_keeps config turn loop).bind fun r => ?_
    exact (ih r.1).bind fun _ => Prog.keeps_ret _

/-! ### Opening -/

/-- Clearing a tree apart from the directory. -/
theorem Tree.keeps_clear {K V : Type} [LinearOrder K] {t : Tree K V}
    (h : ∀ s m, Apart d s → Apart d { s with db := t.upd m s.db }) : t.clear.Keeps (Apart d) :=
  Prog.keeps_put _ fun s hs => h s _ hs

/-- Clearing a key apart from the directory. -/
theorem Cell.keeps_clear {V : Type} {c : Cell V}
    (h : ∀ s v, Apart d s → Apart d { s with db := c.upd v s.db }) : c.clear.Keeps (Apart d) :=
  Prog.keeps_put _ fun s hs => h s _ hs

/-- `clear_derived_block_cache` leaves the directory alone. -/
theorem clearDerivedBlockCache_keeps : clearDerivedBlockCache.Keeps (Apart d) := by
  unfold clearDerivedBlockCache
  refine (Tree.keeps_clear fun _ _ h => h).bind fun _ => ?_
  refine (Tree.keeps_clear fun _ _ h => h).bind fun _ => ?_
  refine (Tree.keeps_clear fun _ _ h => h).bind fun _ => ?_
  refine (Tree.keeps_clear fun _ _ h => h).bind fun _ => ?_
  refine (Tree.keeps_clear fun _ _ h => h).bind fun _ => ?_
  refine (Tree.keeps_clear fun _ _ h => h).bind fun _ => ?_
  refine (Cell.keeps_clear fun _ _ h => h).bind fun _ => ?_
  refine (Cell.keeps_clear fun _ _ h => h).bind fun _ => ?_
  refine (Cell.keeps_clear fun _ _ h => h).bind fun _ => ?_
  refine (Cell.keeps_clear fun _ _ h => h).bind fun _ => ?_
  exact Prog.keeps_update fun _ h => h

/-- `ensure_cache_format` leaves the directory alone. -/
theorem ensureCacheFormat_keeps : ensureCacheFormat.Keeps (Apart d) := by
  unfold ensureCacheFormat
  refine (Prog.keeps_get _).bind fun row => ?_
  cases row with
  | none => exact Cell.keeps_insert (fun _ _ h => h) _
  | some row =>
    refine Prog.Keeps.ite ?_ (Prog.keeps_ret _)
    exact clearDerivedBlockCache_keeps.bind fun _ => Cell.keeps_insert (fun _ _ h => h) _

/-- `verify_tip_readable` leaves the directory alone. -/
theorem verifyTipReadable_keeps : verifyTipReadable.Keeps (Apart d) := by
  unfold verifyTipReadable
  refine getTip_keeps.bind fun tip => ?_
  cases tip with
  | none => exact Prog.keeps_ret _
  | some tip =>
    refine (getCompactBlock_keeps tip.1).attempt.bind fun block => ?_
    cases block with
    | ok _ => exact Prog.keeps_ret _
    | error e => exact Prog.keeps_fail e

/-- `index_existing_tip_snapshot` leaves the directory alone. -/
theorem indexExistingTipSnapshot_keeps : indexExistingTipSnapshot.Keeps (Apart d) := by
  unfold indexExistingTipSnapshot
  refine getTipTreeState_keeps.bind fun found => ?_
  cases found with
  | none => exact Prog.keeps_ret _
  | some found =>
    refine (Prog.keeps_get _).bind fun row => ?_
    cases row with
    | none => exact Tree.keeps_insert (fun _ _ h => h) _ _
    | some row => exact Prog.keeps_ret _

/-- `load_live_tip_from_disk` leaves the directory alone. -/
theorem loadLiveTipFromDisk_keeps : loadLiveTipFromDisk.Keeps (Apart d) := by
  unfold loadLiveTipFromDisk
  refine getTipTreeState_keeps.bind fun found => ?_
  rcases found with _ | ⟨height, tree | bytes⟩
  · exact Prog.keeps_ret _
  · exact Prog.keeps_update fun _ h => h
  · exact Prog.keeps_update fun _ h => h

end Frames

/-- An opening only takes over what is under obsolete names, in whatever format the blocks are. -/
theorem new_directory {now : ℕ} {db : Db} {s : Cache} (h : Cache.new now db = .ok s) :
    s.directory = db.directory.retired := by
  have hrest : (do
      ensureCacheFormat
      verifyTipReadable
      indexExistingTipSnapshot
      loadLiveTipFromDisk
      let _ ← (pruneExpiredOmrClueHints now).attempt
      pure () : CacheM Unit).Keeps (Apart db.directory.retired) := by
    refine ensureCacheFormat_keeps.bind fun _ => verifyTipReadable_keeps.bind fun _ => ?_
    refine indexExistingTipSnapshot_keeps.bind fun _ => loadLiveTipFromDisk_keeps.bind fun _ => ?_
    exact (clueFrame_apart.pruneExpiredOmrClueHints now).attempt.bind fun _ => Prog.keeps_ret _
  unfold Cache.new openSteps at h
  rw [Prog.bind_eq, Prog.run_bind_of_ok (retireObsoleteNames_run _)] at h
  have hretired : Apart db.directory.retired { Cache.unopened db with db := db.retired } := rfl
  have hexec := hrest.exec hretired
  unfold Prog.exec at hexec
  split at h
  · next s' hrun =>
    cases h
    rw [← hexec]
    exact congrArg (fun r => r.2.directory) hrun.symm
  · cases h

/-! ## What changes it -/

/-- The changes of the directory. A registration is one that its rules admit, for a payment key
whose holder signed it, and it is checked against the row that is there. -/
inductive DirectoryChange (dir : AttestEnv) (admitted : Proto.CluePublicKeyRegistration → Prop) :
    DirectoryRows → DirectoryRows → Prop
  | attest (d : DirectoryRows) (sk : dir.schnorr.SecretKey) : readBytes32 d.attest = none →
      DirectoryChange dir admitted d { d with attest := some (dir.schnorr.toRepr sk).1 }
  | pepper (d : DirectoryRows) (pepper : Bytes32) : readBytes32 d.pepper = none →
      DirectoryChange dir admitted d { d with pepper := some pepper.1 }
  | registered (d : DirectoryRows) (req : Proto.CluePublicKeyRegistration) (pk : Bytes32) :
      admitted req → req.paymentPubkey = pk.1 →
      verifyCluePkOwnership dir.schnorr dir.networkByte req.keyVersion pk req.cluePublicKey
        req.ownershipProof = .ok () →
      KeyCall.Admitted ((d.keys.get pk).bind parseCluePubkeyValue)
        ⟨req.cluePublicKey, req.keyVersion, req.ownershipProof⟩ →
      DirectoryChange dir admitted d { d with
        keys := d.keys.insert pk
          (encodeCluePubkeyValue req.keyVersion req.ownershipProof req.cluePublicKey) }
  | retired (d : DirectoryRows) : DirectoryChange dir admitted d d.retired

section Requests

/-- Run alone, the pepper call returns the stored pepper, or stores and returns its first draw. -/
theorem getOrCreateClueDirPepper_outcome (fuel : ℕ) (draws : ℕ → Bytes32) (s : Cache) :
    (getOrCreateClueDirPepper (fuel + 1) draws).run s =
      match readBytes32 s.db.server.clueDirPepper with
      | some pepper => (.ok pepper, s)
      | none =>
        (.ok (draws 0), { s with db := metaClueDirPepper.upd (some (draws 0).1) s.db }) := by
  have hsel : metaClueDirPepper.sel s.db = s.db.server.clueDirPepper := rfl
  unfold getOrCreateClueDirPepper
  rw [Prog.bind_eq, Prog.run_bind_of_ok (Cell.run_get _ _), hsel]
  cases readBytes32 s.db.server.clueDirPepper with
  | some pepper => rfl
  | none => simp [installPepper, Cell.compareAndSwap, Prog.run_bind]

/-- A status that is raised ends the handler with no change. -/
theorem exec_bind_liftStatus {T U : Type} {r : Except Status T} (f : T → Handler U) (s : Cache) :
    ((liftStatus r).bind f).exec s = s ∨
      ∃ a, r = .ok a ∧ ((liftStatus r).bind f).exec s = (f a).exec s := by
  cases r with
  | ok a => exact Or.inr ⟨a, rfl, rfl⟩
  | error e => exact Or.inl rfl

/-- A registration that gets as far as the cache was signed by the holder of the payment key. -/
theorem registerCluePublicKey_exec (env : DirectoryEnv) (allowed : Bool)
    (req : Proto.CluePublicKeyRegistration) (s : Cache) :
    (registerCluePublicKey env allowed req).exec s = s ∨
      ∃ pk : Bytes32, req.paymentPubkey = pk.1 ∧
        verifyCluePkOwnership env.schnorr env.networkByte req.keyVersion pk req.cluePublicKey
          req.ownershipProof = .ok () ∧
        (registerCluePublicKey env allowed req).exec s =
          (storeCluePublicKey pk req.cluePublicKey req.keyVersion req.ownershipProof).exec s := by
  unfold registerCluePublicKey
  rcases exec_bind_liftStatus (r := checkClueRateLimit allowed) _ s with h | ⟨_, -, h⟩
  · exact Or.inl h
  rw [Prog.bind_eq, h]
  rcases exec_bind_liftStatus (r := readPaymentPubkey req.paymentPubkey) _ s with h | ⟨pk, hpk, h⟩
  · exact Or.inl h
  rw [Prog.bind_eq, h]
  have hpk' : req.paymentPubkey = pk.1 := by
    unfold readPaymentPubkey at hpk
    split_ifs at hpk
    cases hpk
    rfl
  by_cases hclue : req.cluePublicKey.isEmpty
  · rw [if_pos hclue]
    exact Or.inl rfl
  rw [if_neg hclue]
  by_cases hproof : req.ownershipProof.isEmpty
  · rw [if_pos hproof]
    exact Or.inl rfl
  rw [if_neg hproof]
  rcases exec_bind_liftStatus (r := (verifyCluePkOwnership env.schnorr env.networkByte
    req.keyVersion pk req.cluePublicKey req.ownershipProof).mapError invalidArgument) _ s with
    h | ⟨_, hverify, h⟩
  · exact Or.inl h
  rw [Prog.bind_eq, h]
  rcases exec_bind_liftStatus (r := checkCluePublicKey env.fheOmr req.cluePublicKey) _ s
    with h | ⟨_, -, h⟩
  · exact Or.inl h
  rw [Prog.bind_eq, h]
  refine Or.inr ⟨pk, hpk', ?_, Prog.exec_mapError _ _ _⟩
  cases hv : verifyCluePkOwnership env.schnorr env.networkByte req.keyVersion pk req.cluePublicKey
    req.ownershipProof with
  | ok _ => rfl
  | error e =>
    rw [hv] at hverify
    cases hverify

variable {dir : AttestEnv} {admitted : Proto.CluePublicKeyRegistration → Prop}

/-- The pepper call changes the directory by a step at most. -/
theorem getOrCreateClueDirPepper_evolves (fuel : ℕ) (draws : ℕ → Bytes32) :
    (getOrCreateClueDirPepper (fuel + 1) draws).Evolves Cache.directory
      (DirectoryChange dir admitted) := by
  intro s
  unfold Prog.exec
  rw [getOrCreateClueDirPepper_outcome]
  cases h : readBytes32 s.db.server.clueDirPepper with
  | some pepper => exact .refl
  | none => exact .single (.pepper s.directory (draws 0) h)

/-- The attest call changes the directory by a step at most. -/
theorem getOrCreateDirectoryAttestSecret_evolves (draws : List Bytes32) :
    (getOrCreateDirectoryAttestSecret dir.schnorr.toSecretKeys draws).Evolves Cache.directory
      (DirectoryChange dir admitted) := by
  intro s
  unfold Prog.exec
  rw [attestSecret_outcome]
  cases h : readBytes32 s.db.server.attest with
  | some out =>
    dsimp only
    cases dir.schnorr.fromBytes out <;> exact .refl
  | none =>
    dsimp only
    cases draws.findSome? fun bytes => (dir.schnorr.fromBytes bytes).toOption with
    | none => exact .refl
    | some sk => exact .single (.attest s.directory sk h)

/-- The public attest key changes the directory by a step at most. -/
theorem directoryAttestPublicKey_evolves (draws : List Bytes32) :
    (directoryAttestPublicKey dir draws).Evolves Cache.directory (DirectoryChange dir admitted) :=
  (getOrCreateDirectoryAttestSecret_evolves draws).bind fun _ => Prog.evolves_ret _

/-- Raising a status changes nothing. -/
theorem evolves_liftStatus {T : Type} (r : Except Status T) :
    (liftStatus r).Evolves Cache.directory (DirectoryChange dir admitted) := by
  cases r with
  | ok a => exact Prog.evolves_ret a
  | error e => exact Prog.evolves_fail e

/-- A lookup changes the directory by a step at most. -/
theorem lookupCluePublicKey_evolves (draws : ℕ → Bytes32) (pk : Bytes32) :
    (lookupCluePublicKey dir.toDirectoryEnv draws pk).Evolves Cache.directory
      (DirectoryChange dir admitted) := by
  unfold lookupCluePublicKey getCluePublicKeyEntry
  refine Prog.Evolves.bind (((Prog.evolves_get _).bind fun _ => Prog.evolves_ret _).mapError _)
    fun entry => ?_
  cases entry with
  | some entry => exact Prog.evolves_ret _
  | none =>
    refine Prog.Evolves.ite ?_ (Prog.evolves_ret _)
    exact ((getOrCreateClueDirPepper_evolves 1 draws).mapError _).bind fun _ => Prog.evolves_ret _

/-- `GetCluePublicKey` changes the directory by steps only. -/
theorem getCluePublicKey_evolves (allowed : Bool) (draws : LookupDraws dir.schnorr)
    (paymentPubkey : Bytes) :
    (getCluePublicKey dir.toDirectoryEnv allowed draws paymentPubkey).Evolves Cache.directory
      (DirectoryChange dir admitted) := by
  unfold getCluePublicKey
  refine (evolves_liftStatus _).bind fun _ => (evolves_liftStatus _).bind fun pk => ?_
  refine ((getOrCreateDirectoryAttestSecret_evolves _).mapError _).bind fun attestSk => ?_
  refine (lookupCluePublicKey_evolves _ pk).bind fun entry => ?_
  exact (evolves_liftStatus _).bind fun _ => Prog.evolves_ret _

/-- `RegisterCluePublicKey` changes the directory by an admitted registration at most. -/
theorem registerCluePublicKey_evolves {allowed : Bool} {req : Proto.CluePublicKeyRegistration}
    (hreq : admitted req) :
    (registerCluePublicKey dir.toDirectoryEnv allowed req).Evolves Cache.directory
      (DirectoryChange dir admitted) := by
  intro s
  rcases registerCluePublicKey_exec dir.toDirectoryEnv allowed req s with
    hsame | ⟨pk, hpk, hverify, hstore⟩
  · rw [hsame]
  · rw [hstore]
    have hentry : directoryEntry pk s =
        .ok ((s.db.omr.omrCluePubkeys.get pk).bind parseCluePubkeyValue) := directoryEntry_eq pk s
    obtain ⟨hadmitted, hrun⟩ | ⟨-, e, hrun⟩ :=
      store_run (c := ⟨req.cluePublicKey, req.keyVersion, req.ownershipProof⟩) hentry
    · unfold KeyCall.store at hrun
      unfold Prog.exec
      rw [hrun]
      exact .single (.registered s.directory req pk hreq hpk hverify hadmitted)
    · unfold KeyCall.store at hrun
      unfold Prog.exec
      rw [hrun]

end Requests

/-! ## Steps of a server -/

section Steps

variable {env : SendEnv} {dir : AttestEnv} {rules : ServerRules env dir} {s s' : Cache}

/-- The registrations that the rules let through. -/
def ServerRules.Registers (rules : ServerRules env dir) (req : Proto.CluePublicKeyRegistration) :
    Prop :=
  ∃ allowed, rules.request (.registerKey allowed req)

/-- A step of the server changes the directory by its own steps only. -/
theorem ServerStep.directory (hstep : ServerStep rules s s') :
    Relation.ReflTransGen (DirectoryChange dir rules.Registers) s.directory s'.directory := by
  cases hstep with
  | polled config turns loop _ _ =>
    exact Prog.Keeps.evolves (fun _ => pollLoop_keeps config turns loop) s
  | asked req _ hreq =>
    cases req with
    | send broadcast now later req =>
      exact Prog.Keeps.evolves
        (fun _ => sendTransaction_keeps clueFrame_apart env broadcast now later req) s
    | registerClue allowed bound now req =>
      exact Prog.Keeps.evolves
        (fun _ => registerOmrClue_keeps clueFrame_apart env.blake3 allowed bound now req) s
    | registerKey allowed req => exact registerCluePublicKey_evolves ⟨allowed, hreq⟩ s
    | lookupKey allowed draws key => exact getCluePublicKey_evolves allowed draws key s
    | publishedKey draws => exact directoryAttestPublicKey_evolves draws s
  | reopened now _ _ hnew =>
    rw [new_directory hnew]
    exact .single (.retired s.directory)

/-- The life of a server changes its directory in these ways only. -/
theorem directory_changes (hsteps : Relation.ReflTransGen (ServerStep rules) s s') :
    Relation.ReflTransGen (DirectoryChange dir rules.Registers) s.directory s'.directory := by
  induction hsteps with
  | refl => exact .refl
  | tail _ hstep ih => exact ih.trans hstep.directory

end Steps

end LightWalletd
