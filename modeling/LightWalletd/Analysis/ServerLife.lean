import LightWalletd.Analysis.DirectoryPrivacy
import LightWalletd.Analysis.PollRefinement
import LightWalletd.Analysis.SnapshotRetention
import LightWalletd.Analysis.WindowCoherence
import LightWalletd.Model.DirectoryAttestation
import LightWalletd.Model.SendPeers

/-!
# The life of a server

A server opens its cache on an empty database. From then on the poller's loop runs on it, requests
store clues and keys in it, and it is closed and opened again, each step on what the one before has
left. The requests leave the index alone, so that the cache always holds one chain of linked blocks,
with the tree and the snapshots of that chain.
-/

set_option autoImplicit false

namespace LightWalletd

open Stateful

/-- What the chain is served from, and the format it is stored in. -/
def Cache.index (s : Cache) : BlockRows × TreeRows × LiveTipTree × Option (Stored ℕ) :=
  (s.db.blocks, s.db.trees, s.tipTree, s.db.server.cacheFormat)

/-! ## Requests that write -/

/-- The requests that write to the cache. The rate limits let a request through or not. -/
inductive WalletRequest (env : SendEnv) (dir : AttestEnv)
  | send (broadcast : Broadcast) (now later : ℕ) (req : Proto.RawTransaction)
  | registerClue (allowed : Bool) (bound : Bytes32 → Bool) (now : ℕ)
      (req : Proto.OmrClueRegistration)
  | registerKey (allowed : Bool) (req : Proto.CluePublicKeyRegistration)
  | lookupKey (allowed : Bool) (draws : LookupDraws dir.schnorr) (paymentPubkey : Bytes)
  | publishedKey (draws : List Bytes32)

/-- What a request does to the cache. -/
def WalletRequest.exec {env : SendEnv} {dir : AttestEnv} (s : Cache) :
    WalletRequest env dir → Cache
  | send broadcast now later req => (sendTransaction env broadcast now later req).exec s
  | registerClue allowed bound now req => (registerOmrClue env.blake3 allowed bound now req).exec s
  | registerKey allowed req => (registerCluePublicKey dir.toDirectoryEnv allowed req).exec s
  | lookupKey allowed draws paymentPubkey =>
    (getCluePublicKey dir.toDirectoryEnv allowed draws paymentPubkey).exec s
  | publishedKey draws => (directoryAttestPublicKey dir draws).exec s

section ClueRequests

variable {I : Cache → Prop}

/-- Raising a status changes nothing. -/
theorem keeps_liftStatus {T : Type} (r : Except Status T) : (liftStatus r).Keeps I := by
  cases r with
  | ok a => exact Prog.keeps_ret a
  | error e => exact Prog.keeps_fail e

variable (hI : ClueFrame I)

include hI

/-- `omr_clue_index_taken` keeps what survives every change of the clue rows. -/
theorem omrClueIndexTaken_keeps (now : ℕ) (txHash : Bytes32) (outputIndex : ℕ) :
    (omrClueIndexTaken now txHash outputIndex).Keeps I := by
  unfold omrClueIndexTaken
  refine (hI.pruneExpiredOmrClueHints now).bind fun _ => ?_
  refine (hI.dropOmrClueHintIfExpired now txHash).bind
    fun dropped => Prog.Keeps.ite (Prog.keeps_ret _) ?_
  refine Prog.Keeps.bind (Prog.keeps_get _) fun row => ?_
  cases row <;> exact Prog.keeps_ret _

/-- `store_send_clue_hint` keeps it. -/
theorem storeSendClueHint_keeps (now : ℕ) (hash : Bytes32) (clue : Bytes) (outputIndex : ℕ) :
    (storeSendClueHint now hash clue outputIndex).Keeps I := by
  unfold storeSendClueHint
  refine (omrClueIndexTaken_keeps hI now hash outputIndex).attempt.bind fun taken => ?_
  have hstore := (hI.storeOmrClueHint now hash clue (some outputIndex)).attempt
  rcases taken with e | _ | _
  · refine hstore.bind fun r => ?_
    cases r <;> exact Prog.keeps_ret _
  · refine hstore.bind fun r => ?_
    cases r <;> exact Prog.keeps_ret _
  · exact Prog.keeps_ret _

/-- Storing the extra clues keeps it. -/
theorem storeExtraClues_keeps (env : SendEnv) (now : ℕ) (hash : Bytes32)
    (extras : List Proto.ExtraOmrClue) :
    (storeExtraClues env now hash extras).Keeps I := by
  refine Prog.Keeps.forEach (fun extra => Prog.Keeps.ite (Prog.keeps_ret _) ?_) extras
  exact (storeSendClueHint_keeps hI now hash _ _).bind fun _ => Prog.keeps_ret _

/-- Storing the clue before the broadcast keeps it. -/
theorem storeCluesBefore_keeps (env : SendEnv) (now : ℕ) (req : Proto.RawTransaction)
    (hash : Option Bytes32) (omrClue : Bytes) :
    (storeCluesBefore env now req hash omrClue).Keeps I := by
  unfold storeCluesBefore
  refine Prog.Keeps.ite (Prog.keeps_ret _) ?_
  cases hash with
  | none => exact Prog.keeps_ret _
  | some hash =>
    refine (storeSendClueHint_keeps hI now hash omrClue _).bind fun accepted => ?_
    exact (storeExtraClues_keeps hI env now hash _).bind fun _ => Prog.keeps_ret _

/-- Storing the metadata keeps it. -/
theorem storeSentMetadata_keeps (hash : Bytes32) (req : Proto.RawTransaction) :
    (storeSentMetadata hash req).Keeps I := by
  unfold storeSentMetadata
  refine Prog.Keeps.ite (Prog.keeps_ret _) ?_
  have hstore : (storeOmrMetadataEnc hash req.omrMetadataEnc
      (some req.omrClueOutputIndex)).Keeps I := by
    refine Prog.Keeps.ite (Prog.keeps_ret _) (Prog.Keeps.ite (Prog.keeps_fail _) ?_)
    exact Tree.keeps_insert hI.metadata _ _
  refine (Prog.Keeps.bind (Prog.keeps_get _) fun _ => Prog.keeps_ret _).attempt.bind fun known => ?_
  rcases known with e | _ | _
  · exact hstore.attempt.bind fun _ => Prog.keeps_ret _
  · exact hstore.attempt.bind fun _ => Prog.keeps_ret _
  · exact Prog.keeps_ret _

/-- Storing the clues after the broadcast keeps it. -/
theorem storeCluesAfter_keeps (env : SendEnv) (now : ℕ) (req : Proto.RawTransaction)
    (hash : Option Bytes32) (clueAccepted : Bool) (omrClue : Bytes) :
    (storeCluesAfter env now req hash clueAccepted omrClue).Keeps I := by
  unfold storeCluesAfter
  cases hash with
  | none => exact Prog.keeps_ret _
  | some hash =>
    -- Both branches go on with the extra clues and the metadata.
    have hrest : ∀ accepted : Bool, ((storeExtraClues env now hash req.extraOmrClues).bind fun _ =>
        (storeSentMetadata hash req).bind fun _ => Prog.ret accepted).Keeps I :=
      fun _ => (storeExtraClues_keeps hI env now hash _).bind fun _ =>
        (storeSentMetadata_keeps hI hash req).bind fun _ => Prog.keeps_ret _
    exact Prog.Keeps.ite (hrest _)
      ((storeSendClueHint_keeps hI now hash omrClue _).bind fun accepted => hrest accepted)

/-- `SendTransaction` keeps it. -/
theorem sendTransaction_keeps (env : SendEnv) (broadcast : Broadcast) (now later : ℕ)
    (req : Proto.RawTransaction) :
    (sendTransaction env broadcast now later req).Keeps I := by
  unfold sendTransaction
  cases unwrapRequest env req with
  | error status => exact Prog.keeps_fail _
  | ok unwrapped =>
    refine ((storeCluesBefore_keeps hI env now req _ _).mapError _).bind fun stored => ?_
    cases broadcast with
    | accepted answer =>
      exact ((storeCluesAfter_keeps hI env later req _ _ _).mapError _).bind fun _ =>
        Prog.keeps_ret _
    | failed =>
      have hremove : ∀ hash, ((removeOmrClueHint hash).attempt.mapError cacheStatus).Keeps I :=
        fun hash => (hI.removeOmrClueHint hash).attempt.mapError _
      rcases stored with ⟨_ | _, left⟩
      · exact Prog.keeps_ret _
      · cases env.txHashOf unwrapped.1 with
        | none => exact Prog.keeps_ret _
        | some hash => exact (hremove hash).bind fun _ => Prog.keeps_ret _
    | timedOut => exact Prog.keeps_fail _

/-- `RegisterOmrClue` keeps it. -/
theorem registerOmrClue_keeps (blake3 : Bytes → Bytes32) (allowed : Bool) (bound : Bytes32 → Bool)
    (now : ℕ) (req : Proto.OmrClueRegistration) :
    (registerOmrClue blake3 allowed bound now req).Keeps I := by
  unfold registerOmrClue
  refine (keeps_liftStatus _).bind fun _ => (keeps_liftStatus _).bind fun hash => ?_
  refine Prog.Keeps.ite ?_ (Prog.keeps_fail _)
  refine ((omrClueIndexTaken_keeps hI now hash _).attempt.mapError _).bind fun taken => ?_
  have hstore : (storeOmrClueHint now hash req.omrClue (some req.omrClueOutputIndex)).Keeps I :=
    hI.storeOmrClueHint now hash _ _
  rcases taken with e | _ | _
  · exact hstore.mapError _
  · exact hstore.mapError _
  · exact Prog.keeps_ret _

end ClueRequests

section Frames

variable {p : BlockRows × TreeRows × LiveTipTree × Option (Stored ℕ)}

/-- The index is `p`. -/
abbrev Indexed (p : BlockRows × TreeRows × LiveTipTree × Option (Stored ℕ)) (s : Cache) : Prop :=
  s.index = p

/-- What reads the index only survives every change of the clue rows. -/
theorem clueFrame_indexed : ClueFrame (Indexed p) :=
  ⟨fun _ _ h => h, fun _ _ h => h, fun _ _ h => h, fun _ _ h => h⟩

/-- `RegisterCluePublicKey` leaves the index alone. -/
theorem registerCluePublicKey_keeps (dir : DirectoryEnv) (allowed : Bool)
    (req : Proto.CluePublicKeyRegistration) :
    (registerCluePublicKey dir allowed req).Keeps (Indexed p) := by
  unfold registerCluePublicKey
  refine (keeps_liftStatus _).bind fun _ => (keeps_liftStatus _).bind fun pk => ?_
  refine Prog.Keeps.ite (Prog.keeps_fail _) (Prog.Keeps.ite (Prog.keeps_fail _) ?_)
  refine (keeps_liftStatus _).bind fun _ => (keeps_liftStatus _).bind fun _ => ?_
  refine Prog.Keeps.mapError ?_ _
  refine (keeps_liftExcept _).bind fun _ => Prog.Keeps.bind (Prog.keeps_get _) fun existing => ?_
  exact (keeps_liftExcept _).bind fun _ => Tree.keeps_insert (fun _ _ h => h) _ _

/-- The pepper call leaves the index alone. -/
theorem getOrCreateClueDirPepper_keeps (fuel : ℕ) (draws : ℕ → Bytes32) :
    (getOrCreateClueDirPepper fuel draws).Keeps (Indexed p) := by
  induction fuel generalizing draws with
  | zero => exact Prog.keeps_fail _
  | succ fuel ih =>
    refine Prog.Keeps.bind (Prog.keeps_get _) fun row => ?_
    cases readBytes32 row with
    | some out => exact Prog.keeps_ret _
    | none =>
      refine Prog.Keeps.bind (Prog.keeps_get _) fun current => ?_
      refine Prog.Keeps.bind (Prog.keeps_swap _ _ fun s hs => ?_) fun swapped =>
        Prog.Keeps.ite (Prog.keeps_ret _) (ih _)
      split_ifs <;> exact hs

/-- The attest call leaves the index alone. -/
theorem getOrCreateDirectoryAttestSecret_keeps (keys : SecretKeys) (draws : List Bytes32) :
    (getOrCreateDirectoryAttestSecret keys draws).Keeps (Indexed p) := by
  refine Prog.Keeps.bind (Prog.keeps_get _) fun row => ?_
  cases readBytes32 row with
  | some out =>
    dsimp only
    cases keys.fromBytes out with
    | ok sk => exact Prog.keeps_ret _
    | error e => exact Prog.keeps_fail _
  | none =>
    dsimp only
    cases draws.findSome? fun bytes => (keys.fromBytes bytes).toOption with
    | none => exact Prog.keeps_fail _
    | some sk => exact (Cell.keeps_insert (fun _ _ h => h) _).bind fun _ => Prog.keeps_ret _

/-- `GetCluePublicKey` leaves the index alone. -/
theorem getCluePublicKey_keeps (dir : DirectoryEnv) (allowed : Bool)
    (draws : LookupDraws dir.schnorr) (paymentPubkey : Bytes) :
    (getCluePublicKey dir allowed draws paymentPubkey).Keeps (Indexed p) := by
  unfold getCluePublicKey
  refine (keeps_liftStatus _).bind fun _ => (keeps_liftStatus _).bind fun pk => ?_
  refine ((getOrCreateDirectoryAttestSecret_keeps _ _).mapError _).bind fun attestSk => ?_
  refine Prog.Keeps.bind ?_ fun entry => (keeps_liftStatus _).bind fun _ => Prog.keeps_ret _
  unfold lookupCluePublicKey
  refine ((Prog.Keeps.bind (Prog.keeps_get _) fun _ => Prog.keeps_ret _).mapError _).bind
    fun entry => ?_
  cases entry with
  | some entry => exact Prog.keeps_ret _
  | none =>
    refine Prog.Keeps.ite ?_ (Prog.keeps_ret _)
    exact ((getOrCreateClueDirPepper_keeps _ _).mapError _).bind fun _ => Prog.keeps_ret _

end Frames

variable {env : SendEnv} {dir : AttestEnv}

/-- No request changes the index. -/
theorem WalletRequest.exec_index (req : WalletRequest env dir) (s : Cache) :
    (req.exec s).index = s.index := by
  cases req with
  | send broadcast now later req =>
    exact (sendTransaction_keeps clueFrame_indexed env broadcast now later req).exec rfl
  | registerClue allowed bound now req =>
    exact (registerOmrClue_keeps clueFrame_indexed env.blake3 allowed bound now req).exec rfl
  | registerKey allowed req => exact (registerCluePublicKey_keeps _ allowed req).exec rfl
  | lookupKey allowed draws key => exact (getCluePublicKey_keeps _ allowed draws key).exec rfl
  | publishedKey draws =>
    have hkeeps : (directoryAttestPublicKey dir draws).Keeps (Indexed s.index) :=
      (getOrCreateDirectoryAttestSecret_keeps _ draws).bind fun _ => Prog.keeps_ret _
    exact hkeeps.exec rfl

/-! ## Runs -/

/-- The poller's calls go from a pruned chain state to another. -/
theorem PollerCalls.exec_retained {hashes : List Bytes32} {calls : List (CacheM Unit)}
    (hcalls : PollerCalls hashes calls) {chain : List CompactBlock} {s : Cache}
    (hs : RetainedState chain s) (hlen : hashes.length = chain.length) :
    ∃ chain', RetainedState chain' (Prog.execAll calls s) := by
  induction hcalls generalizing chain s with
  | done hashes => exact ⟨chain, hs⟩
  | insert now block hcan hheight hmax hlink hrest ih =>
    rw [hlen] at hheight hmax
    obtain ⟨merged, hstate⟩ := hs.append now hcan hheight hmax
    exact ih hstate (by simp [hlen])
  | rewind height hlt hmax hrest ih =>
    rw [hlen] at hlt
    exact ih (hs.rewind hlt hmax) (by simp [hlen])

/-- The cache is indexed to a chain of linked blocks, with all snapshots that are kept. -/
structure ServedState (chain : List CompactBlock) (s : Cache) : Prop
    extends RetainedState chain s where
  linked : Linked chain

namespace ServedState

variable {chain : List CompactBlock} {s : Cache}

/-- A served chain is held. -/
theorem chainState (hs : ServedState chain s) : ChainState chain s :=
  .of_stack hs.toStackState hs.linked

/-- Being served depends on the index only. -/
theorem congr {s' : Cache} (hs : ServedState chain s) (h : s'.index = s.index) :
    ServedState chain s' := by
  simp only [Cache.index, Prod.mk.injEq] at h
  obtain ⟨hblocks, htrees, hlive, hformat⟩ := h
  refine ⟨⟨⟨⟨hblocks ▸ hs.rows, hs.canonical, hblocks ▸ hs.tip, ?_, ?_⟩, hblocks ▸ hs.readTip,
    hlive ▸ hs.treeHeight, hs.short⟩, htrees ▸ hs.retained⟩, hs.linked⟩
  · rcases hs.tree with ⟨hfresh, hempty, habove⟩ | ⟨H, hat⟩
    · exact Or.inl ⟨hlive.trans hfresh, htrees.trans hempty, habove⟩
    · exact Or.inr ⟨H, hat.le_max, hlive.trans hat.live, htrees ▸ hat.tipMerkleTree,
        htrees ▸ hat.tipMerkleHeight, htrees ▸ hat.snapshots, hat.above⟩
  · simpa [Db.Current, hformat] using hs.format

/-- Inserts and rewinds keep all of it. -/
theorem execAll {calls : List (CacheM Unit)} (hs : ServedState chain s)
    (hcalls : PollerCalls (chain.map CompactBlock.hash) calls) :
    ∃ chain', ServedState chain' (Prog.execAll calls s) := by
  obtain ⟨chain', hstate, -⟩ := hcalls.exec_chainState hs.chainState rfl
  obtain ⟨retained, hretained⟩ := hcalls.exec_retained hs.toRetainedState (by simp)
  -- The rows are those of one chain only.
  have hsame : retained = chain' :=
    List.ext_getElem? fun k => congrFun (hretained.rows.unique hstate.rows rfl) k
  subst hsame
  exact ⟨retained, hretained, hstate.linked⟩

/-- Opening the database again serves the same chain. -/
theorem reopen {now : ℕ} {s' : Cache} (hs : ServedState chain s)
    (hnew : Cache.new now s.db = .ok s') : ServedState chain s' :=
  ⟨hs.toRetainedState.reopen hnew, hs.linked⟩

end ServedState

/-- What the poller's loop and the requests of a server may do. -/
structure ServerRules (env : SendEnv) (dir : AttestEnv) where
  loop : ChainPollerConfig → List Turn → Cache → Prop
  request : WalletRequest env dir → Prop

/-- What happens to the cache of a server: the poller's loop takes some turns, a request is
answered, or the cache is closed and opened again. -/
inductive ServerStep (rules : ServerRules env dir) : Cache → Cache → Prop
  | polled (config : ChainPollerConfig) (turns : List Turn) (loop : PollLoop) (s : Cache) :
      rules.loop config turns s → ServerStep rules s ((pollLoop config turns loop).exec s)
  | asked (req : WalletRequest env dir) (s : Cache) : rules.request req →
      ServerStep rules s (req.exec s)
  | reopened (now : ℕ) (s s' : Cache) : Cache.new now s.db = .ok s' → ServerStep rules s s'

/-- The caches of a server that opened on an empty database. -/
def Served (env : SendEnv) (dir : AttestEnv) (s : Cache) : Prop :=
  ∃ now s₀, Cache.new now .empty = .ok s₀ ∧
    Relation.ReflTransGen (ServerStep (⟨LoopAllowed, fun _ => True⟩ : ServerRules env dir)) s₀ s

/-- Every step of the server goes from a served chain to a served chain. -/
theorem ServedState.step {chain : List CompactBlock} {s s' : Cache} {request : _ → Prop}
    (hs : ServedState chain s)
    (hstep : ServerStep (⟨LoopAllowed, request⟩ : ServerRules env dir) s s') :
    ∃ chain', ServedState chain' s' := by
  cases hstep with
  | polled config turns loop _ hallowed =>
    obtain ⟨calls, hcalls, hperforms⟩ := pollLoop_performs turns loop hs.chainState hallowed
    rw [hperforms.exec]
    exact hs.execAll hcalls
  | asked req _ _ => exact ⟨chain, hs.congr (req.exec_index s)⟩
  | reopened now _ _ hnew => exact ⟨chain, hs.reopen hnew⟩

/-- A server always serves one chain. -/
theorem Served.state {s : Cache} (hs : Served env dir s) : ∃ chain, ServedState chain s := by
  obtain ⟨now, s₀, hnew, hsteps⟩ := hs
  induction hsteps with
  | refl => exact ⟨[], .of_new hnew, .nil⟩
  | tail _ hstep ih =>
    obtain ⟨chain, hstate⟩ := ih
    exact hstate.step hstep

/-! ## A plain server -/

/-- Wallets that send no clues. -/
def anySend : SendEnv := ⟨0, fun _ => none, fun _ => Bytes32.fill 0⟩

/-- The default build, whose public keys are the bytes of the secret keys. -/
def plainAttest : AttestEnv where
  toDirectoryEnv := defaultBuild
  publicFromSecret := fieldKeys.toRepr
  publicToBytes := id

end LightWalletd
