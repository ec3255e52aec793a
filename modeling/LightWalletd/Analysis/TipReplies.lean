import LightWalletd.Analysis.BlockSteps
import LightWalletd.Model.TipHandlers

/-!
# Tip replies beside a poller

The poller writes the height of the tip and then its hash, and a tip request reads them in the
same order. A hash that is read after the height was replaced, or before it is, belongs to
another block than the height.
-/

set_option autoImplicit false

namespace LightWalletd

open Stateful

/-! ## What a request reads -/

section Requests

/-- The tip is read in two moments: its height, then its hash. -/
theorem getTip_observe_eq_some {seen : ℕ → Cache} {height : ℕ} {hash : Bytes32}
    (h : getTip.observe seen = .ok (some (height, hash))) :
    (seen 0).db.blocks.tipHeight = some (.value height) ∧
      (seen 1).db.blocks.tipHash = some (.value hash) ∧ getTip.reads seen = 2 := by
  unfold getTip Cell.get Prog.get at h ⊢
  simp only [metaTipHeight, metaTipHash, Prog.bind_eq, Prog.bind, Prog.observe, Prog.reads] at h ⊢
  rcases hheight : (seen 0).db.blocks.tipHeight with _ | height' | bytes <;>
    simp only [hheight] at h ⊢
  · cases h
  · simp only [decodeMeta, liftExcept, Prog.bind, Prog.observe, Prog.reads, Nat.zero_add] at h ⊢
    rcases hhash : (seen 1).db.blocks.tipHash with _ | hash' | bytes <;> simp only [hhash] at h ⊢
    · cases h
    · cases h
      exact ⟨rfl, rfl, rfl⟩
    · cases h
  · cases h

/-- A block is read at one moment. -/
theorem getCompactBlock_observe_ok {height : ℕ} {seen : ℕ → Cache} {block : Option CompactBlock}
    (h : (getCompactBlock height).observe seen = .ok block) :
    (seen 0).db.blocks.compactBlocks.get height = block.map .value := by
  unfold getCompactBlock Tree.get Prog.get at h
  simp only [compactBlocks, Prog.bind_eq, Prog.bind, Prog.observe] at h
  rcases hrow : (seen 0).db.blocks.compactBlocks.get height with _ | block' | bytes <;>
    simp only [hrow] at h
  · cases h
    rfl
  · cases h
    rfl
  · cases h

/-- The three reads behind a reply: the height, the hash and the block. -/
theorem getChainTip_observe_ok {allowed : Bool} {blockTarget : ℕ → Bytes32 → ℕ} {seen : ℕ → Cache}
    {reply : Proto.ChainTip} (h : (getChainTip allowed blockTarget).observe seen = .ok reply) :
    ∃ hash block, getTip.observe seen = .ok (some (reply.height, hash)) ∧
      (seen 2).db.blocks.compactBlocks.get reply.height = Option.map Stored.value block ∧
      reply.hash = hash.1 ∧ reply.timestamp = (block.map CompactBlock.timestamp).getD 0 ∧
      reply.prevHash = (block.map fun b => b.prevHash.1).getD [] := by
  unfold getChainTip at h
  cases allowed with
  | false => cases h
  | true =>
    simp only [Bool.not_true, Bool.false_eq_true, if_false, Prog.bind_eq] at h
    rw [Prog.observe_bind, Prog.observe_mapError, Prog.reads_mapError] at h
    cases htip : getTip.observe seen with
    | error e =>
      rw [htip] at h
      cases h
    | ok tip =>
      rw [htip] at h
      cases tip with
      | none => cases h
      | some tip =>
        obtain ⟨height, hash⟩ := tip
        obtain ⟨-, -, hreads⟩ := getTip_observe_eq_some htip
        simp only [Except.mapError] at h
        rw [Prog.observe_bind, Prog.observe_mapError, hreads] at h
        cases hblock : (getCompactBlock height).observe fun n => seen (n + 2) with
        | error e =>
          rw [hblock] at h
          cases h
        | ok block =>
          rw [hblock] at h
          cases h
          exact ⟨hash, block, rfl, getCompactBlock_observe_ok hblock, rfl, rfl, rfl⟩

end Requests

/-! ## Right replies -/

/-- `hash` is that of the block that the cache `held` has at `height`. -/
def HeldTip (held : Cache) (height : ℕ) (hash : Bytes32) : Prop :=
  ∃ block, held.db.blocks.compactBlocks.get height = some (.value block) ∧ hash = block.hash

/-- Everything in the reply, the block target apart, is of the block that the cache `held` has
at its height. -/
def RightTip (held : Cache) (reply : Proto.ChainTip) : Prop :=
  ∃ block, held.db.blocks.compactBlocks.get reply.height = some (.value block) ∧
    reply.hash = block.hash.1 ∧ reply.timestamp = block.timestamp ∧
    reply.prevHash = block.prevHash.1

/-- What the poller leaves in place while the tip is read: the height stays until the hash is
read, and the next step after that does not replace the hash. -/
structure CalmForTip (state : ℕ → Cache) (moment : ℕ → ℕ) : Prop where
  height : (state (moment 1)).db.blocks.tipHeight = (state (moment 0)).db.blocks.tipHeight
  hash : (state (moment 1 + 1)).db.blocks.tipHash = (state (moment 1)).db.blocks.tipHash

/-- The compact block of the tip is there when the hash is read, and stays until it is read. -/
def CalmForBlock (state : ℕ → Cache) (moment : ℕ → ℕ) : Prop :=
  ∀ height, (state (moment 0)).db.blocks.tipHeight = some (.value height) →
    ((state (moment 1)).db.blocks.compactBlocks.get height).isSome ∧
      (state (moment 2)).db.blocks.compactBlocks.get height =
        (state (moment 1)).db.blocks.compactBlocks.get height

section Replies

variable {held : List Cache} {s s' : Cache} {height : ℕ} {hash : Bytes32}

/-- A height and the hash that is stored after the next step are those of a block of some
chain, which is also the one under that height in the first state, when there is one. -/
theorem heldTip_of_step (hstep : HeldBy BlockStep held s s')
    (hheight : s.db.blocks.tipHeight = some (.value height))
    (hhash : s'.db.blocks.tipHash = some (.value hash)) :
    ∃ cache ∈ held, ∃ block, cache.db.blocks.compactBlocks.get height = some (.value block) ∧
      hash = block.hash ∧ ∀ row ∈ s.db.blocks.compactBlocks.get height, row = .value block := by
  obtain ⟨cache, hmem, chain, hchain, hstep⟩ := hstep
  rcases hstep.fits with hnone | ⟨h, block, hblock, heq⟩
  · rw [hheight] at hnone
    cases hnone
  · rw [hheight, hhash] at heq
    cases heq
    refine ⟨cache, hmem, block, ?_, rfl, fun row hrow => ?_⟩
    · rw [hchain.rows.compactBlocks, chainMap, hblock]
      rfl
    · obtain ⟨block', hblock', rfl⟩ := hstep.before height row hrow
      rw [hblock] at hblock'
      cases hblock'
      rfl

end Replies

/-- Beside any calls of the poller from an empty cache on, a tip whose reads nothing of this
disturbs is that of one block which the cache held between two calls, and so is the whole
reply. -/
theorem tip_replies_right {now : ℕ} {s₀ : Cache} {calls : List (CacheM Unit)}
    (hnew : Cache.new now .empty = .ok s₀) (hcalls : PollerCalls [] calls) (sched : Schedule) :
    let state := Prog.stateAt calls s₀
    let seen := fun n => state (sched.moment n)
    CalmForTip state sched.moment →
    (∀ height hash, getTip.observe seen = .ok (some (height, hash)) →
      ∃ held ∈ Prog.boundaries calls s₀, HeldTip held height hash) ∧
    ∀ allowed blockTarget reply, (getChainTip allowed blockTarget).observe seen = .ok reply →
      CalmForBlock state sched.moment → ∃ held ∈ Prog.boundaries calls s₀, RightTip held reply := by
  intro state seen hcalm
  have hstep : ∀ n, HeldBy BlockStep (Prog.boundaries calls s₀) (state n) (state (n + 1)) :=
    hcalls.heldBy_stateAt blockStep_rules hnew
  have hblock : ∀ height hash, getTip.observe seen = .ok (some (height, hash)) →
      ∃ held ∈ Prog.boundaries calls s₀, ∃ block,
        held.db.blocks.compactBlocks.get height = some (.value block) ∧ hash = block.hash ∧
          ∀ row ∈ (seen 1).db.blocks.compactBlocks.get height, row = .value block := by
    intro height hash htip
    obtain ⟨hheight, hhash, -⟩ := getTip_observe_eq_some htip
    exact heldTip_of_step (hstep (sched.moment 1)) (hcalm.height.trans hheight)
      (hcalm.hash.trans hhash)
  refine ⟨fun height hash htip => ?_, fun allowed blockTarget reply hreply hcalmBlock => ?_⟩
  · obtain ⟨held, hmem, block, hrow, hhash, -⟩ := hblock height hash htip
    exact ⟨held, hmem, block, hrow, hhash⟩
  · obtain ⟨hash, read, htip, hread, hhash, htime, hprev⟩ := getChainTip_observe_ok hreply
    obtain ⟨held, hmem, block, hrow, rfl, hsame⟩ := hblock reply.height hash htip
    obtain ⟨hsome, hkept⟩ := hcalmBlock reply.height (getTip_observe_eq_some htip).1
    obtain ⟨row, hpresent⟩ := Option.isSome_iff_exists.mp hsome
    have hvalue := hsame row hpresent
    -- the block that is read is the one that was there with the hash
    have heq : Option.map Stored.value read = some (.value block) := by
      rw [← hread]
      exact hkept.trans (hpresent.trans (congrArg some hvalue))
    obtain ⟨block', rfl, hinj⟩ := Option.map_eq_some_iff.mp heq
    cases hinj
    exact ⟨held, hmem, block, hrow, hhash, htime, hprev⟩

/-! ## Between the two tip keys -/

/-- All reads fall on moment `n`. -/
def Schedule.still (n : ℕ) : Schedule := ⟨fun _ => n, monotone_const⟩

/-- The tip of the genesis block. -/
def genesisTip : Proto.ChainTip := ⟨0, (Bytes32.fill 1).1, 0, 20, (Bytes32.fill 0).1⟩

/-- The reads are two commands apart, from moment `n` on. -/
def Schedule.spread (n : ℕ) : Schedule where
  moment k := n + 2 * k
  monotone := fun j k hjk => by
    show n + 2 * j ≤ n + 2 * k
    omega

/-- While the second insert stores the rows of its block, one read after the other, the tip is that
of the genesis block. -/
theorem tip_replies_right_spread : ∃ held ∈ Prog.boundaries twoInserts .initial,
    RightTip held genesisTip := by
  have hreply : (getChainTip true fun _ _ => 20).observe (Schedule.spread 11).seen =
      .ok genesisTip := by
    decide +kernel
  have hcalm : CalmForTip (Prog.stateAt twoInserts .initial) (Schedule.spread 11).moment :=
    ⟨by decide +kernel, by decide +kernel⟩
  have hzero : (Prog.stateAt twoInserts .initial 11).db.blocks.tipHeight = some (.value 0) := by
    decide +kernel
  refine (tip_replies_right new_initial twoInserts_calls (.spread 11) hcalm).2 true _ genesisTip
    hreply fun height hheight => ?_
  cases hzero.symm.trans hheight
  exact ⟨by decide +kernel, by decide +kernel⟩

/-- The second insert has written the height of its block, and not yet the hash. -/
theorem torn_tip : Cache.new 0 .empty = .ok .initial ∧ PollerCalls [] twoInserts ∧
    getTip.observe (Schedule.still 16).seen = .ok (some (1, Bytes32.fill 1)) ∧
    ∀ held ∈ Prog.boundaries twoInserts .initial, ¬ HeldTip held 1 (Bytes32.fill 1) := by
  refine ⟨new_initial, twoInserts_calls, by decide +kernel, fun held hheld => ?_⟩
  have hother : ∀ held ∈ Prog.boundaries twoInserts .initial,
      (held.db.blocks.compactBlocks.get 1).all (fun row =>
        decide ((decodeMeta "" row).toOption.map CompactBlock.hash ≠ some (Bytes32.fill 1))) =
        true := by
    decide +kernel
  rintro ⟨block, hblock, hhash⟩
  have hne := hother held hheld
  rw [hblock] at hne
  exact of_decide_eq_true hne (congrArg some hhash.symm)

end LightWalletd
