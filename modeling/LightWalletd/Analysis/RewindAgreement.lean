import LightWalletd.Analysis.ChainState
import LightWalletd.Model.ChainPoller

/-!
# The walk to a common ancestor

A walk ends at the greatest height, from its start on downwards, at which cache and node
have the same block, and cuts the cached chain there. When there is none within the walk
limit, it cuts at the last height it looked at, after 10000 steps or at height 0, and keeps
the block there, on which the two disagree. Agreement is reached in the first case only.
-/

set_option autoImplicit false

namespace LightWalletd

open Stateful

/-- The outcome of comparing a cached hash with an answer of the node. -/
def agreement (cached : Option Bytes32) (answer : Except LightWalletError BlockInfo) :
    Except LightWalletError Bool :=
  match cached with
  | none => .ok false
  | some hash => match answer with
    | .ok block => .ok (decide (block.header.hash = hash))
    | .error e => if e.isConnection then .error e else .ok false

/-- The height that a walk from `h` rewinds to, over the blocks `m`. -/
def walkTarget (m : BlockMap) (node : Node) : ℕ → ℕ → Except LightWalletError ℕ
  | 0, _ => (agreement ((m 0).map CompactBlock.hash) (node.atWalk 0)).map fun _ => 0
  | h + 1, walked =>
    match agreement ((m (h + 1)).map CompactBlock.hash) (node.atWalk (h + 1)) with
    | .error e => .error e
    | .ok true => .ok (h + 1)
    | .ok false => if maxWalk ≤ walked then .ok (h + 1) else walkTarget m node h (walked + 1)

/-- The cached block at `h` is the one the node has there. -/
def AgreesAt (m : BlockMap) (node : Node) (h : ℕ) : Prop :=
  ∃ cached block, m h = some cached ∧ node.atWalk h = .ok block ∧ block.header.hash = cached.hash

section Walk

variable {m : BlockMap} {node : Node} {s : Cache}

/-- Hashes agree exactly where node and cache hold one block. -/
theorem agreement_eq_true_iff {h : ℕ} :
    agreement ((m h).map CompactBlock.hash) (node.atWalk h) = .ok true ↔ AgreesAt m node h := by
  unfold agreement AgreesAt
  cases m h with
  | none => simp
  | some cached =>
    cases node.atWalk h with
    | ok block => simp
    | error e => by_cases he : e.isConnection = true <;> simp [he]

/-- `agrees_at` compares the cached hash with the node's. -/
theorem agreesAt_run (hs : s.db.blocks.Holds m) (h : ℕ) :
    (agreesAt node h).run s = (agreement ((m h).map CompactBlock.hash) (node.atWalk h), s) := by
  unfold agreesAt agreement
  rw [Prog.bind_eq, Prog.run_bind_of_ok (getBlockHash_run hs h)]
  cases (m h).map CompactBlock.hash with
  | none => rfl
  | some hash =>
    cases node.atWalk h with
    | ok block => rfl
    | error e =>
      simp only []
      split_ifs <;> rfl

/-- A walk reads until it knows its target, then rewinds once. -/
theorem walkBack_run (node : Node) (hs : s.db.blocks.Holds m) (h walked : ℕ) :
    (walkBack node h walked).run s = match walkTarget m node h walked with
      | .ok t => ((rewindToHeight t).bind fun _ => Prog.ret 0).run s
      | .error e => (.error e, s) := by
  induction h generalizing walked with
  | zero =>
    unfold walkBack walkTarget
    rw [Prog.bind_eq, Prog.run_bind, agreesAt_run hs]
    cases agreement ((m 0).map CompactBlock.hash) (node.atWalk 0) <;> rfl
  | succ h ih =>
    unfold walkBack walkTarget
    rw [Prog.bind_eq, Prog.run_bind, agreesAt_run hs]
    rcases agreement ((m (h + 1)).map CompactBlock.hash) (node.atWalk (h + 1)) with e | agrees
    · rfl
    · cases agrees with
      | true => rfl
      | false =>
        simp only [Bool.false_eq_true, if_false]
        by_cases hlimit : maxWalk ≤ walked
        · rw [if_pos hlimit, if_pos hlimit]
          rfl
        · rw [if_neg hlimit, if_neg hlimit]
          exact ih (walked + 1)

/-- The target is the greatest height of agreement, or the last height looked at. -/
theorem walkTarget_spec {h walked t : ℕ} (ht : walkTarget m node h walked = .ok t) :
    t ≤ h ∧ h - (maxWalk - walked) ≤ t ∧ (∀ k, t < k → k ≤ h → ¬ AgreesAt m node k) ∧
      (AgreesAt m node t ∨ t = h - (maxWalk - walked)) := by
  induction h generalizing walked with
  | zero =>
    unfold walkTarget at ht
    have ht0 : t = 0 := by
      cases hagree : agreement ((m 0).map CompactBlock.hash) (node.atWalk 0) with
      | error e =>
        rw [hagree] at ht
        cases ht
      | ok agrees =>
        rw [hagree] at ht
        cases ht
        rfl
    exact ⟨by omega, by omega, fun k hk hk' => by omega, Or.inr (by omega)⟩
  | succ h ih =>
    unfold walkTarget at ht
    rcases hagree : agreement ((m (h + 1)).map CompactBlock.hash) (node.atWalk (h + 1))
      with e | agrees
    · rw [hagree] at ht
      cases ht
    · rw [hagree] at ht
      cases agrees with
      | true =>
        cases ht
        exact ⟨le_rfl, by omega, fun k hk hk' => by omega,
          Or.inl (agreement_eq_true_iff.mp hagree)⟩
      | false =>
        have hno : ¬ AgreesAt m node (h + 1) := by
          rw [← agreement_eq_true_iff, hagree]
          simp
        by_cases hlimit : maxWalk ≤ walked
        · simp only [if_pos hlimit] at ht
          cases ht
          exact ⟨le_rfl, by omega, fun k hk hk' => by omega, Or.inr (by omega)⟩
        · simp only [if_neg hlimit] at ht
          obtain ⟨hle, hge, habove, hat⟩ := ih ht
          refine ⟨by omega, by omega, fun k hk hk' => ?_, hat.imp_right fun heq => by omega⟩
          by_cases hkh : k = h + 1
          · rwa [hkh]
          · exact habove k hk (by omega)

/-- Without lost connections a walk finds a target. -/
theorem walkTarget_exists (hnode : ∀ h e, node.atWalk h = .error e → e.isConnection = false)
    (h walked : ℕ) : ∃ t, walkTarget m node h walked = .ok t := by
  have hagree : ∀ h, ∃ agrees,
      agreement ((m h).map CompactBlock.hash) (node.atWalk h) = .ok agrees := by
    intro h
    unfold agreement
    cases (m h).map CompactBlock.hash with
    | none => exact ⟨false, rfl⟩
    | some hash =>
      cases hans : node.atWalk h with
      | ok block => exact ⟨_, rfl⟩
      | error e => exact ⟨false, by simp [hnode h e hans]⟩
  induction h generalizing walked with
  | zero =>
    obtain ⟨agrees, hag⟩ := hagree 0
    exact ⟨0, by rw [walkTarget, hag]; rfl⟩
  | succ h ih =>
    obtain ⟨agrees, hag⟩ := hagree (h + 1)
    rw [walkTarget, hag]
    cases agrees with
    | true => exact ⟨h + 1, rfl⟩
    | false =>
      simp only []
      split_ifs
      · exact ⟨h + 1, rfl⟩
      · exact ih (walked + 1)

end Walk

/-- The node answers the walk from the chain `remote`: its block at every height it has, an
error at the others. -/
def WalksChain (node : Node) (remote : List BlockInfo) : Prop :=
  ∀ h, match remote[h]? with
    | some block => node.atWalk h = .ok block
    | none => ∃ e, node.atWalk h = .error e

/-- Cache and node have the same block at `h`. -/
def SameBlock (chain : List CompactBlock) (remote : List BlockInfo) (h : ℕ) : Prop :=
  ∃ cached block, chain[h]? = some cached ∧ remote[h]? = some block ∧
    block.header.hash = cached.hash

/-- A node that walks a chain agrees exactly where both chains have one block. -/
theorem WalksChain.agreesAt_iff {node : Node} {remote : List BlockInfo} (hw : WalksChain node remote)
    (chain : List CompactBlock) (h : ℕ) :
    AgreesAt (chainMap chain) node h ↔ SameBlock chain remote h := by
  have hh := hw h
  unfold AgreesAt SameBlock chainMap
  cases hremote : remote[h]? with
  | none =>
    rw [hremote] at hh
    obtain ⟨e, he⟩ := hh
    simp [he]
  | some block =>
    rw [hremote] at hh
    simp [hh]

/-- What a rewind of a chain to a common ancestor with `remote` ought to reach: no blocks
and no tip, or as tip the last block up to `start` that both have. -/
def ReachesAgreement (chain : List CompactBlock) (remote : List BlockInfo) (start : ℕ)
    (s' : Cache) : Prop :=
  (s'.db.blocks.compactBlocks = .empty ∧ s'.db.blocks.readTip = .ok none) ∨
    ∃ t block, s'.db.blocks.readTip = .ok (some (t, block.hash)) ∧
      s'.db.blocks.compactBlocks.get t = some (.value block) ∧ t ≤ start ∧
      (∃ answer, remote[t]? = some answer ∧ answer.header.hash = block.hash) ∧
      ∀ k, t < k → k ≤ start → ¬ SameBlock chain remote k

/-- A rewind to the last height deletes every block and keeps the tip. -/
theorem not_reachesAgreement_last {chain : List CompactBlock} {remote : List BlockInfo}
    {s' : Cache} {b : BlockRows} {start : ℕ} (hb : b.HoldsChain chain) (hne : chain ≠ [])
    (hblocks : s'.db.blocks = b.rewound u32Max) : ¬ ReachesAgreement chain remote start s' := by
  have hgone : ∀ k, (b.deleteWhere fun h => decide (wrappingAdd u32Max 1 ≤ h)).compactBlocks.get k =
      none := by
    intro k
    rw [BlockRows.deleteWhere_compactBlocks, OrderedMap.get_filter]
    exact if_neg (by simp [wrappingAdd])
  have hrewound : s'.db.blocks = b.deleteWhere fun h => decide (wrappingAdd u32Max 1 ≤ h) := by
    rw [hblocks]
    unfold BlockRows.rewound BlockRows.rewoundTip
    rw [hgone]
    exact if_neg (by decide)
  rintro (⟨-, hnone⟩ | ⟨t, block, -, hrow, -⟩)
  · rw [hrewound, BlockRows.deleteWhere_readTip, hb.readTip, Except.ok.injEq,
      chainTip_eq_none_iff] at hnone
    exact hne hnone
  · rw [hrewound, hgone] at hrow
    cases hrow

/-- The cut of a chain reaches agreement when its last block is one that both have and the next
ones are not. -/
theorem reachesAgreement_take_iff {chain : List CompactBlock} {remote : List BlockInfo}
    {s' : Cache} {start t : ℕ} (hcut : s'.db.blocks.HoldsChain (chain.take (t + 1)))
    (ht : t < chain.length) (hle : t ≤ start) :
    ReachesAgreement chain remote start s' ↔
      SameBlock chain remote t ∧ ∀ k, t < k → k ≤ start → ¬ SameBlock chain remote k := by
  have hcached : chain[t]? = some chain[t] := List.getElem?_eq_getElem ht
  have htip : s'.db.blocks.readTip = .ok (some (t, chain[t].hash)) := by
    rw [hcut.readTip, chainTip_take hcached]
  have hrow : s'.db.blocks.compactBlocks.get t = some (.value chain[t]) := by
    rw [hcut.rows.compactBlocks]
    unfold chainMap
    rw [List.getElem?_take, if_pos (Nat.lt_succ_self t), hcached]
    rfl
  constructor
  · rintro (⟨-, hnone⟩ | ⟨t', block, htip', hrow', -, ⟨answer, hanswer, hhash⟩, habove⟩)
    · rw [htip] at hnone
      cases hnone
    · obtain rfl : t = t' := congrArg Prod.fst (Option.some.inj (Except.ok.inj (htip.symm.trans htip')))
      obtain rfl : chain[t] = block :=
        Stored.value.inj (Option.some.inj (hrow.symm.trans hrow'))
      exact ⟨⟨_, answer, hcached, hanswer, hhash⟩, habove⟩
  · rintro ⟨⟨cached, answer, hcached', hanswer, hhash⟩, habove⟩
    obtain rfl : chain[t] = cached := Option.some.inj (hcached.symm.trans hcached')
    exact Or.inr ⟨t, _, htip, hrow, hle, ⟨answer, hanswer, hhash⟩, habove⟩

/-- A walk that returns reaches agreement exactly when cache and node have a block in common no
more than 10000 heights below the start, and it is not at the last height of all. -/
theorem rewind_reaches_agreement {chain : List CompactBlock} {remote : List BlockInfo} {node : Node}
    {s s' : Cache} {start r : ℕ} (hs : s.db.blocks.HoldsChain chain) (hstart : start < chain.length)
    (hmax : start ≤ u32Max) (hnode : WalksChain node remote)
    (hok : (rewindToCommonAncestor node start).run s = (.ok r, s')) :
    ReachesAgreement chain remote start s' ↔
      (∃ k, start - maxWalk ≤ k ∧ k ≤ start ∧ SameBlock chain remote k) ∧
        ¬ (start = u32Max ∧ SameBlock chain remote start) := by
  have hrun := walkBack_run node hs.rows start 0
  rw [show walkBack node start 0 = rewindToCommonAncestor node start from rfl, hok] at hrun
  cases htarget : walkTarget (chainMap chain) node start 0 with
  | error e =>
    rw [htarget] at hrun
    cases hrun
  | ok t =>
    rw [htarget] at hrun
    obtain ⟨hle, hge, habove, hat⟩ := walkTarget_spec htarget
    rw [Nat.sub_zero] at hge hat
    simp only [hnode.agreesAt_iff] at habove hat
    obtain ⟨_, s₁, hrewind, hret⟩ := Prog.run_bind_eq_ok hrun.symm
    cases hret
    have hblocks : s'.db.blocks = s.db.blocks.rewound t := by
      have hexec := @rewindToHeight_blocks t s (hs.sound hstart)
      unfold Prog.exec at hexec
      rwa [hrewind] at hexec
    by_cases hlast : t = u32Max
    · -- the walk found agreement at once, at a height after which the next one is 0
      obtain rfl : start = t := by omega
      have hsame : SameBlock chain remote start := hat.resolve_right fun heq => by
        have : 0 < maxWalk := by decide
        have : 0 < u32Max := by decide
        omega
      refine iff_of_false (not_reachesAgreement_last hs ?_ (hlast ▸ hblocks)) fun h =>
        h.2 ⟨hlast, hsame⟩
      exact List.ne_nil_of_length_pos (by omega)
    · -- the rows are those of the chain cut at the target
      have hcut : s'.db.blocks.HoldsChain (chain.take (t + 1)) :=
        hblocks ▸ hs.rewound (by omega) (by omega)
      rw [reachesAgreement_take_iff hcut (by omega) hle]
      constructor
      · rintro ⟨hsame, -⟩
        refine ⟨⟨t, hge, hle, hsame⟩, fun ⟨hstart', hsame'⟩ => ?_⟩
        exact habove start (by omega) le_rfl hsame'
      · rintro ⟨⟨k, hk, hks, hsame⟩, -⟩
        -- the target is at or above the agreement, so the walk limit alone did not end the walk
        have hkt : k ≤ t := by
          by_contra hlt
          exact habove k (by omega) hks hsame
        refine ⟨hat.elim id fun heq => ?_, habove⟩
        rwa [show t = k by omega]

/-- A block without transactions. -/
def BlockInfo.bare (height : ℕ) (previous hash : UInt8) : BlockInfo :=
  ⟨⟨height, Bytes32.fill previous, 0, Bytes32.fill hash⟩, []⟩

/-- A node with a chain, without errors. Its tip is the last block of the chain. -/
def Node.serving (remote : List BlockInfo) : Node where
  lastConfirmedBlock := match remote.getLast? with
    | some block => .ok (block.header.height, .ok block.header.hash)
    | none => .error (.rpcError "no confirmed block")
  atCachedTip := fun h => remote[h]?.elim (.error (.rpcError "block not found")) .ok
  atFetch := fun h => remote[h]?.elim (.error (.rpcError "block not found")) .ok
  atWalk := fun h => remote[h]?.elim (.error (.rpcError "block not found")) .ok

/-- A serving node walks its chain. -/
theorem Node.serving_walksChain (remote : List BlockInfo) :
    WalksChain (Node.serving remote) remote := by
  intro h
  cases hremote : remote[h]? with
  | none => exact ⟨_, by simp [Node.serving, hremote]; rfl⟩
  | some block => simp [Node.serving, hremote]

/-- The cache of two blocks holds its chain. -/
theorem blocksZeroOne_holdsChain :
    blocksZeroOne.db.blocks.HoldsChain [.sample 0 1 [1] [], .sample 1 2 [2] []] := by
  have hblocks : blocksZeroOne.db.blocks =
      (BlockRows.empty.inserted (.sample 0 1 [1] [])).inserted (.sample 1 2 [2] []) := by
    decide +kernel
  rw [hblocks]
  exact (BlockRows.HoldsChain.empty.inserted rfl).inserted rfl

/-- A fork above the genesis block is left by a rewind to it. -/
theorem rewind_reaches_agreement_zero :
    ReachesAgreement [.sample 0 1 [1] [], .sample 1 2 [2] []] [.bare 0 0 1, .bare 1 1 3] 1
      ((rewindToCommonAncestor (.serving [.bare 0 0 1, .bare 1 1 3]) 1).exec blocksZeroOne) := by
  refine (rewind_reaches_agreement (r := 0) blocksZeroOne_holdsChain (by decide) (by decide)
    (Node.serving_walksChain _) (Prod.ext (by decide +kernel) rfl)).mpr ⟨⟨0, by decide, by decide, ?_⟩,
      fun h => absurd h.1 (by decide)⟩
  exact ⟨_, _, rfl, rfl, rfl⟩

/-- Against another genesis the walk ends at height 0 and keeps the block there. -/
theorem rewind_keeps_other_genesis :
    blocksZeroOne.db.blocks.HoldsChain [.sample 0 1 [1] [], .sample 1 2 [2] []] ∧
      WalksChain (.serving [.bare 0 0 8, .bare 1 8 9]) [.bare 0 0 8, .bare 1 8 9] ∧
      ((rewindToCommonAncestor (.serving [.bare 0 0 8, .bare 1 8 9]) 1).run blocksZeroOne).1 =
        .ok 0 ∧
      ¬ ReachesAgreement [.sample 0 1 [1] [], .sample 1 2 [2] []] [.bare 0 0 8, .bare 1 8 9] 1
        ((rewindToCommonAncestor (.serving [.bare 0 0 8, .bare 1 8 9]) 1).exec blocksZeroOne) := by
  have htip : ((rewindToCommonAncestor (.serving [.bare 0 0 8, .bare 1 8 9]) 1).exec
      blocksZeroOne).db.blocks.readTip = .ok (some (0, Bytes32.fill 1)) := by
    decide +kernel
  refine ⟨blocksZeroOne_holdsChain, Node.serving_walksChain _, by decide +kernel, ?_⟩
  rintro (⟨-, hnone⟩ | ⟨t, block, hread, -, -, ⟨answer, hanswer, hhash⟩, -⟩)
  · rw [htip] at hnone
    cases hnone
  · rw [htip] at hread
    injection hread with hread
    injection hread with hread
    obtain ⟨rfl, hblock⟩ := Prod.mk.inj hread
    cases hanswer
    rw [← hblock] at hhash
    exact absurd hhash (by decide)

end LightWalletd
