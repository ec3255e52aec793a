import LightWalletd.Analysis.ProcessingErrors

/-!
# What is indexed

A processed block is a function of its calls, each taken for itself: the outputs and nullifiers of
a transaction are those of its calls in order, and so are the DAO records and the auth-token
events of the block. A call to another contract or of an unknown function contributes nothing,
so leaving such calls out or putting them in changes no more than hashes.
-/

set_option autoImplicit false

namespace LightWalletd

open Stateful

/-- What a deserializer accepts. -/
def decoded {α : Type} (r : Except String α) : List α := r.toOption.toList

/-- The coins of the outputs that are not local to their transaction. -/
def visibleCoins (outputs : List MoneyOutput) : List Bytes32 :=
  (outputs.filter fun o => !o.txLocal).map fun o => o.coin.repr

/-- The coins of a Money call with these parameters. -/
def MoneyFunction.coins (d : Darkfi) (bytes : Bytes) : MoneyFunction → List Bytes32
  | .feeV1 => (decoded (d.feeParams bytes)).flatMap fun p => visibleCoins [p.output]
  | .genesisMintV1 => (decoded (d.genesisMintParams bytes)).flatMap fun p => visibleCoins p.outputs
  | .poWRewardV1 => (decoded (d.powRewardParams bytes)).flatMap fun p => visibleCoins [p.output]
  | .transferV1 => (decoded (d.transferParams bytes)).flatMap fun p => visibleCoins p.outputs
  | .tokenMintV1 => (decoded (d.tokenMintParams bytes)).map fun p => p.coin.repr
  | .burnV1 | .authTokenMintV1 | .authTokenFreezeV1 => []

/-- The compact outputs of a Money call with these parameters. -/
def MoneyFunction.outputs (d : Darkfi) (code : UInt8) (bytes : Bytes) :
    MoneyFunction → List CompactOutput
  | .feeV1 => (decoded (d.feeParams bytes)).flatMap fun p => compactOutputs [p.output] code
  | .genesisMintV1 =>
    (decoded (d.genesisMintParams bytes)).flatMap fun p => compactOutputs p.outputs code
  | .poWRewardV1 =>
    (decoded (d.powRewardParams bytes)).flatMap fun p => compactOutputs [p.output] code
  | .transferV1 => (decoded (d.transferParams bytes)).flatMap fun p => compactOutputs p.outputs code
  | .tokenMintV1 => (decoded (d.tokenMintParams bytes)).map fun p =>
      ⟨p.coin.repr, p.encNote, [], Bytes32.fill 0, [], [], code⟩
  | .burnV1 | .authTokenMintV1 | .authTokenFreezeV1 => []

/-- The nullifiers of a Money call with these parameters. -/
def MoneyFunction.nullifiers (d : Darkfi) (bytes : Bytes) : MoneyFunction → List Bytes32
  | .feeV1 => (decoded (d.feeParams bytes)).map fun p => p.input.nullifier.repr
  | .transferV1 => (decoded (d.transferParams bytes)).flatMap fun p =>
      p.inputs.map fun i => i.nullifier.repr
  | .burnV1 => (decoded (d.burnParams bytes)).flatMap fun p =>
      p.inputs.map fun i => i.nullifier.repr
  | _ => []

/-- The bulla and the payload that are kept of a DAO call with these parameters. -/
def DaoFunction.kept (d : Darkfi) (bytes : Bytes) : DaoFunction → List (Bytes × Bytes)
  | .mint => (decoded (d.daoMintParams bytes)).map fun p => (p.daoBulla.repr.1, p.daoPubkey)
  | .propose => (decoded (d.daoProposeParams bytes)).map fun p =>
      (p.proposalBulla.repr.1, p.tokenCommitAndNote)
  | .vote => (decoded (d.daoVoteParams bytes)).map fun p =>
      (p.proposalBulla.repr.1, p.noteAndNullifiers)
  | .exec => (decoded (d.daoExecParams bytes)).map fun p =>
      (p.proposalBulla.repr.1, [if p.earlyExec then 1 else 0])
  | .authMoneyTransfer => (decoded (d.daoAuthMoneyTransferParams bytes)).map fun p =>
      ([], p.encAttrsAndChangeAttrs)

/-- The event of an auth-token function. -/
def MoneyFunction.authEvents (txHash : Bytes32) (code : UInt8) :
    MoneyFunction → List CompactFuncEvent
  | .authTokenMintV1 | .authTokenFreezeV1 => [⟨txHash, code⟩]
  | _ => []

namespace ContractCall

variable (d : Darkfi) (call : ContractCall)

/-- The coins that a call adds. -/
def coins : List Bytes32 :=
  (call.moneyFunction d).toList.flatMap fun func => func.coins d (call.data.drop func.paramsFrom)

/-- The compact outputs that a call adds. -/
def outputs : List CompactOutput := (call.moneyFunction d).toList.flatMap fun func =>
  func.outputs d (call.data.headD 0) (call.data.drop func.paramsFrom)

/-- The nullifiers that a call adds. -/
def nullifiers : List Bytes32 := (call.moneyFunction d).toList.flatMap fun func =>
  func.nullifiers d (call.data.drop func.paramsFrom)

/-- The DAO function of a call. -/
def daoFunction : Option DaoFunction :=
  if call.contractId = d.daoContractId then call.data.head?.bind d.daoFunction else none

/-- The record of a DAO call that decodes. -/
def daoRecords (txHash : Bytes32) : List CompactDaoCallRecord :=
  (call.daoFunction d).toList.flatMap fun func =>
    (func.kept d (call.data.drop 1)).map fun kept =>
      ⟨txHash, d.daoFunctionCode func, kept.1, kept.2⟩

/-- The event of an auth-token call. -/
def authEvents (txHash : Bytes32) : List CompactFuncEvent :=
  (call.moneyFunction d).toList.flatMap fun func => func.authEvents txHash (call.data.headD 0)

/-- The call is one of a known Money or DAO function. -/
def known : Bool := (call.moneyFunction d).isSome || (call.daoFunction d).isSome

end ContractCall

/-- The compact form of a transaction. -/
def Transaction.compact (d : Darkfi) (tx : Transaction) : CompactTx where
  txHash := tx.hash
  outputs := tx.calls.flatMap (ContractCall.outputs d)
  nullifiers := tx.calls.flatMap (ContractCall.nullifiers d)
  fee := 0

/-- What is kept of a block: every transaction with an output or a nullifier, and the history of
all of them. -/
def BlockInfo.content (d : Darkfi) (block : BlockInfo) : CompactBlock where
  height := block.header.height
  hash := block.header.hash
  prevHash := block.header.previous
  timestamp := block.header.timestamp
  txs := (block.txs.map (Transaction.compact d)).filter fun t =>
    decide (t.outputs ≠ [] ∨ t.nullifiers ≠ [])
  daoCalls := block.txs.flatMap fun tx => tx.calls.flatMap fun call => call.daoRecords d tx.hash
  funcEvents := block.txs.flatMap fun tx => tx.calls.flatMap fun call => call.authEvents d tx.hash

/-- What decodes is one item. -/
@[simp] theorem decoded_ok {α : Type} (a : α) : decoded (.ok a) = [a] := rfl

/-! ## Calls -/

section Calls

variable {d : Darkfi} {txHash : Bytes32} {acc acc' : CallEffects} {call : ContractCall}

/-- A Money call of `func` adds what its parameters say. -/
theorem processMoneyCall_adds {func : MoneyFunction} {code : UInt8} {data : Bytes}
    (h : processMoneyCall d txHash func code data acc = .ok acc') :
    acc' = {
      outputs := acc.outputs ++ func.outputs d code (data.drop func.paramsFrom)
      nullifiers := acc.nullifiers ++ func.nullifiers d (data.drop func.paramsFrom)
      daoCalls := acc.daoCalls
      funcEvents := acc.funcEvents ++ func.authEvents txHash code } := by
  cases func <;>
    · obtain ⟨params, hparams, rfl⟩ := deserialized_bind_ok (sliceFrom_bind_ok h)
      simp [-List.drop_one, MoneyFunction.outputs, MoneyFunction.nullifiers,
        MoneyFunction.authEvents, MoneyFunction.paramsFrom, hparams]

/-- A DAO call has a record exactly when its function is known and its parameters decode. -/
theorem toList_compactDaoCall (hdao : call.contractId = d.daoContractId) :
    (compactDaoCall d txHash call.data).toOption.join.toList = call.daoRecords d txHash := by
  unfold ContractCall.daoRecords ContractCall.daoFunction compactDaoCall
  rw [if_pos hdao]
  cases call.data with
  | nil => rfl
  | cons code rest =>
    simp only [List.head?_cons, Option.bind_some, List.drop_succ_cons, List.drop_zero]
    cases d.daoFunction code with
    | none => rfl
    | some func =>
      simp only [Option.toList_some, List.flatMap_singleton]
      cases func with
      | mint => simp only [DaoFunction.kept]; cases d.daoMintParams rest <;> rfl
      | propose => simp only [DaoFunction.kept]; cases d.daoProposeParams rest <;> rfl
      | vote => simp only [DaoFunction.kept]; cases d.daoVoteParams rest <;> rfl
      | exec => simp only [DaoFunction.kept]; cases d.daoExecParams rest <;> rfl
      | authMoneyTransfer =>
        simp only [DaoFunction.kept]
        cases d.daoAuthMoneyTransferParams rest <;> rfl

/-- A call to another contract has no record. -/
theorem daoRecords_of_ne (hdao : call.contractId ≠ d.daoContractId) :
    call.daoRecords d txHash = [] := by
  unfold ContractCall.daoRecords ContractCall.daoFunction
  rw [if_neg hdao]
  rfl

/-- A call adds its outputs, nullifiers, record and event, and nothing else. -/
theorem processCall_adds (h : processCall d txHash acc call = .ok acc') :
    acc' = {
      outputs := acc.outputs ++ call.outputs d
      nullifiers := acc.nullifiers ++ call.nullifiers d
      daoCalls := acc.daoCalls ++ call.daoRecords d txHash
      funcEvents := acc.funcEvents ++ call.authEvents d txHash } := by
  unfold ContractCall.outputs ContractCall.nullifiers ContractCall.authEvents
  cases hfunc : call.moneyFunction d with
  | some func =>
    obtain ⟨code, rest, hdata, -, heq⟩ := processCall_of_some txHash hfunc acc
    rw [heq] at h
    have hmoney : ¬ call.contractId = d.daoContractId := by
      unfold ContractCall.moneyFunction at hfunc
      split_ifs at hfunc with hcontract
      exact hcontract.1
    rw [processMoneyCall_adds h, daoRecords_of_ne hmoney, hdata]
    simp
  | none =>
    unfold processCall at h
    by_cases hdao : call.contractId = d.daoContractId
    · have hrecords := @toList_compactDaoCall d txHash call hdao
      rw [if_pos hdao] at h
      rw [← hrecords]
      rcases hrecord : compactDaoCall d txHash call.data with e | _ | record
      all_goals
        rw [hrecord] at h
        cases h
        simp [Except.toOption]
    · rw [if_neg hdao] at h
      rw [daoRecords_of_ne hdao]
      have hsame : acc' = acc := by
        unfold ContractCall.moneyFunction at hfunc
        split_ifs at h with hmoney
        · cases h
          rfl
        · rw [if_pos ⟨hdao, not_not.mp hmoney⟩] at hfunc
          cases hdata : call.data with
          | nil =>
            rw [hdata] at h
            cases h
            rfl
          | cons code rest =>
            rw [hdata] at hfunc
            have hunknown : d.moneyFunction code = none := hfunc
            simp only [hdata, hunknown] at h
            cases h
            rfl
      simp [hsame]

/-- The coins of compact outputs are the visible ones. -/
theorem coin_compactOutputs (outputs : List MoneyOutput) (code : UInt8) :
    (compactOutputs outputs code).map CompactOutput.coin = visibleCoins outputs := by
  unfold compactOutputs visibleCoins
  rw [List.map_map]
  rfl

/-- The coins of a call are those of its outputs. -/
theorem ContractCall.coin_outputs (d : Darkfi) (call : ContractCall) :
    (call.outputs d).map CompactOutput.coin = call.coins d := by
  unfold ContractCall.outputs ContractCall.coins
  rw [List.map_flatMap]
  congr 1
  funext func
  cases func <;>
    simp [MoneyFunction.outputs, MoneyFunction.coins, List.map_flatMap, coin_compactOutputs,
      Function.comp_def]

end Calls

/-! ## Blocks -/

section Blocks

variable {d : Darkfi} {block : BlockInfo} {c : CompactBlock}

/-- A transaction adds its compact form, when that has content, and the history of its calls. -/
theorem processTx_adds {height : ℕ} {tx : Transaction} {acc acc' : BlockEffects}
    (h : processTx d height acc tx = .ok acc') :
    acc' = {
      txs := acc.txs ++ [tx.compact d].filter fun t =>
        decide (t.outputs ≠ [] ∨ t.nullifiers ≠ [])
      daoCalls := acc.daoCalls ++ tx.calls.flatMap fun call => call.daoRecords d tx.hash
      funcEvents := acc.funcEvents ++ tx.calls.flatMap fun call => call.authEvents d tx.hash } := by
  have hcap : tx.calls.length ≤ maxCallsPerTx := ((processTx_ok_iff height acc tx).mp ⟨acc', h⟩).1
  rw [processTx_eq height acc hcap] at h
  cases hcalls : tx.calls.foldlM (processCall d tx.hash) ⟨[], [], acc.daoCalls, acc.funcEvents⟩ with
  | error e =>
    rw [hcalls] at h
    cases h
  | ok effects =>
    rw [hcalls] at h
    cases h
    have houtputs := foldlM_append CallEffects.outputs (ContractCall.outputs d)
      (fun _ _ _ hcall => congrArg CallEffects.outputs (processCall_adds hcall)) hcalls
    have hnullifiers := foldlM_append CallEffects.nullifiers (ContractCall.nullifiers d)
      (fun _ _ _ hcall => congrArg CallEffects.nullifiers (processCall_adds hcall)) hcalls
    have hdao := foldlM_append CallEffects.daoCalls (fun call => call.daoRecords d tx.hash)
      (fun _ _ _ hcall => congrArg CallEffects.daoCalls (processCall_adds hcall)) hcalls
    have hevents := foldlM_append CallEffects.funcEvents (fun call => call.authEvents d tx.hash)
      (fun _ _ _ hcall => congrArg CallEffects.funcEvents (processCall_adds hcall)) hcalls
    have hcompact : tx.compact d = ⟨tx.hash, effects.outputs, effects.nullifiers, 0⟩ := by
      rw [houtputs, hnullifiers]
      rfl
    rw [hdao, hevents, hcompact]
    by_cases hempty : effects.outputs = [] ∧ effects.nullifiers = []
    · simp [hempty]
    · have hkept : effects.outputs ≠ [] ∨ effects.nullifiers ≠ [] := by
        rwa [← not_and_or]
      have hfull : (effects.outputs.isEmpty && effects.nullifiers.isEmpty) = false := by
        simpa [imp_iff_not_or] using hkept
      simp [hfull, hkept]

/-- A processed block is the content of the full one. -/
theorem processBlock_content (h : processBlock d block = .ok c) : c = block.content d := by
  have hcap := ((processBlock_ok_iff block).mp ⟨c, h⟩).1
  rw [processBlock_eq hcap] at h
  cases htxs : block.txs.foldlM (processTx d block.header.height) ⟨[], [], []⟩ with
  | error e =>
    rw [htxs] at h
    cases h
  | ok effects =>
    rw [htxs] at h
    cases h
    have hkept := foldlM_append BlockEffects.txs
      (fun tx => [tx.compact d].filter fun t => decide (t.outputs ≠ [] ∨ t.nullifiers ≠ []))
      (fun _ _ _ htx => congrArg BlockEffects.txs (processTx_adds htx)) htxs
    have hdao := foldlM_append BlockEffects.daoCalls
      (fun tx => tx.calls.flatMap fun call => call.daoRecords d tx.hash)
      (fun _ _ _ htx => congrArg BlockEffects.daoCalls (processTx_adds htx)) htxs
    have hevents := foldlM_append BlockEffects.funcEvents
      (fun tx => tx.calls.flatMap fun call => call.authEvents d tx.hash)
      (fun _ _ _ htx => congrArg BlockEffects.funcEvents (processTx_adds htx)) htxs
    rw [hkept, hdao, hevents]
    unfold BlockInfo.content
    rw [← List.flatMap_singleton' (block.txs.map (Transaction.compact d)), List.filter_flatMap,
      List.flatMap_map]
    rfl

end Blocks

/-! ## Calls that do not count -/

/-- A DAO record but for the hash of its transaction. -/
def CompactDaoCallRecord.withoutHash (record : CompactDaoCallRecord) : CompactDaoCallRecord :=
  { record with txHash := Bytes32.fill 0 }

/-- An event but for the hash of its transaction. -/
def CompactFuncEvent.withoutHash (event : CompactFuncEvent) : CompactFuncEvent :=
  { event with txHash := Bytes32.fill 0 }

/-- A transaction but for its hash. -/
def CompactTx.withoutHash (tx : CompactTx) : CompactTx := { tx with txHash := Bytes32.fill 0 }

/-- A block but for its hash and those of its transactions. -/
def CompactBlock.withoutHashes (c : CompactBlock) : CompactBlock :=
  { c with
    hash := Bytes32.fill 0
    txs := c.txs.map CompactTx.withoutHash
    daoCalls := c.daoCalls.map CompactDaoCallRecord.withoutHash
    funcEvents := c.funcEvents.map CompactFuncEvent.withoutHash }

/-- Two blocks whose transactions have the same known calls, one by one. -/
structure BlockInfo.SameKnown (d : Darkfi) (block block' : BlockInfo) : Prop where
  height : block'.header.height = block.header.height
  previous : block'.header.previous = block.header.previous
  timestamp : block'.header.timestamp = block.header.timestamp
  calls : List.Forall₂ (fun tx tx' : Transaction =>
    tx'.calls.filter (ContractCall.known d) = tx.calls.filter (ContractCall.known d))
    block.txs block'.txs

section Known

variable {d : Darkfi}

/-- A call of another contract is not a Money call. -/
theorem ContractCall.moneyFunction_of_unknown {call : ContractCall} (h : call.known d = false) :
    call.moneyFunction d = none := by
  unfold known at h
  rw [Bool.or_eq_false_iff] at h
  simpa using h.1

/-- Nor a DAO call. -/
theorem ContractCall.daoFunction_of_unknown {call : ContractCall} (h : call.known d = false) :
    call.daoFunction d = none := by
  unfold known at h
  rw [Bool.or_eq_false_iff] at h
  simpa using h.2

/-- The same known calls contribute the same. -/
theorem flatMap_eq_of_known {γ : Type} {f : ContractCall → List γ}
    (hf : ∀ call : ContractCall, call.known d = false → f call = []) {tx tx' : Transaction}
    (h : tx'.calls.filter (ContractCall.known d) = tx.calls.filter (ContractCall.known d)) :
    tx'.calls.flatMap f = tx.calls.flatMap f := by
  rw [← flatMap_filter_of_nil hf, h, flatMap_filter_of_nil hf]

/-- The hash of the transaction shows in a DAO record as such only. -/
theorem ContractCall.daoRecords_withoutHash (call : ContractCall) (txHash : Bytes32) :
    (call.daoRecords d txHash).map CompactDaoCallRecord.withoutHash =
      call.daoRecords d (Bytes32.fill 0) := by
  unfold daoRecords
  simp only [List.map_flatMap, List.map_map]
  rfl

/-- The hash of the transaction shows in an event as such only. -/
theorem ContractCall.authEvents_withoutHash (call : ContractCall) (txHash : Bytes32) :
    (call.authEvents d txHash).map CompactFuncEvent.withoutHash =
      call.authEvents d (Bytes32.fill 0) := by
  unfold authEvents
  rw [List.map_flatMap]
  congr 1
  funext func
  cases func <;> rfl

/-- A call that is not known contributes nothing. -/
theorem ContractCall.content_of_unknown {call : ContractCall} (h : call.known d = false) :
    call.outputs d = [] ∧ call.nullifiers d = [] ∧
      (∀ txHash, call.daoRecords d txHash = []) ∧ ∀ txHash, call.authEvents d txHash = [] := by
  have hmoney := moneyFunction_of_unknown h
  have hdao := daoFunction_of_unknown h
  refine ⟨?_, ?_, fun txHash => ?_, fun txHash => ?_⟩
  · simp [outputs, hmoney]
  · simp [nullifiers, hmoney]
  · simp [daoRecords, hdao]
  · simp [authEvents, hmoney]

/-- Transactions with the same known calls have the same compact form, but for the hash. -/
theorem Transaction.compact_withoutHash {tx tx' : Transaction}
    (h : tx'.calls.filter (ContractCall.known d) = tx.calls.filter (ContractCall.known d)) :
    (tx'.compact d).withoutHash = (tx.compact d).withoutHash := by
  unfold compact CompactTx.withoutHash
  rw [flatMap_eq_of_known (fun call hcall => (ContractCall.content_of_unknown hcall).1) h,
    flatMap_eq_of_known (fun call hcall => (ContractCall.content_of_unknown hcall).2.1) h]

/-- Blocks with the same known calls have the same content, but for hashes. -/
theorem BlockInfo.SameKnown.content {block block' : BlockInfo} (h : block.SameKnown d block') :
    (block'.content d).withoutHashes = (block.content d).withoutHashes := by
  have htxs : (block'.content d).txs.map CompactTx.withoutHash =
      (block.content d).txs.map CompactTx.withoutHash := by
    have hfilter : ∀ b : BlockInfo, (b.content d).txs.map CompactTx.withoutHash =
        (b.txs.map fun tx => (tx.compact d).withoutHash).filter fun t =>
          decide (t.outputs ≠ [] ∨ t.nullifiers ≠ []) := by
      intro b
      rw [← Function.comp_def CompactTx.withoutHash (Transaction.compact d), ← List.map_map,
        List.filter_map]
      rfl
    rw [hfilter, hfilter, map_eq_map_of_forall₂ (h.calls.imp fun _ _ hcalls =>
      (Transaction.compact_withoutHash hcalls).symm)]
  have hdao : (block'.content d).daoCalls.map CompactDaoCallRecord.withoutHash =
      (block.content d).daoCalls.map CompactDaoCallRecord.withoutHash := by
    unfold BlockInfo.content
    simp only [List.map_flatMap, ContractCall.daoRecords_withoutHash]
    exact (flatMap_eq_of_forall₂ (h.calls.imp fun _ _ hcalls => (flatMap_eq_of_known
      (fun _ hcall => (ContractCall.content_of_unknown hcall).2.2.1 _) hcalls).symm)).symm
  have hevents : (block'.content d).funcEvents.map CompactFuncEvent.withoutHash =
      (block.content d).funcEvents.map CompactFuncEvent.withoutHash := by
    unfold BlockInfo.content
    simp only [List.map_flatMap, ContractCall.authEvents_withoutHash]
    exact (flatMap_eq_of_forall₂ (h.calls.imp fun _ _ hcalls => (flatMap_eq_of_known
      (fun _ hcall => (ContractCall.content_of_unknown hcall).2.2.2 _) hcalls).symm)).symm
  unfold CompactBlock.withoutHashes
  rw [htxs, hdao, hevents]
  show CompactBlock.mk block'.header.height _ block'.header.previous block'.header.timestamp _ _ _ = _
  rw [h.height, h.previous, h.timestamp]
  rfl

/-- With the caps kept, unknown calls do not keep a block from being processed. -/
theorem BlockInfo.SameKnown.decodes {block block' : BlockInfo} (h : block.SameKnown d block')
    (hdecodes : ∀ tx ∈ block.txs, tx.Decodes d)
    (hcap : ∀ tx ∈ block'.txs, tx.calls.length ≤ maxCallsPerTx) :
    ∀ tx ∈ block'.txs, tx.Decodes d := by
  have hcalls : ∀ tx' ∈ block'.txs, ∃ tx ∈ block.txs,
      tx'.calls.filter (ContractCall.known d) = tx.calls.filter (ContractCall.known d) := by
    have := h.calls
    generalize block.txs = txs, block'.txs = txs' at this
    induction this with
    | nil => exact fun _ => nofun
    | cons hhead _ ih =>
      intro tx' htx'
      rw [List.mem_cons] at htx'
      rcases htx' with rfl | htail
      · exact ⟨_, List.mem_cons_self .., hhead⟩
      · obtain ⟨tx, htx, hsame⟩ := ih tx' htail
        exact ⟨tx, List.mem_cons_of_mem _ htx, hsame⟩
  intro tx' htx'
  obtain ⟨tx, htx, hsame⟩ := hcalls tx' htx'
  refine ⟨hcap tx' htx', fun call hcall func hfunc => ?_⟩
  -- a call with parameters is known, so it is one of the calls that are the same
  have hknown : call.known d = true := by
    unfold ContractCall.known
    rw [Option.mem_def.mp hfunc]
    rfl
  have hmem : call ∈ tx.calls.filter (ContractCall.known d) := by
    rw [← hsame]
    exact List.mem_filter.mpr ⟨hcall, hknown⟩
  exact (hdecodes tx htx).2 call (List.mem_filter.mp hmem).1 func hfunc

end Known

/-! ## The content of a processed block -/

/-- Transactions that are not kept have nothing that could be read off them. -/
theorem flatMap_content {γ : Type} {f : CompactTx → List γ}
    (hf : ∀ t : CompactTx, t.outputs = [] → t.nullifiers = [] → f t = []) (d : Darkfi)
    (block : BlockInfo) :
    (block.content d).txs.flatMap f = block.txs.flatMap fun tx => f (tx.compact d) := by
  have hkept := flatMap_filter_of_nil (f := f)
    (p := fun t => decide (t.outputs ≠ [] ∨ t.nullifiers ≠ [])) (fun t ht => by
      simp only [decide_eq_false_iff_not, not_or, not_not] at ht
      exact hf t ht.1 ht.2) (block.txs.map (Transaction.compact d))
  exact hkept.trans (List.flatMap_map _ _ _)

/-- The coins of a block, call by call. -/
theorem BlockInfo.content_allCoins (d : Darkfi) (block : BlockInfo) :
    (block.content d).allCoins =
      block.txs.flatMap fun tx => tx.calls.flatMap (ContractCall.coins d) := by
  have hflat := flatMap_content (f := fun t => t.outputs.map CompactOutput.coin)
    (fun t ht _ => by rw [ht]; rfl) d block
  refine hflat.trans (List.flatMap_congr fun tx _ => ?_)
  unfold Transaction.compact
  rw [List.map_flatMap]
  simp only [ContractCall.coin_outputs]

/-- The nullifiers of a block, call by call. -/
theorem BlockInfo.content_allNullifiers (d : Darkfi) (block : BlockInfo) :
    (block.content d).allNullifiers =
      block.txs.flatMap fun tx => tx.calls.flatMap (ContractCall.nullifiers d) :=
  flatMap_content (f := CompactTx.nullifiers) (fun _ _ ht => ht) d block

/-- A processed block has the coins and the nullifiers of its calls in order, the transactions
that contribute one, the DAO calls that decode and the auth-token calls. Other calls may be left
out or put in within the caps, and nothing but hashes changes. -/
theorem processed_content {d : Darkfi} {block : BlockInfo} {c : CompactBlock}
    (h : processBlock d block = .ok c) :
    c.allCoins = (block.txs.flatMap fun tx => tx.calls.flatMap (ContractCall.coins d)) ∧
    c.allNullifiers = (block.txs.flatMap fun tx => tx.calls.flatMap (ContractCall.nullifiers d)) ∧
    c.txs = ((block.txs.map (Transaction.compact d)).filter fun t =>
      decide (t.outputs ≠ [] ∨ t.nullifiers ≠ [])) ∧
    c.daoCalls = (block.txs.flatMap fun tx =>
      tx.calls.flatMap fun call => call.daoRecords d tx.hash) ∧
    c.funcEvents = (block.txs.flatMap fun tx =>
      tx.calls.flatMap fun call => call.authEvents d tx.hash) ∧
    ∀ block', block.SameKnown d block' →
      (∀ tx ∈ block'.txs, tx.calls.length ≤ maxCallsPerTx) →
      ∃ c', processBlock d block' = .ok c' ∧ c'.withoutHashes = c.withoutHashes := by
  have hcontent := processBlock_content h
  obtain ⟨hcap, hdecodes⟩ := (processBlock_ok_iff block).mp ⟨c, h⟩
  rw [hcontent]
  refine ⟨block.content_allCoins d, block.content_allNullifiers d, rfl, rfl, rfl,
    fun block' hsame hcap' => ?_⟩
  have hlen : block'.txs.length ≤ maxTxsPerBlock := hsame.calls.length_eq ▸ hcap
  obtain ⟨c', hc'⟩ := (processBlock_ok_iff block').mpr ⟨hlen, hsame.decodes hdecodes hcap'⟩
  refine ⟨c', hc', ?_⟩
  rw [processBlock_content hc']
  exact hsame.content

/-- A fee call with its gas cost. -/
def feeCall : ContractCall := ⟨Bytes32.fill 1, [0, 1, 0, 0, 0, 0, 0, 0, 0]⟩

/-- A vote with what its note and nullifiers are serialised to. -/
def voteCall : ContractCall := ⟨Bytes32.fill 2, [2, 5, 6]⟩

/-- The fee contracts with votes, whose bulla is zero. -/
def Darkfi.feeAndVote : Darkfi :=
  { Darkfi.feeOnly with
    daoFunction := fun code => if code = 2 then some .vote else none
    daoFunctionCode := fun _ => 2
    daoVoteParams := fun bytes => .ok ⟨Base.zero, bytes⟩ }

/-- A block with one transaction with these calls. -/
def callsBlock (calls : List ContractCall) : BlockInfo where
  header := ⟨7, Bytes32.fill 6, 0, Bytes32.fill 7⟩
  txs := [⟨Bytes32.fill 9, calls⟩]

/-- Between a fee and a vote there may be a call to another contract and calls of unknown
functions. -/
theorem processed_content_mixed :
    ∃ c c', processBlock .feeAndVote (callsBlock [feeCall, voteCall]) = .ok c ∧
      c.allCoins = [Base.zero.repr] ∧ c.allNullifiers = [Base.zero.repr] ∧
      c.daoCalls = [⟨Bytes32.fill 9, 2, Base.zero.repr.1, [5, 6]⟩] ∧
      processBlock .feeAndVote (callsBlock [⟨Bytes32.fill 3, []⟩, feeCall,
        ⟨Bytes32.fill 1, [77]⟩, ⟨Bytes32.fill 2, [78]⟩, voteCall]) = .ok c' ∧
      c'.withoutHashes = c.withoutHashes := by
  obtain ⟨c, hc⟩ : ∃ c, processBlock .feeAndVote (callsBlock [feeCall, voteCall]) = .ok c :=
    ⟨_, rfl⟩
  obtain ⟨hcoins, hnullifiers, -, hdao, -, hsame⟩ := processed_content hc
  obtain ⟨c', hc', heq⟩ := hsame (callsBlock [⟨Bytes32.fill 3, []⟩, feeCall,
    ⟨Bytes32.fill 1, [77]⟩, ⟨Bytes32.fill 2, [78]⟩, voteCall])
    ⟨rfl, rfl, rfl, .cons (by decide) .nil⟩ (by decide)
  exact ⟨c, c', hc, hcoins.trans (by decide +kernel), hnullifiers.trans (by decide +kernel),
    hdao.trans (by decide +kernel), hc', heq⟩

end LightWalletd
