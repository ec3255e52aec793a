import LightWalletd.Model.Types

/-!
# The block processor

From a full block to a compact block. The Money and DAO parameter types are those of the
darkfi crates; what deserialises them, the contract ids and the function discriminants
are the parameters of the model, collected in `Darkfi`. A field of such a type that is
only ever serialised again is kept in its serialised form.
-/

set_option autoImplicit false

namespace LightWalletd

/-- SOURCE: block_processor.rs:64-66 -/
def maxTxsPerBlock : ℕ := 100000

/-- The most calls of a transaction. -/
def maxCallsPerTx : ℕ := 10000

/-! ## Full blocks -/

/-- A header with the hash that `header.hash()` computes from it. -/
structure BlockHeader where
  height : ℕ
  previous : Bytes32
  timestamp : ℕ
  hash : Bytes32
  deriving DecidableEq

/-- A call of a contract: whose, and its data. -/
structure ContractCall where
  contractId : Bytes32
  data : Bytes
  deriving DecidableEq

/-- A transaction with the hash that `tx.hash()` computes from it. -/
structure Transaction where
  hash : Bytes32
  calls : List ContractCall
  deriving DecidableEq

/-- A block as darkfid serves it. -/
structure BlockInfo where
  header : BlockHeader
  txs : List Transaction
  deriving DecidableEq

/-! ## Call parameters -/

/-- The discriminants of the Money contract that the processor knows. -/
inductive MoneyFunction
  | feeV1
  | genesisMintV1
  | poWRewardV1
  | transferV1
  | authTokenMintV1
  | authTokenFreezeV1
  | tokenMintV1
  | burnV1
  deriving DecidableEq

/-- The functions of the DAO contract. -/
inductive DaoFunction
  | mint
  | propose
  | vote
  | exec
  | authMoneyTransfer
  deriving DecidableEq

/-- An input of a Money call, as far as it is read. -/
structure MoneyInput where
  nullifier : Base

/-- An output of a Money call, as far as it is read. -/
structure MoneyOutput where
  coin : Base
  note : Bytes
  valueCommit : Bytes
  tokenCommit : Base
  txLocal : Bool

/-- The parameters of a fee call. -/
structure MoneyFeeParamsV1 where
  input : MoneyInput
  output : MoneyOutput

/-- The parameters of a transfer. -/
structure MoneyTransferParamsV1 where
  inputs : List MoneyInput
  outputs : List MoneyOutput

/-- The parameters of a genesis mint. -/
structure MoneyGenesisMintParamsV1 where
  outputs : List MoneyOutput

/-- The parameters of a block reward. -/
structure MoneyPoWRewardParamsV1 where
  output : MoneyOutput

/-- The parameters of a token mint. -/
structure MoneyTokenMintParamsV1 where
  coin : Base
  encNote : Bytes

/-- The parameters of a burn. -/
structure MoneyBurnParamsV1 where
  inputs : List MoneyInput

/-- The parameters of a new DAO. -/
structure DaoMintParams where
  daoBulla : Base
  daoPubkey : Bytes

/-- The parameters of a proposal. -/
structure DaoProposeParams where
  proposalBulla : Base
  tokenCommitAndNote : Bytes

/-- The parameters of a vote. -/
structure DaoVoteParams where
  proposalBulla : Base
  noteAndNullifiers : Bytes

/-- The parameters of an execution. -/
structure DaoExecParams where
  proposalBulla : Base
  earlyExec : Bool

/-- The parameters of an authorised transfer. -/
structure DaoAuthMoneyTransferParams where
  encAttrsAndChangeAttrs : Bytes

/-- What the darkfi crates supply. A deserialiser returns the text of its error. -/
structure Darkfi where
  moneyContractId : Bytes32
  daoContractId : Bytes32
  moneyFunction : UInt8 → Option MoneyFunction
  daoFunction : UInt8 → Option DaoFunction
  daoFunctionCode : DaoFunction → ℕ
  feeParams : Bytes → Except String MoneyFeeParamsV1
  transferParams : Bytes → Except String MoneyTransferParamsV1
  genesisMintParams : Bytes → Except String MoneyGenesisMintParamsV1
  powRewardParams : Bytes → Except String MoneyPoWRewardParamsV1
  tokenMintParams : Bytes → Except String MoneyTokenMintParamsV1
  burnParams : Bytes → Except String MoneyBurnParamsV1
  authTokenMintParams : Bytes → Except String Unit
  authTokenFreezeParams : Bytes → Except String Unit
  daoMintParams : Bytes → Except String DaoMintParams
  daoProposeParams : Bytes → Except String DaoProposeParams
  daoVoteParams : Bytes → Except String DaoVoteParams
  daoExecParams : Bytes → Except String DaoExecParams
  daoAuthMoneyTransferParams : Bytes → Except String DaoAuthMoneyTransferParams

/-! ## Calls -/

/-- A deserialisation whose error is a processing error that names the parameters. -/
def deserialized {α : Type} (what : String) (r : Except String α) : Except LightWalletError α :=
  match r with
  | .ok a => .ok a
  | .error e => .error (.processingError (what ++ ": " ++ e))

/-- `&data[n..]`, which panics when `data` is shorter than `n`. -/
def sliceFrom (n : ℕ) (data : Bytes) : Except LightWalletError Bytes :=
  if n ≤ data.length then .ok (data.drop n) else .error .panicked

/-- SOURCE: block_processor.rs:336-354 -/
def outputToCompact (output : MoneyOutput) (funcCode : UInt8) : CompactOutput where
  coin := output.coin.repr
  encryptedNote := output.note
  valueCommit := output.valueCommit
  tokenCommit := output.tokenCommit.repr
  omrClue := []
  omrMetadataEnc := []
  funcCode := funcCode

/-- The outputs that are not local to their transaction. -/
def compactOutputs (outputs : List MoneyOutput) (funcCode : UInt8) : List CompactOutput :=
  (outputs.filter fun o => !o.txLocal).map fun o => outputToCompact o funcCode

/-- SOURCE: block_processor.rs:357-425 -/
def compactDaoCall (d : Darkfi) (txHash : Bytes32) (data : Bytes) :
    Except LightWalletError (Option CompactDaoCallRecord) :=
  match data with
  | [] => .ok none
  | code :: rest =>
    match d.daoFunction code with
    | none => .ok none
    | some func => do
      let (bulla, payload) ← match func with
        | .mint => do
          let params ← deserialized "DAO mint params" (d.daoMintParams rest)
          .ok (params.daoBulla.repr.1, params.daoPubkey)
        | .propose => do
          let params ← deserialized "DAO propose params" (d.daoProposeParams rest)
          .ok (params.proposalBulla.repr.1, params.tokenCommitAndNote)
        | .vote => do
          let params ← deserialized "DAO vote params" (d.daoVoteParams rest)
          .ok (params.proposalBulla.repr.1, params.noteAndNullifiers)
        | .exec => do
          let params ← deserialized "DAO exec params" (d.daoExecParams rest)
          .ok (params.proposalBulla.repr.1, [if params.earlyExec then 1 else 0])
        | .authMoneyTransfer => do
          let params ← deserialized "DAO auth transfer params" (d.daoAuthMoneyTransferParams rest)
          .ok ([], params.encAttrsAndChangeAttrs)
      .ok (some ⟨txHash, d.daoFunctionCode func, bulla, payload⟩)

/-- What the calls of a transaction add to the block. -/
structure CallEffects where
  outputs : List CompactOutput
  nullifiers : List Bytes32
  daoCalls : List CompactDaoCallRecord
  funcEvents : List CompactFuncEvent

/-- A Money call with the given discriminant.
SOURCE: block_processor.rs:166-297 -/
def processMoneyCall (d : Darkfi) (txHash : Bytes32) (func : MoneyFunction) (code : UInt8)
    (data : Bytes) (acc : CallEffects) : Except LightWalletError CallEffects :=
  match func with
  | .feeV1 => do
    let bytes ← sliceFrom 9 data
    let params ← deserialized "Failed to deserialize FeeV1 params" (d.feeParams bytes)
    .ok { acc with
      nullifiers := acc.nullifiers ++ [params.input.nullifier.repr]
      outputs := acc.outputs ++ compactOutputs [params.output] code }
  | .transferV1 => do
    let bytes ← sliceFrom 1 data
    let params ← deserialized "Failed to deserialize TransferV1 params" (d.transferParams bytes)
    .ok { acc with
      nullifiers := acc.nullifiers ++ params.inputs.map fun i => i.nullifier.repr
      outputs := acc.outputs ++ compactOutputs params.outputs code }
  | .genesisMintV1 => do
    let bytes ← sliceFrom 1 data
    let params ← deserialized "Failed to deserialize GenesisMintV1 params"
      (d.genesisMintParams bytes)
    .ok { acc with outputs := acc.outputs ++ compactOutputs params.outputs code }
  | .poWRewardV1 => do
    let bytes ← sliceFrom 1 data
    let params ← deserialized "Failed to deserialize PoWRewardV1 params" (d.powRewardParams bytes)
    .ok { acc with outputs := acc.outputs ++ compactOutputs [params.output] code }
  | .tokenMintV1 => do
    let bytes ← sliceFrom 1 data
    let params ← deserialized "Failed to deserialize TokenMintV1 params" (d.tokenMintParams bytes)
    .ok { acc with
      outputs := acc.outputs ++
        [⟨params.coin.repr, params.encNote, [], Bytes32.fill 0, [], [], code⟩] }
  | .burnV1 => do
    let bytes ← sliceFrom 1 data
    let params ← deserialized "Failed to deserialize BurnV1 params" (d.burnParams bytes)
    .ok { acc with nullifiers := acc.nullifiers ++ params.inputs.map fun i => i.nullifier.repr }
  | .authTokenMintV1 => do
    let bytes ← sliceFrom 1 data
    deserialized "Failed to deserialize AuthTokenMintV1 params" (d.authTokenMintParams bytes)
    .ok { acc with funcEvents := acc.funcEvents ++ [⟨txHash, code⟩] }
  | .authTokenFreezeV1 => do
    let bytes ← sliceFrom 1 data
    deserialized "Failed to deserialize AuthTokenFreezeV1 params" (d.authTokenFreezeParams bytes)
    .ok { acc with funcEvents := acc.funcEvents ++ [⟨txHash, code⟩] }

/-- One contract call. A DAO call that does not parse is skipped, and so is a call to
another contract, a Money call without data and an unknown Money function.
SOURCE: block_processor.rs:120-298 -/
def processCall (d : Darkfi) (txHash : Bytes32) (acc : CallEffects) (call : ContractCall) :
    Except LightWalletError CallEffects :=
  if call.contractId = d.daoContractId then
    match compactDaoCall d txHash call.data with
    | .ok (some record) => .ok { acc with daoCalls := acc.daoCalls ++ [record] }
    | .ok none => .ok acc
    | .error _ => .ok acc
  else if call.contractId ≠ d.moneyContractId then .ok acc
  else match call.data with
    | [] => .ok acc
    | code :: rest => match d.moneyFunction code with
      | none => .ok acc
      | some func => processMoneyCall d txHash func code (code :: rest) acc

/-! ## Blocks -/

/-- What the transactions so far add to the block. -/
structure BlockEffects where
  txs : List CompactTx
  daoCalls : List CompactDaoCallRecord
  funcEvents : List CompactFuncEvent

/-- One transaction. It is kept when it has outputs or nullifiers.
SOURCE: block_processor.rs:106-309 -/
def processTx (d : Darkfi) (height : ℕ) (acc : BlockEffects) (tx : Transaction) :
    Except LightWalletError BlockEffects :=
  if maxCallsPerTx < tx.calls.length then
    .error (.processingError ("block " ++ toString height ++ " transaction has " ++
      toString tx.calls.length ++ " calls (cap " ++ toString maxCallsPerTx ++ ")"))
  else do
    let effects ← tx.calls.foldlM (processCall d tx.hash)
      ⟨[], [], acc.daoCalls, acc.funcEvents⟩
    .ok {
      txs := if effects.outputs.isEmpty && effects.nullifiers.isEmpty then acc.txs
        else acc.txs ++ [⟨tx.hash, effects.outputs, effects.nullifiers, 0⟩]
      daoCalls := effects.daoCalls
      funcEvents := effects.funcEvents }

/-- SOURCE: block_processor.rs:80-329 -/
def processBlock (d : Darkfi) (block : BlockInfo) : Except LightWalletError CompactBlock :=
  if maxTxsPerBlock < block.txs.length then
    .error (.processingError ("block " ++ toString block.header.height ++ " has " ++
      toString block.txs.length ++ " transactions (cap " ++ toString maxTxsPerBlock ++ ")"))
  else do
    let effects ← block.txs.foldlM (processTx d block.header.height) ⟨[], [], []⟩
    .ok {
      height := block.header.height
      hash := block.header.hash
      prevHash := block.header.previous
      timestamp := block.header.timestamp
      txs := effects.txs
      daoCalls := effects.daoCalls
      funcEvents := effects.funcEvents }

end LightWalletd
