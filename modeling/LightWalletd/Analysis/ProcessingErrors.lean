import LightWalletd.Analysis.ProcessedBlock
import LightWalletd.Computation.Loops

/-!
# How the processing of a block ends

A block is processed when it keeps the two caps and the parameters of all its Money calls
deserialize. It panics at a fee call without the nine bytes that stand before its parameters,
unless a cap or an earlier call ends the processing first.
-/

set_option autoImplicit false

namespace LightWalletd

open Stateful

/-- Where the parameters of a Money call start. -/
def MoneyFunction.paramsFrom : MoneyFunction → ℕ
  | .feeV1 => 9
  | _ => 1

/-- The deserializer of the function accepts the bytes. -/
def MoneyFunction.parses (d : Darkfi) (bytes : Bytes) : MoneyFunction → Bool
  | .feeV1 => (d.feeParams bytes).isOk
  | .genesisMintV1 => (d.genesisMintParams bytes).isOk
  | .poWRewardV1 => (d.powRewardParams bytes).isOk
  | .transferV1 => (d.transferParams bytes).isOk
  | .authTokenMintV1 => (d.authTokenMintParams bytes).isOk
  | .authTokenFreezeV1 => (d.authTokenFreezeParams bytes).isOk
  | .tokenMintV1 => (d.tokenMintParams bytes).isOk
  | .burnV1 => (d.burnParams bytes).isOk

/-- The Money function that a call names, if it is a Money call of a known one. -/
def ContractCall.moneyFunction (d : Darkfi) (call : ContractCall) : Option MoneyFunction :=
  if call.contractId ≠ d.daoContractId ∧ call.contractId = d.moneyContractId then
    call.data.head?.bind d.moneyFunction
  else none

/-- The parameters of the call are there and deserialize, where the call has any. -/
def ContractCall.Decodes (d : Darkfi) (call : ContractCall) : Prop :=
  ∀ func ∈ call.moneyFunction d, func.paramsFrom ≤ call.data.length ∧
    func.parses d (call.data.drop func.paramsFrom) = true

/-- A fee call that ends before its parameters. -/
def ContractCall.ShortFee (d : Darkfi) (call : ContractCall) : Prop :=
  call.moneyFunction d = some .feeV1 ∧ call.data.length < 9

/-- The transaction keeps the cap, and all its calls decode. -/
def Transaction.Decodes (d : Darkfi) (tx : Transaction) : Prop :=
  tx.calls.length ≤ maxCallsPerTx ∧ ∀ call ∈ tx.calls, call.Decodes d

section Calls

variable {d : Darkfi} {txHash : Bytes32}

/-- A field decodes, or the error names it. -/
theorem deserialized_bind_cases {α β : Type} (what : String) (r : Except String α) (f : α → β) :
    (r.isOk = true ∧ ∃ b, ((deserialized what r).bind fun a => .ok (f a)) = .ok b) ∨
      (r.isOk = false ∧
        ∃ text, ((deserialized what r).bind fun a => .ok (f a)) = .error (.processingError text)) := by
  cases r with
  | error e => exact Or.inr ⟨rfl, _, rfl⟩
  | ok a => exact Or.inl ⟨rfl, _, rfl⟩

/-- A Money call with its parameters in place succeeds, or its parameters do not parse. -/
theorem processMoneyCall_cases (txHash : Bytes32) (func : MoneyFunction) (code : UInt8) (data : Bytes)
    (acc : CallEffects) (h : func.paramsFrom ≤ data.length) :
    (func.parses d (data.drop func.paramsFrom) = true ∧
      ∃ acc', processMoneyCall d txHash func code data acc = .ok acc') ∨
    (func.parses d (data.drop func.paramsFrom) = false ∧
      ∃ text, processMoneyCall d txHash func code data acc = .error (.processingError text)) := by
  have hslice : sliceFrom func.paramsFrom data = .ok (data.drop func.paramsFrom) := if_pos h
  cases func <;>
    · unfold processMoneyCall
      simp only [MoneyFunction.paramsFrom] at hslice ⊢
      rw [hslice]
      exact deserialized_bind_cases _ _ _

/-- A Money call that ends before its parameters panics. -/
theorem processMoneyCall_short (func : MoneyFunction) (code : UInt8) {data : Bytes}
    (acc : CallEffects) (h : data.length < func.paramsFrom) :
    processMoneyCall d txHash func code data acc = .error .panicked := by
  have hslice : sliceFrom func.paramsFrom data = .error .panicked := if_neg (not_le.mpr h)
  cases func <;>
    · unfold processMoneyCall
      simp only [MoneyFunction.paramsFrom] at hslice
      rw [hslice]
      rfl

/-- A call that names no Money function is skipped or adds a DAO record. -/
theorem processCall_of_none (txHash : Bytes32) {call : ContractCall} (h : call.moneyFunction d = none)
    (acc : CallEffects) : ∃ acc', processCall d txHash acc call = .ok acc' := by
  unfold processCall
  by_cases hdao : call.contractId = d.daoContractId
  · rw [if_pos hdao]
    rcases compactDaoCall d txHash call.data with e | _ | record
    · exact ⟨acc, rfl⟩
    · exact ⟨acc, rfl⟩
    · exact ⟨_, rfl⟩
  · rw [if_neg hdao]
    by_cases hmoney : call.contractId = d.moneyContractId
    · rw [if_neg (not_not.mpr hmoney)]
      unfold ContractCall.moneyFunction at h
      rw [if_pos ⟨hdao, hmoney⟩] at h
      cases hdata : call.data with
      | nil => exact ⟨acc, rfl⟩
      | cons code rest =>
        rw [hdata] at h
        have hfunc : d.moneyFunction code = none := h
        simp only [hfunc]
        exact ⟨acc, rfl⟩
    · rw [if_pos hmoney]
      exact ⟨acc, rfl⟩

/-- A call that names a Money function is processed as one. -/
theorem processCall_of_some (txHash : Bytes32) {call : ContractCall} {func : MoneyFunction}
    (h : call.moneyFunction d = some func) (acc : CallEffects) :
    ∃ code rest, call.data = code :: rest ∧ d.moneyFunction code = some func ∧
      processCall d txHash acc call = processMoneyCall d txHash func code call.data acc := by
  unfold ContractCall.moneyFunction at h
  split_ifs at h with hcontract
  obtain ⟨code, hhead, hfunc⟩ := Option.bind_eq_some_iff.mp h
  obtain ⟨rest, hdata⟩ := List.head?_eq_some_iff.mp hhead
  refine ⟨code, rest, hdata, hfunc, ?_⟩
  unfold processCall
  rw [if_neg hcontract.1, if_neg (not_not.mpr hcontract.2)]
  simp only [hdata, hfunc]

/-- A call goes through exactly where its parameters decode. -/
theorem processCall_ok_iff (acc : CallEffects) (call : ContractCall) :
    (∃ acc', processCall d txHash acc call = .ok acc') ↔ call.Decodes d := by
  unfold ContractCall.Decodes
  cases hfunc : call.moneyFunction d with
  | none => exact iff_of_true (processCall_of_none txHash hfunc acc) fun _ => nofun
  | some func =>
    obtain ⟨code, rest, -, -, heq⟩ := processCall_of_some txHash hfunc acc
    simp only [heq, Option.mem_def, Option.some.injEq, forall_eq']
    by_cases hlen : func.paramsFrom ≤ call.data.length
    · obtain ⟨hparse, hok⟩ | ⟨hparse, text, herror⟩ :=
        processMoneyCall_cases (d := d) txHash func code call.data acc hlen
      · simp [hlen, hparse, hok]
      · simp [hparse, herror]
    · simp [hlen, processMoneyCall_short func code acc (not_le.mp hlen)]

/-- A call panics exactly where it is a fee call cut short. -/
theorem processCall_panicked_iff (acc : CallEffects) (call : ContractCall) :
    processCall d txHash acc call = .error .panicked ↔ call.ShortFee d := by
  unfold ContractCall.ShortFee
  cases hfunc : call.moneyFunction d with
  | none =>
    obtain ⟨acc', hok⟩ := processCall_of_none txHash hfunc acc
    simp [hok]
  | some func =>
    obtain ⟨code, rest, hdata, -, heq⟩ := processCall_of_some txHash hfunc acc
    rw [heq]
    by_cases hlen : func.paramsFrom ≤ call.data.length
    · have hlong : ¬ (some func = some MoneyFunction.feeV1 ∧ call.data.length < 9) := by
        rintro ⟨hfee, hshort⟩
        cases hfee
        exact absurd hshort (not_lt.mpr hlen)
      refine iff_of_false ?_ hlong
      obtain ⟨-, acc', hok⟩ | ⟨-, text, herror⟩ :=
        processMoneyCall_cases (d := d) txHash func code call.data acc hlen
      · rw [hok]
        nofun
      · rw [herror]
        nofun
    · rw [not_le] at hlen
      refine iff_of_true (processMoneyCall_short func code acc hlen) ?_
      -- only the parameters of a fee call start behind its first byte
      have hpos : 1 ≤ call.data.length := by simp [hdata]
      cases func
      case feeV1 => exact ⟨rfl, hlen⟩
      all_goals exact absurd hlen (not_lt.mpr hpos)

end Calls

section Blocks

variable {d : Darkfi}

/-- A transaction within its cap, call by call. -/
theorem processTx_eq (height : ℕ) (acc : BlockEffects) {tx : Transaction}
    (hcap : tx.calls.length ≤ maxCallsPerTx) : processTx d height acc tx =
      (tx.calls.foldlM (processCall d tx.hash) ⟨[], [], acc.daoCalls, acc.funcEvents⟩).bind
        fun effects => .ok {
          txs := if effects.outputs.isEmpty && effects.nullifiers.isEmpty then acc.txs
            else acc.txs ++ [⟨tx.hash, effects.outputs, effects.nullifiers, 0⟩]
          daoCalls := effects.daoCalls
          funcEvents := effects.funcEvents } := by
  unfold processTx
  rw [if_neg (not_lt.mpr hcap)]
  rfl

/-- A last step that cannot fail does not decide success. -/
theorem bind_ok_iff {ε α β : Type} {r : Except ε α} {f : α → β} :
    (∃ b, (r.bind fun a => .ok (f a)) = .ok b) ↔ ∃ a, r = .ok a := by
  cases r <;> simp [Except.bind]

/-- Nor does it change an error. -/
theorem bind_error_iff {ε α β : Type} {r : Except ε α} {f : α → β} {e : ε} :
    (r.bind fun a => .ok (f a)) = .error e ↔ r = .error e := by
  cases r <;> simp [Except.bind]

/-- A transaction goes through exactly where it decodes. -/
theorem processTx_ok_iff (height : ℕ) (acc : BlockEffects) (tx : Transaction) :
    (∃ acc', processTx d height acc tx = .ok acc') ↔ tx.Decodes d := by
  unfold Transaction.Decodes
  by_cases hcap : tx.calls.length ≤ maxCallsPerTx
  · rw [processTx_eq height acc hcap, bind_ok_iff, foldlM_ok_iff processCall_ok_iff]
    simp [hcap]
  · unfold processTx
    simp [hcap, not_le.mp hcap]

/-- The transaction keeps the cap, and its first call that does not decode is a short fee call. -/
def Transaction.Panics (d : Darkfi) (tx : Transaction) : Prop :=
  tx.calls.length ≤ maxCallsPerTx ∧ ∃ before call after, tx.calls = before ++ call :: after ∧
    (∀ c ∈ before, c.Decodes d) ∧ call.ShortFee d

/-- A transaction panics exactly where a call does. -/
theorem processTx_panicked_iff (height : ℕ) (acc : BlockEffects) (tx : Transaction) :
    processTx d height acc tx = .error .panicked ↔ tx.Panics d := by
  unfold Transaction.Panics
  by_cases hcap : tx.calls.length ≤ maxCallsPerTx
  · rw [processTx_eq height acc hcap, bind_error_iff,
      foldlM_error_iff processCall_ok_iff processCall_panicked_iff]
    simp [hcap]
  · unfold processTx
    simp [hcap, not_le.mp hcap]

/-- A block within its cap, transaction by transaction. -/
theorem processBlock_eq {block : BlockInfo} (hcap : block.txs.length ≤ maxTxsPerBlock) :
    processBlock d block =
      (block.txs.foldlM (processTx d block.header.height) ⟨[], [], []⟩).bind fun effects => .ok {
        height := block.header.height
        hash := block.header.hash
        prevHash := block.header.previous
        timestamp := block.header.timestamp
        txs := effects.txs
        daoCalls := effects.daoCalls
        funcEvents := effects.funcEvents } := by
  unfold processBlock
  rw [if_neg (not_lt.mpr hcap)]
  rfl

/-- A block is processed exactly when it keeps the cap and its transactions decode. -/
theorem processBlock_ok_iff (block : BlockInfo) : (∃ c, processBlock d block = .ok c) ↔
    block.txs.length ≤ maxTxsPerBlock ∧ ∀ tx ∈ block.txs, tx.Decodes d := by
  by_cases hcap : block.txs.length ≤ maxTxsPerBlock
  · rw [processBlock_eq hcap, bind_ok_iff, foldlM_ok_iff (processTx_ok_iff _)]
    simp [hcap]
  · unfold processBlock
    simp [hcap, not_le.mp hcap]

/-- A block panics exactly where a transaction does, and those before it decode. -/
theorem processBlock_panicked_iff (block : BlockInfo) :
    processBlock d block = .error .panicked ↔ block.txs.length ≤ maxTxsPerBlock ∧
      ∃ before tx after, block.txs = before ++ tx :: after ∧ (∀ t ∈ before, t.Decodes d) ∧
        tx.Panics d := by
  by_cases hcap : block.txs.length ≤ maxTxsPerBlock
  · rw [processBlock_eq hcap, bind_error_iff,
      foldlM_error_iff (processTx_ok_iff _) (processTx_panicked_iff _)]
    simp [hcap]
  · unfold processBlock
    simp [hcap, not_le.mp hcap]

/-- Before each fee call without its parameters something else ends the processing: a cap, or a
call whose parameters do not decode. -/
def BlockInfo.StopsBeforeShortFees (d : Darkfi) (block : BlockInfo) : Prop :=
  ∀ before tx after, block.txs = before ++ tx :: after →
    ∀ calls call rest, tx.calls = calls ++ call :: rest → call.ShortFee d →
      maxTxsPerBlock < block.txs.length ∨ (∃ t ∈ before, ¬ t.Decodes d) ∨
        maxCallsPerTx < tx.calls.length ∨ ∃ c ∈ calls, ¬ c.Decodes d

/-- Processing a block does not panic exactly when something else ends it before each fee call
that is too short. -/
theorem process_block_no_panic_iff (d : Darkfi) (block : BlockInfo) :
    processBlock d block ≠ .error .panicked ↔ block.StopsBeforeShortFees d := by
  rw [Ne, processBlock_panicked_iff]
  constructor
  · intro hno before tx after htxs calls call rest hcalls hshort
    by_contra hcont
    push Not at hcont
    obtain ⟨hcap, hbefore, hcap', hcalls'⟩ := hcont
    exact hno ⟨hcap, before, tx, after, htxs, hbefore, hcap', calls, call, rest, hcalls, hcalls',
      hshort⟩
  · rintro hstops ⟨hcap, before, tx, after, htxs, hbefore, hcap', calls, call, rest, hcalls,
      hcalls', hshort⟩
    rcases hstops before tx after htxs calls call rest hcalls hshort with h | ⟨t, ht, h⟩ | h |
      ⟨c, hc, h⟩
    · exact absurd hcap (not_le.mpr h)
    · exact h (hbefore t ht)
    · exact absurd hcap' (not_le.mpr h)
    · exact h (hcalls' c hc)

end Blocks

/-- Contracts whose only Money function is the fee, with parameters that always deserialize. -/
def Darkfi.feeOnly : Darkfi where
  moneyContractId := Bytes32.fill 1
  daoContractId := Bytes32.fill 2
  moneyFunction := fun code => if code = 0 then some .feeV1 else none
  daoFunction := fun _ => none
  daoFunctionCode := fun _ => 0
  feeParams := fun _ => .ok ⟨⟨Base.zero⟩, ⟨Base.zero, [], [], Base.zero, false⟩⟩
  transferParams := fun _ => .error "unknown"
  genesisMintParams := fun _ => .error "unknown"
  powRewardParams := fun _ => .error "unknown"
  tokenMintParams := fun _ => .error "unknown"
  burnParams := fun _ => .error "unknown"
  authTokenMintParams := fun _ => .error "unknown"
  authTokenFreezeParams := fun _ => .error "unknown"
  daoMintParams := fun _ => .error "unknown"
  daoProposeParams := fun _ => .error "unknown"
  daoVoteParams := fun _ => .error "unknown"
  daoExecParams := fun _ => .error "unknown"
  daoAuthMoneyTransferParams := fun _ => .error "unknown"

/-- A block with one transaction that calls one function of the Money contract. -/
def moneyBlock (data : Bytes) : BlockInfo where
  header := ⟨7, Bytes32.fill 6, 0, Bytes32.fill 7⟩
  txs := [⟨Bytes32.fill 9, [⟨Bytes32.fill 1, data⟩]⟩]

/-- A fee call that is its discriminant only. -/
theorem short_fee_panics : processBlock .feeOnly (moneyBlock [0]) = .error .panicked := rfl

example : ∃ c, processBlock .feeOnly (moneyBlock [0, 1, 0, 0, 0, 0, 0, 0, 0]) = .ok c := ⟨_, rfl⟩

end LightWalletd
