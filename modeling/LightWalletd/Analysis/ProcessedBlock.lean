import LightWalletd.Model.BlockProcessor

/-!
# Processed blocks

What the block processor makes of a full block: the header fields are copied, and every
coin is the representation of a field element, since it comes out of the Money parameters
as one. So a processed block never fails to enter the tree.
-/

set_option autoImplicit false

namespace LightWalletd

/-- A fold that may fail keeps what each of its steps keeps. -/
theorem foldlM_ok_keeps {ε α β : Type} {f : β → α → Except ε β} {P : β → Prop}
    (hstep : ∀ acc x acc', P acc → f acc x = .ok acc' → P acc') {xs : List α} {acc acc' : β}
    (hacc : P acc) (h : xs.foldlM f acc = .ok acc') : P acc' := by
  induction xs generalizing acc with
  | nil =>
    cases h
    exact hacc
  | cons x xs ih =>
    rw [List.foldlM_cons] at h
    cases hx : f acc x with
    | error e =>
      rw [hx] at h
      cases h
    | ok acc₁ =>
      rw [hx] at h
      exact ih (hstep acc x acc₁ hacc hx) h

/-- The coin of every output is the representation of a field element. -/
def CanonicalOutputs (outputs : List CompactOutput) : Prop :=
  ∀ o ∈ outputs, leValue o.coin.1 < pallasModulus

/-- Compact outputs are canonical. -/
theorem canonical_compactOutputs (outputs : List MoneyOutput) (code : UInt8) :
    CanonicalOutputs (compactOutputs outputs code) := by
  intro o ho
  obtain ⟨output, -, rfl⟩ := List.mem_map.mp ho
  exact output.coin.canonical

/-- Canonical outputs after canonical outputs. -/
theorem CanonicalOutputs.append {xs ys : List CompactOutput} (hxs : CanonicalOutputs xs)
    (hys : CanonicalOutputs ys) : CanonicalOutputs (xs ++ ys) := by
  intro o ho
  rcases List.mem_append.mp ho with ho | ho
  · exact hxs o ho
  · exact hys o ho

section Calls

variable {d : Darkfi} {txHash : Bytes32} {acc acc' : CallEffects}

/-- A parse that succeeds, followed by a step that cannot fail. -/
theorem deserialized_bind_ok {α β : Type} {what : String} {r : Except String α} {f : α → β} {b : β}
    (h : ((deserialized what r).bind fun a => .ok (f a)) = .ok b) : ∃ a, r = .ok a ∧ b = f a := by
  cases r with
  | error e => cases h
  | ok a =>
    cases h
    exact ⟨a, rfl, rfl⟩

/-- A slice that is there, followed by the rest. -/
theorem sliceFrom_bind_ok {β : Type} {n : ℕ} {data : Bytes} {f : Bytes → Except LightWalletError β}
    {b : β} (h : (sliceFrom n data).bind f = .ok b) : f (data.drop n) = .ok b := by
  unfold sliceFrom at h
  split_ifs at h
  · exact h
  · cases h

/-- A Money call adds canonical outputs. -/
theorem processMoneyCall_canonical {func : MoneyFunction} {code : UInt8} {data : Bytes}
    (hacc : CanonicalOutputs acc.outputs)
    (h : processMoneyCall d txHash func code data acc = .ok acc') :
    CanonicalOutputs acc'.outputs := by
  cases func <;> obtain ⟨params, -, rfl⟩ := deserialized_bind_ok (sliceFrom_bind_ok h)
  case feeV1 => exact hacc.append (canonical_compactOutputs _ _)
  case genesisMintV1 => exact hacc.append (canonical_compactOutputs _ _)
  case poWRewardV1 => exact hacc.append (canonical_compactOutputs _ _)
  case transferV1 => exact hacc.append (canonical_compactOutputs _ _)
  case tokenMintV1 =>
    refine hacc.append fun o ho => ?_
    rw [List.mem_singleton.mp ho]
    exact params.coin.canonical
  case burnV1 => exact hacc
  case authTokenMintV1 => exact hacc
  case authTokenFreezeV1 => exact hacc

/-- A call adds canonical outputs. -/
theorem processCall_canonical {call : ContractCall} (hacc : CanonicalOutputs acc.outputs)
    (h : processCall d txHash acc call = .ok acc') : CanonicalOutputs acc'.outputs := by
  unfold processCall at h
  split_ifs at h
  · rcases hdao : compactDaoCall d txHash call.data with _ | _ | record <;>
    · rw [hdao] at h
      cases h
      exact hacc
  · cases h
    exact hacc
  · cases hdata : call.data with
    | nil =>
      rw [hdata] at h
      cases h
      exact hacc
    | cons code rest =>
      simp only [hdata] at h
      cases hfunc : d.moneyFunction code with
      | none =>
        rw [hfunc] at h
        cases h
        exact hacc
      | some func =>
        rw [hfunc] at h
        exact processMoneyCall_canonical hacc h

end Calls

/-- A transaction adds canonical outputs. -/
theorem processTx_canonical {d : Darkfi} {height : ℕ} {tx : Transaction} {acc acc' : BlockEffects}
    (hacc : ∀ t ∈ acc.txs, CanonicalOutputs t.outputs)
    (h : processTx d height acc tx = .ok acc') : ∀ t ∈ acc'.txs, CanonicalOutputs t.outputs := by
  unfold processTx at h
  split_ifs at h
  cases hcalls : tx.calls.foldlM (processCall d tx.hash) ⟨[], [], acc.daoCalls, acc.funcEvents⟩ with
  | error e =>
    rw [hcalls] at h
    cases h
  | ok effects =>
    rw [hcalls] at h
    cases h
    have heffects : CanonicalOutputs effects.outputs :=
      foldlM_ok_keeps (P := fun e : CallEffects => CanonicalOutputs e.outputs)
        (fun _ _ _ => processCall_canonical) (fun _ ho => by cases ho) hcalls
    intro t ht
    simp only [] at ht
    split_ifs at ht
    · exact hacc t ht
    · rcases List.mem_append.mp ht with ht | ht
      · exact hacc t ht
      · rw [List.mem_singleton.mp ht]
        exact heffects

/-- A processed block has the header of the full one, and its coins are field elements. -/
theorem processBlock_ok {d : Darkfi} {block : BlockInfo} {c : CompactBlock}
    (h : processBlock d block = .ok c) :
    c.height = block.header.height ∧ c.hash = block.header.hash ∧
      c.prevHash = block.header.previous ∧ c.timestamp = block.header.timestamp ∧
      c.CanonicalCoins := by
  unfold processBlock at h
  split_ifs at h
  cases htxs : block.txs.foldlM (processTx d block.header.height) ⟨[], [], []⟩ with
  | error e =>
    rw [htxs] at h
    cases h
  | ok effects =>
    rw [htxs] at h
    cases h
    refine ⟨rfl, rfl, rfl, rfl, fun coin hcoin => ?_⟩
    have hcan := foldlM_ok_keeps (P := fun e : BlockEffects =>
      ∀ t ∈ e.txs, CanonicalOutputs t.outputs) (fun _ _ _ => processTx_canonical)
      (fun _ ht => by cases ht) htxs
    obtain ⟨tx, htx, hcoin⟩ := List.mem_flatMap.mp hcoin
    obtain ⟨o, ho, rfl⟩ := List.mem_map.mp hcoin
    exact hcan tx htx o ho

end LightWalletd
