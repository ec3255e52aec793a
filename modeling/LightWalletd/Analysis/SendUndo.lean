import LightWalletd.Analysis.ClueRows
import LightWalletd.Analysis.ClueWire
import LightWalletd.Analysis.Opening
import LightWalletd.Model.SendTransaction

/-!
# A rejected transaction

`SendTransaction` stores clues before the broadcast and drops the row of the transaction when
the broadcast fails and its main clue was stored. Earlier clues of the row go with it, and extra
clues stay when the main clue was refused. Otherwise the clues are what they were.
-/

set_option autoImplicit false

namespace LightWalletd

open Stateful

/-- The pending clues: transaction hash, output index and clue. -/
def pendingClues (s : Cache) : Set (Bytes32 × Option ℕ × Bytes) :=
  { p | p.2 ∈ (s.hintRow p.1).clues }

/-- No row has expired. -/
def NoneExpired (now : ℕ) (s : Cache) : Prop := ∀ txHash, (s.hintRow txHash).Fresh now

/-- A clue index that is taken. -/
def HintRow.Taken (row : HintRow) (i : ℕ) : Prop :=
  (row.clues.any fun c => c.1 == some i) = true

/-- Whether an output has a clue can be checked. -/
instance (row : HintRow) (i : ℕ) : Decidable (row.Taken i) := inferInstanceAs (Decidable (_ = _))

section Taken

variable {now i : ℕ} {clue : Bytes} {row row' : HintRow}

/-- A second clue for an output changes nothing. -/
theorem HintRow.add_of_taken (h : row.Taken i) : row.add now clue (some i) = row := if_pos h

/-- A first clue for an output is added. -/
theorem HintRow.clues_add_of_free (h : ¬ row.Taken i) (hfits : FitsEntry (some i, clue)) :
    (row.add now clue (some i)).clues = row.clues ++ [storedEntry (some i, clue)] :=
  (HintRow.clues_add hfits).trans (if_neg h)

/-- A row with more clues has no output less. -/
theorem HintRow.Taken.of_subset (h : row'.Taken i) (hsub : row'.clues ⊆ row.clues) :
    row.Taken i := by
  obtain ⟨c, hc, hidx⟩ := List.any_eq_true.mp h
  exact List.any_eq_true.mpr ⟨c, hsub hc, hidx⟩

end Taken

/-! ## Runs -/

section Runs

variable {now : ℕ} {s : Cache} (hash : Bytes32)

/-- One offered clue: its row is extended, every other one stays. -/
structure Offered (now : ℕ) (hash : Bytes32) (row : HintRow) (s s' : Cache) : Prop where
  rows : s'.hintRow = Function.update s.hintRow hash row
  fresh : NoneExpired now s'

/-- `store_send_clue_hint` offers the clue to the row, and says whether it was free. -/
theorem storeSendClueHint_run (hnow : now < 256 ^ 8) (hnone : NoneExpired now s) {clue : Bytes}
    (hclue : clue ≠ []) (i : ℕ) :
    ∃ s', (storeSendClueHint now hash clue i).run s =
        (.ok (!decide ((s.hintRow hash).Taken i)), s') ∧
      Offered now hash ((s.hintRow hash).add now clue (some i)) s s' := by
  obtain ⟨s₁, htaken, hsame⟩ := omrClueIndexTaken_run (hnone hash) i
  have hrows : s₁.hintRow = s.hintRow := funext fun txHash => hsame.row txHash (hnone txHash)
  have hnone₁ : NoneExpired now s₁ := fun txHash => hrows ▸ hnone txHash
  unfold storeSendClueHint
  rw [Prog.bind_eq, Prog.run_bind_of_ok (Prog.run_attempt _ _), htaken]
  by_cases htake : (s.hintRow hash).Taken i
  · have hkept : (s.hintRow hash).add now clue (some i) = s.hintRow hash :=
      HintRow.add_of_taken htake
    refine ⟨s₁, ?_, ?_, hnone₁⟩
    · simp only [htake, decide_true, Bool.not_true]
      rw [show ((s.hintRow hash).clues.any fun c => c.1 == some i) = true from htake]
      rfl
    · rw [hkept, Function.update_eq_self, hrows]
  · obtain ⟨s₂, hrun, hstored⟩ := storeOmrClueHint_run hclue (hnone₁ hash) (some i)
    have hfree : ((s.hintRow hash).clues.any fun c => c.1 == some i) = false :=
      Bool.not_eq_true _ ▸ htake
    have hrows₂ : s₂.hintRow =
        Function.update s.hintRow hash ((s.hintRow hash).add now clue (some i)) := by
      funext txHash
      by_cases heq : txHash = hash
      · subst heq
        rw [hstored.added, hrows, Function.update_self]
      · rw [hstored.other txHash heq (hnone₁ txHash), hrows, Function.update_of_ne heq]
    refine ⟨s₂, ?_, hrows₂, fun txHash => ?_⟩
    · simp only [htake, decide_false, Bool.not_false, hfree]
      rw [Prog.bind_eq, Prog.run_bind_of_ok (Prog.run_attempt _ _), hrun]
      rfl
    · rw [hrows₂]
      by_cases heq : txHash = hash
      · subst heq
        rw [Function.update_self]
        exact (hnone txHash).add hnow (by simp)
      · rw [Function.update_of_ne heq]
        exact hnone txHash

/-- An extra clue that is stored when its index is free. -/
def Usable (env : SendEnv) (extra : Proto.ExtraOmrClue) : Prop :=
  extra.omrClue ≠ [] ∧ env.validClue extra.omrClue = true

/-- Whether an extra clue is stored can be checked. -/
instance (env : SendEnv) (extra : Proto.ExtraOmrClue) : Decidable (Usable env extra) :=
  inferInstanceAs (Decidable (_ ∧ _))

/-- A row with the extra clues of a request. -/
def HintRow.addExtras (env : SendEnv) (now : ℕ) (extras : List Proto.ExtraOmrClue)
    (row : HintRow) : HintRow :=
  extras.foldl (fun row extra =>
    if Usable env extra then row.add now extra.omrClue (some extra.outputIndex) else row) row

/-- The extra clues are offered to the row one after the other. -/
theorem storeExtraClues_run (env : SendEnv) (hnow : now < 256 ^ 8)
    (extras : List Proto.ExtraOmrClue) (hnone : NoneExpired now s) :
    ∃ s', (storeExtraClues env now hash extras).run s = (.ok (), s') ∧
      Offered now hash ((s.hintRow hash).addExtras env now extras) s s' := by
  induction extras generalizing s with
  | nil => exact ⟨s, rfl, (Function.update_eq_self _ _).symm, hnone⟩
  | cons extra extras ih =>
    unfold storeExtraClues Prog.forEach
    by_cases huse : Usable env extra
    · obtain ⟨s₁, hrun₁, hrows₁, hnone₁⟩ :=
        storeSendClueHint_run hash hnow hnone huse.1 extra.outputIndex
      obtain ⟨s₂, hrun₂, hrows₂, hnone₂⟩ := ih hnone₁
      refine ⟨s₂, ?_, ?_, hnone₂⟩
      · have hskip : ¬ (extra.omrClue.isEmpty || !env.validClue extra.omrClue) = true := by
          simp [huse.1, huse.2]
        have hfirst : ((storeSendClueHint now hash extra.omrClue extra.outputIndex).bind
            fun _ => Prog.ret ()).run s = (.ok (), s₁) := Prog.run_bind_of_ok hrun₁ _
        rw [if_neg hskip]
        exact (Prog.run_bind_of_ok hfirst _).trans hrun₂
      · rw [hrows₂, hrows₁, Function.update_idem, Function.update_self, HintRow.addExtras,
          HintRow.addExtras, List.foldl_cons, if_pos huse]
    · obtain ⟨s₂, hrun₂, hrows₂, hnone₂⟩ := ih hnone
      refine ⟨s₂, ?_, ?_, hnone₂⟩
      · have hskip : (extra.omrClue.isEmpty || !env.validClue extra.omrClue) = true := by
          unfold Usable at huse
          by_cases hempty : extra.omrClue = []
          · simp [hempty]
          · simpa [hempty] using huse
        rw [if_pos hskip]
        exact hrun₂
      · rw [hrows₂, HintRow.addExtras, HintRow.addExtras, List.foldl_cons, if_neg huse]

end Runs

/-! ## The row after a rejection -/

/-- The row that a rejected request leaves: as it was without a valid main clue, empty when the
main clue was stored, and with the extra clues when it was refused. -/
def HintRow.afterRejection (env : SendEnv) (now : ℕ) (req : Proto.RawTransaction)
    (omrClue : Bytes) (row : HintRow) : HintRow :=
  if omrClue ≠ [] ∧ env.validClue omrClue = true then
    if row.Taken req.omrClueOutputIndex then row.addExtras env now req.extraOmrClues
    else (none, none)
  else row

/-- The rows a failed `SendTransaction` leaves behind. -/
theorem sendTransaction_failed_rows {env : SendEnv} {now : ℕ} {req : Proto.RawTransaction}
    {s : Cache} {txData omrClue : Bytes} {hash : Bytes32} (hnow : now < 256 ^ 8)
    (hnone : NoneExpired now s) (hreq : unwrapRequest env req = .ok (txData, omrClue))
    (hhash : env.txHashOf txData = some hash) (later : ℕ) :
    ((sendTransaction env .failed now later req).exec s).hintRow =
      Function.update s.hintRow hash ((s.hintRow hash).afterRejection env now req omrClue) := by
  unfold sendTransaction
  rw [hreq]
  simp only [hhash]
  by_cases hmain : omrClue ≠ [] ∧ env.validClue omrClue = true
  · obtain ⟨s₁, hrun₁, hrows₁, hnone₁⟩ :=
      storeSendClueHint_run hash hnow hnone hmain.1 req.omrClueOutputIndex
    obtain ⟨s₂, hrun₂, hrows₂, -⟩ :=
      storeExtraClues_run hash env hnow req.extraOmrClues hnone₁
    have hskip : ¬ (omrClue.isEmpty || !env.validClue omrClue) = true := by
      simp [hmain.1, hmain.2]
    have hbefore : (storeCluesBefore env now req (some hash) omrClue).run s =
        (.ok (!decide ((s.hintRow hash).Taken req.omrClueOutputIndex), []), s₂) := by
      unfold storeCluesBefore
      rw [if_neg hskip]
      exact (Prog.run_bind_of_ok hrun₁ _).trans (Prog.run_bind_of_ok hrun₂ _)
    have hmapped := Prog.run_mapError_of_ok (g := cacheStatus) hbefore
    rw [HintRow.afterRejection, if_pos hmain, Prog.exec, Prog.bind_eq,
      Prog.run_bind_of_ok hmapped]
    by_cases htaken : (s.hintRow hash).Taken req.omrClueOutputIndex
    · simp only [htaken, decide_true, Bool.not_true, if_true]
      show s₂.hintRow = _
      have hkept : (s.hintRow hash).add now omrClue (some req.omrClueOutputIndex) =
          s.hintRow hash := HintRow.add_of_taken htaken
      rw [hrows₂, hrows₁, hkept, Function.update_eq_self]
    · simp only [htaken, decide_false, Bool.not_false, if_false]
      show (s₂.dropHints [hash]).hintRow = _
      funext txHash
      rw [dropHints_hintRow, hrows₂, hrows₁, Function.update_idem]
      by_cases heq : txHash = hash
      · subst heq
        simp
      · simp [heq]
  · have hskip : (omrClue.isEmpty || !env.validClue omrClue) = true := by
      by_cases hempty : omrClue = []
      · simp [hempty]
      · simpa [hempty] using hmain
    have hbefore : (storeCluesBefore env now req (some hash) omrClue).run s =
        (.ok (false, []), s) := by
      unfold storeCluesBefore
      rw [if_pos hskip]
      rfl
    have hmapped := Prog.run_mapError_of_ok (g := cacheStatus) hbefore
    rw [HintRow.afterRejection, if_neg hmain, Function.update_eq_self, Prog.exec, Prog.bind_eq,
      Prog.run_bind_of_ok hmapped]
    rfl

/-! ## The clues after a rejection -/

/-- The row has the index of an extra clue, or the very clue. -/
def HintRow.Holds (row : HintRow) (extra : Proto.ExtraOmrClue) : Prop :=
  row.Taken extra.outputIndex ∨
    storedEntry (some extra.outputIndex, extra.omrClue) ∈ row.clues

section Extras

variable {env : SendEnv} {now : ℕ} {row row' : HintRow} {extra : Proto.ExtraOmrClue}
  {extras : List Proto.ExtraOmrClue}

/-- A valid clue is far shorter than a length field allows. -/
theorem validClue_length_le {clue : Bytes} (h : env.validClue clue = true) :
    clue.length ≤ u32Max := by
  have hok : validateUnifomrClue env.blake3 clue = .ok () := by
    unfold SendEnv.validClue at h
    cases hv : validateUnifomrClue env.blake3 clue with
    | ok _ => rfl
    | error e =>
      rw [hv] at h
      cases h
  exact (inRange_of_validateUnifomrClue hok).2.1.trans (by decide)

/-- An extra clue that is stored fits its entry. -/
theorem Usable.fits (h : Usable env extra) (hidx : extra.outputIndex ≤ u32Max) :
    FitsEntry (some extra.outputIndex, extra.omrClue) where
  index := by
    intro i hi
    cases hi
    exact hidx
  clue := validClue_length_le h.2

/-- Adding a clue that the row holds changes no clue; otherwise the clue is new. -/
theorem clues_add_subset (hfits : FitsEntry (some extra.outputIndex, extra.omrClue)) :
    row.clues ⊆ (row.add now extra.omrClue (some extra.outputIndex)).clues := by
  by_cases htaken : row.Taken extra.outputIndex
  · rw [HintRow.add_of_taken htaken]
    exact List.Subset.refl _
  · rw [HintRow.clues_add_of_free htaken hfits]
    exact List.subset_append_left _ _

/-- The extra clues come on top. -/
theorem clues_addExtras_subset (hindex : ∀ extra ∈ extras, extra.outputIndex ≤ u32Max)
    (row : HintRow) : row.clues ⊆ (row.addExtras env now extras).clues := by
  induction extras generalizing row with
  | nil => exact List.Subset.refl _
  | cons extra extras ih =>
    have htail : ∀ e ∈ extras, e.outputIndex ≤ u32Max :=
      fun e he => hindex e (List.mem_cons_of_mem _ he)
    rw [HintRow.addExtras, List.foldl_cons]
    by_cases huse : Usable env extra
    · rw [if_pos huse]
      have hfits := huse.fits (hindex extra (List.mem_cons_self ..))
      exact List.Subset.trans (clues_add_subset hfits) (ih htail _)
    · rw [if_neg huse]
      exact ih htail _

/-- When extra clues add nothing to a row between `row` and itself, `row` holds them. -/
theorem holds_of_addExtras_subset (hindex : ∀ extra ∈ extras, extra.outputIndex ≤ u32Max)
    (hsub : (row'.addExtras env now extras).clues ⊆ row.clues) :
    ∀ extra ∈ extras, Usable env extra → row.Holds extra := by
  induction extras generalizing row' with
  | nil => exact List.forall_mem_nil _
  | cons extra extras ih =>
    have htail : ∀ e ∈ extras, e.outputIndex ≤ u32Max :=
      fun e he => hindex e (List.mem_cons_of_mem _ he)
    rw [HintRow.addExtras, List.foldl_cons] at hsub
    intro e he huse
    rcases List.mem_cons.mp he with rfl | he
    · rw [if_pos huse] at hsub
      have hfits := huse.fits (hindex e (List.mem_cons_self ..))
      have hadd := List.Subset.trans (clues_addExtras_subset htail _) hsub
      by_cases htaken : row'.Taken e.outputIndex
      · rw [HintRow.add_of_taken htaken] at hadd
        exact Or.inl (htaken.of_subset hadd)
      · rw [HintRow.clues_add_of_free htaken hfits] at hadd
        exact Or.inr (hadd (List.mem_append_right _ (List.mem_singleton_self _)))
    · exact ih htail hsub e he huse

/-- Extra clues that the row holds add nothing. -/
theorem addExtras_subset_of_holds (hindex : ∀ extra ∈ extras, extra.outputIndex ≤ u32Max)
    (hholds : ∀ extra ∈ extras, Usable env extra → row.Holds extra)
    (hlow : row.clues ⊆ row'.clues) (hhigh : row'.clues ⊆ row.clues) :
    (row'.addExtras env now extras).clues ⊆ row.clues := by
  induction extras generalizing row' with
  | nil => exact hhigh
  | cons extra extras ih =>
    have htail : ∀ e ∈ extras, e.outputIndex ≤ u32Max :=
      fun e he => hindex e (List.mem_cons_of_mem _ he)
    have hholdsTail : ∀ e ∈ extras, Usable env e → row.Holds e :=
      fun e he => hholds e (List.mem_cons_of_mem _ he)
    rw [HintRow.addExtras, List.foldl_cons]
    by_cases huse : Usable env extra
    · have hfits := huse.fits (hindex extra (List.mem_cons_self ..))
      rw [if_pos huse]
      refine ih htail hholdsTail (List.Subset.trans hlow (clues_add_subset hfits)) ?_
      by_cases htaken : row'.Taken extra.outputIndex
      · rw [HintRow.add_of_taken htaken]
        exact hhigh
      · rw [HintRow.clues_add_of_free htaken hfits]
        apply List.append_subset.mpr
        refine ⟨hhigh, List.cons_subset.mpr ⟨?_, List.nil_subset _⟩⟩
        rcases hholds extra (List.mem_cons_self ..) huse with hrow | hentry
        · exact absurd (hrow.of_subset hlow) htaken
        · exact hentry
    · rw [if_neg huse]
      exact ih htail hholdsTail hlow hhigh

end Extras

/-- When a rejected request changes no clue: its main clue is invalid or missing; or it was
refused and the row holds every usable extra clue; or it was stored in an empty row. -/
def RejectionHarmless (env : SendEnv) (req : Proto.RawTransaction) (omrClue : Bytes)
    (row : HintRow) : Prop :=
  omrClue ≠ [] ∧ env.validClue omrClue = true →
    (row.Taken req.omrClueOutputIndex →
      ∀ extra ∈ req.extraOmrClues, Usable env extra → row.Holds extra) ∧
    (¬ row.Taken req.omrClueOutputIndex → row.clues = [])

/-- Only one row changed: the pending clues are the same exactly where its clues are. -/
theorem pendingClues_eq_iff {s s' : Cache} {hash : Bytes32} {row : HintRow}
    (h : s'.hintRow = Function.update s.hintRow hash row) : pendingClues s' = pendingClues s ↔
      row.clues ⊆ (s.hintRow hash).clues ∧ (s.hintRow hash).clues ⊆ row.clues := by
  have hself : s'.hintRow hash = row := by rw [h, Function.update_self]
  constructor
  · intro heq
    constructor
    · intro c hc
      have : (hash, c) ∈ pendingClues s' := by
        show c ∈ (s'.hintRow hash).clues
        rwa [hself]
      rw [heq] at this
      exact this
    · intro c hc
      have : (hash, c) ∈ pendingClues s := hc
      rw [← heq] at this
      rw [← hself]
      exact this
  · rintro ⟨hle, hge⟩
    ext ⟨txHash, c⟩
    show c ∈ (s'.hintRow txHash).clues ↔ c ∈ (s.hintRow txHash).clues
    by_cases heq : txHash = hash
    · subst heq
      rw [hself]
      exact ⟨fun hc => hle hc, fun hc => hge hc⟩
    · rw [h, Function.update_of_ne heq]

/-- A rejected request whose transaction hash is known leaves the pending clues as they were
exactly when it is harmless. -/
theorem rejected_send_keeps_clues_iff (env : SendEnv) (s : Cache) (req : Proto.RawTransaction)
    (now later : ℕ) (txData omrClue : Bytes) (hash : Bytes32) (hnow : now < 256 ^ 8)
    (hindex : ∀ extra ∈ req.extraOmrClues, extra.outputIndex ≤ u32Max) (hnone : NoneExpired now s)
    (hreq : unwrapRequest env req = .ok (txData, omrClue))
    (hhash : env.txHashOf txData = some hash) :
    pendingClues ((sendTransaction env .failed now later req).exec s) = pendingClues s ↔
      RejectionHarmless env req omrClue (s.hintRow hash) := by
  rw [pendingClues_eq_iff (sendTransaction_failed_rows hnow hnone hreq hhash later)]
  unfold RejectionHarmless HintRow.afterRejection
  by_cases hmain : omrClue ≠ [] ∧ env.validClue omrClue = true
  · rw [if_pos hmain]
    simp only [hmain, ne_eq, not_false_eq_true, and_self, true_implies]
    by_cases htaken : (s.hintRow hash).Taken req.omrClueOutputIndex
    · simp only [htaken, if_true, true_implies, not_true_eq_false, false_implies, and_true]
      constructor
      · exact fun h => holds_of_addExtras_subset hindex h.1
      · exact fun h => ⟨addExtras_subset_of_holds hindex h (List.Subset.refl _)
          (List.Subset.refl _), clues_addExtras_subset hindex _⟩
    · simp only [htaken, if_false, false_implies, not_false_eq_true, true_implies, true_and]
      constructor
      · exact fun h => List.eq_nil_of_subset_nil h.2
      · intro h
        rw [h]
        exact ⟨List.Subset.refl _, List.nil_subset _⟩
  · rw [if_neg hmain]
    simp only [hmain, false_implies, iff_true]
    exact ⟨List.Subset.refl _, List.Subset.refl _⟩

/-! ## Concrete requests -/

/-- A server on which every transaction has the same hash. -/
def sampleEnv : SendEnv := ⟨100, fun _ => some (Bytes32.fill 7), fun _ => Bytes32.fill 0⟩

/-- A request with a valid clue for output 0. -/
def sampleRequest : Proto.RawTransaction :=
  ⟨[1], serializeClue sampleEnv.blake3 zeroCiphertext, [], 0, []⟩

/-- The sample request holds its own clue. -/
theorem unwrapRequest_sample :
    unwrapRequest sampleEnv sampleRequest = .ok ([1], sampleRequest.omrClue) := rfl

/-- The request on an empty cache. -/
theorem rejected_send_keeps_clues_iff_first :
    pendingClues ((sendTransaction sampleEnv .failed 5 6 sampleRequest).exec Cache.initial) =
        pendingClues Cache.initial ↔
      RejectionHarmless sampleEnv sampleRequest sampleRequest.omrClue
        (Cache.initial.hintRow (Bytes32.fill 7)) := by
  have hmeta : Cache.initial.db.omr.omrClueHintMeta = .empty := by decide +kernel
  apply rejected_send_keeps_clues_iff sampleEnv Cache.initial sampleRequest 5 6 [1]
  · decide
  · exact List.forall_mem_nil _
  · intro txHash value hvalue
    rw [Cache.hintRow, hmeta] at hvalue
    cases hvalue
  · exact unwrapRequest_sample
  · rfl

/-- A pending clue for output 1 is lost when the request is rejected. -/
theorem rejected_send_drops_earlier_clue :
    let s := (storeOmrClueHint 5 (Bytes32.fill 7) [9] (some 1)).exec Cache.initial
    pendingClues ((sendTransaction sampleEnv .failed 5 6 sampleRequest).exec s) ≠
      pendingClues s := by
  intro s heq
  have hmeta : s.db.omr.omrClueHintMeta =
      OrderedMap.empty.insert (Bytes32.fill 7) (leBytes 8 5) := by decide +kernel
  have hrow : (s.hintRow (Bytes32.fill 7)).clues = [(some 1, [9])] := by decide +kernel
  have hnone : NoneExpired 5 s := by
    intro txHash value hvalue
    have hget : s.db.omr.omrClueHintMeta.get txHash = some value := hvalue
    rw [hmeta, OrderedMap.get_insert] at hget
    split_ifs at hget with htx
    · cases hget
      decide
    · cases hget
  have hvalid : sampleEnv.validClue sampleRequest.omrClue = true := by
    unfold SendEnv.validClue
    rw [show sampleRequest.omrClue = serializeClue sampleEnv.blake3 zeroCiphertext from rfl,
      validateUnifomrClue_serializeClue inRange_zeroCiphertext]
    rfl
  have hne : sampleRequest.omrClue ≠ [] := List.cons_ne_nil _ _
  have hfree : ¬ (s.hintRow (Bytes32.fill 7)).Taken sampleRequest.omrClueOutputIndex := by
    rw [HintRow.Taken, hrow]
    decide
  have hrows := sendTransaction_failed_rows (by decide) hnone unwrapRequest_sample rfl 6
  rw [HintRow.afterRejection, if_pos ⟨hne, hvalid⟩, if_neg hfree] at hrows
  have hlost := ((pendingClues_eq_iff hrows).mp heq).2
  rw [hrow] at hlost
  exact absurd (hlost (List.mem_singleton_self _)) (List.not_mem_nil)

end LightWalletd
