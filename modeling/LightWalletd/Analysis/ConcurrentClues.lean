import LightWalletd.Analysis.DirectoryContract
import LightWalletd.Analysis.FirstWriter
import LightWalletd.Computation.Transaction

/-!
# Concurrent registrations

`store_omr_clue_hint` and `store_clue_public_key` calls that run side by side. Each is a
transaction on the row of its transaction hash or payment key: it reads the row, decides and
writes. A calm run of such calls leaves the rows and returns the results of the calls one
after the other. In a run that is not calm a clue is lost.
-/

set_option autoImplicit false

namespace LightWalletd

open Stateful

/-- A call that stores a clue or a clue key. -/
inductive ClueCall
  | hint (txHash : Bytes32) (c : HintCall)
  | key (paymentPubkey : Bytes32) (c : KeyCall)

namespace ClueCall

/-- The program of a call: a clue or a clue key is stored. -/
def prog : ClueCall → CacheM Unit
  | hint txHash c => storeOmrClueHint c.now txHash c.clue c.outputIndex
  | key paymentPubkey c => c.store paymentPubkey

/-- The row that the call reads and writes. -/
def row : ClueCall → Bytes32 ⊕ Bytes32
  | hint txHash _ => .inl txHash
  | key paymentPubkey _ => .inr paymentPubkey

/-- The arguments have the sizes of their types. -/
def Fits : ClueCall → Prop
  | hint _ c => FitsEntry (c.outputIndex, c.clue) ∧ c.now < 256 ^ 8
  | key _ c => c.keyVersion < 256 ^ 8

/-- The clock that the call reads. -/
def now? : ClueCall → Option ℕ
  | hint _ c => some c.now
  | key _ _ => none

/-- What the call does to a row: its writes and its result. -/
def decision : ClueCall → HintRow → List (HintRow → HintRow) × Except LightWalletError Unit
  | hint _ c, row =>
    if c.clue.isEmpty || row.clues.any fun e => e.1 == c.outputIndex then ([], .ok ())
    else ([fun row' => (some (encodeOmrClueHints (row.clues ++ [(c.outputIndex, c.clue)])), row'.2),
      fun row' => (row'.1, some (leBytes 8 c.now))], .ok ())
  | key _ c, row =>
    match checkClueRegistration c.cluePk c.keyVersion c.ownershipProof with
    | .error e => ([], .error e)
    | .ok () => match checkStoredClueKey row.1 c.cluePk c.keyVersion with
      | .error e => ([], .error e)
      | .ok () => ([fun row' =>
          (some (encodeCluePubkeyValue c.keyVersion c.ownershipProof c.cluePk), row'.2)], .ok ())

/-- A hint that writes appends its clue, then stores its time. -/
theorem decision_hint_eq_cons {txHash : Bytes32} {c : HintCall} {row : HintRow}
    {w : HintRow → HintRow} {ws : List (HintRow → HintRow)}
    (h : ((hint txHash c).decision row).1 = w :: ws) :
    w = (fun row' => (some (encodeOmrClueHints (row.clues ++ [(c.outputIndex, c.clue)])), row'.2)) ∧
      ws = [fun row' => (row'.1, some (leBytes 8 c.now))] := by
  by_cases hnone : (c.clue.isEmpty || row.clues.any fun e => e.1 == c.outputIndex) = true
  · simp [decision, hnone] at h
  · rw [decision, if_neg hnone] at h
    obtain ⟨hw, hws⟩ := List.cons.inj h
    exact ⟨hw.symm, hws.symm⟩

/-- A key that writes has passed its checks, and stores its row. -/
theorem decision_key_eq_cons {paymentPubkey : Bytes32} {c : KeyCall} {row : HintRow}
    {w : HintRow → HintRow} {ws : List (HintRow → HintRow)}
    (h : ((key paymentPubkey c).decision row).1 = w :: ws) :
    checkClueRegistration c.cluePk c.keyVersion c.ownershipProof = .ok () ∧
      checkStoredClueKey row.1 c.cluePk c.keyVersion = .ok () ∧
      w = (fun row' =>
        (some (encodeCluePubkeyValue c.keyVersion c.ownershipProof c.cluePk), row'.2)) ∧
      ws = [] := by
  cases hsizes : checkClueRegistration c.cluePk c.keyVersion c.ownershipProof with
  | error e => simp [decision, hsizes] at h
  | ok _ =>
    cases hstored : checkStoredClueKey row.1 c.cluePk c.keyVersion with
    | error e => simp [decision, hsizes, hstored] at h
    | ok _ =>
      simp only [decision, hsizes, hstored] at h
      obtain ⟨hw, hws⟩ := List.cons.inj h
      exact ⟨rfl, rfl, hw.symm, hws.symm⟩

end ClueCall

/-- The row of a transaction hash with its time, or that of a payment key. -/
def clueRow : Bytes32 ⊕ Bytes32 → Cache → HintRow
  | .inl txHash, s => s.hintRow txHash
  | .inr paymentPubkey, s => (s.db.omr.omrCluePubkeys.get paymentPubkey, none)

/-- The rows that no call touches. -/
def Cache.besideClues (s : Cache) : Db :=
  { s.db with omr := { s.db.omr with
      omrClueHints := .empty, omrClueHintMeta := .empty, omrCluePubkeys := .empty } }

/-- The version that is registered for a payment key, 0 when none is. -/
def registeredVersion (paymentPubkey : Bytes32) (s : Cache) : ℕ :=
  (((s.db.omr.omrCluePubkeys.get paymentPubkey).bind parseCluePubkeyValue).map Prod.fst).getD 0

/-- No clue row is expired or expires while the calls run. -/
structure NoExpiryDuring {ι : Type} (calls : ι → ClueCall) (s : Cache) : Prop where
  rows : ∀ i, ∀ now ∈ (calls i).now?, ∀ txHash, (s.hintRow txHash).Fresh now
  calls : ∀ i, ∀ now ∈ (calls i).now?, ∀ j, ∀ later ∈ (calls j).now?,
    later - now ≤ omrClueHintTtlSecs

/-! ## Calls as transactions -/

section Calls

variable {ι : Type} {calls : ι → ClueCall} {s₀ : Cache}

/-- What the calls keep: the rows they do not touch, and that no clue row is expired. -/
structure Undisturbed (calls : ι → ClueCall) (s₀ s : Cache) : Prop where
  beside : s.besideClues = s₀.besideClues
  fresh : ∀ i, ∀ now ∈ (calls i).now?, ∀ txHash, (s.hintRow txHash).Fresh now

/-- How rows grow: clues are only added, and a version does not go down unless a call for its
payment key has a version that looks like the tag of older rows. -/
def Grows (calls : ι → ClueCall) : Bytes32 ⊕ Bytes32 → HintRow → HintRow → Prop
  | .inl _, row, row' => row.clues <+: row'.clues
  | .inr paymentPubkey, row, row' =>
    (∀ i c, calls i = .key paymentPubkey c → ¬ TaggedVersion c.keyVersion) →
      ((row.1.bind parseCluePubkeyValue).map Prod.fst).getD 0 ≤
        ((row'.1.bind parseCluePubkeyValue).map Prod.fst).getD 0

/-- A row that does not change has grown. -/
theorem grows_refl (k : Bytes32 ⊕ Bytes32) (row : HintRow) : Grows calls k row row := by
  cases k with
  | inl txHash => exact List.prefix_rfl
  | inr paymentPubkey => exact fun _ => le_rfl

/-- Growing is transitive. -/
theorem grows_trans (k : Bytes32 ⊕ Bytes32) (row₁ row₂ row₃ : HintRow)
    (h : Grows calls k row₁ row₂) (h' : Grows calls k row₂ row₃) : Grows calls k row₁ row₃ := by
  cases k with
  | inl txHash => exact List.IsPrefix.trans h h'
  | inr paymentPubkey => exact fun huntagged => (h huntagged).trans (h' huntagged)

/-- Setting the time of the last sweep touches no row. -/
theorem acts_sweepTime (now : ℕ) (k : Bytes32 ⊕ Bytes32) :
    Acts clueRow (Undisturbed calls s₀) k (fun s => { s with omrHintSweepUnix := now }) id where
  keeps := fun _ hs => ⟨hs.beside, hs.fresh⟩
  view := fun s k' => by
    cases k' <;> simp [clueRow, Cache.hintRow]

/-- While no clue expires there is nothing to remove. -/
theorem expiredHints_eq_nil {s : Cache} (hs : Undisturbed calls s₀ s) {i : ι} {now : ℕ}
    (hnow : now ∈ (calls i).now?) : expiredHints now s = [] := by
  rw [List.eq_nil_iff_forall_not_mem]
  exact fun txHash => not_mem_expiredHints (hs.fresh i now hnow txHash)

/-- The sweep finds nothing to drop. -/
theorem quiet_pruneExpiredOmrClueHints {i : ι} {now : ℕ} (hnow : now ∈ (calls i).now?) :
    Quiet clueRow (Undisturbed calls s₀) (fun _ => True) (pruneExpiredOmrClueHints now) := by
  have hsweep : Quiet clueRow (Undisturbed calls s₀) (fun _ => True)
      (sweepExpiredOmrClueHintsAt now) := by
    intro s hs
    show Quiet clueRow _ _ (Prog.forEach removeOmrClueHint (expiredHints now s))
    rw [expiredHints_eq_nil hs hnow]
    trivial
  intro s hs
  show Quiet clueRow _ _ (if s.omrHintSweepUnix ≠ 0 ∧
    now - s.omrHintSweepUnix < omrClueHintSweepSecs then _ else _)
  by_cases hrecent : s.omrHintSweepUnix ≠ 0 ∧ now - s.omrHintSweepUnix < omrClueHintSweepSecs
  · rw [if_pos hrecent]
    trivial
  · rw [if_neg hrecent]
    refine ⟨acts_sweepTime now, hsweep.attempt.bind ?_⟩
    rintro _ ⟨a, rfl, -⟩
    trivial

/-- The row is not dropped. -/
theorem quiet_dropOmrClueHintIfExpired {i : ι} {now : ℕ} (hnow : now ∈ (calls i).now?)
    (txHash : Bytes32) :
    Quiet clueRow (Undisturbed calls s₀) (fun _ => True) (dropOmrClueHintIfExpired now txHash) := by
  simp only [dropOmrClueHintIfExpired, Tree.get, Prog.get, Prog.bind_eq, Prog.bind, Quiet]
  intro s hs
  have hsel : omrClueHintMeta.sel s.db = s.db.omr.omrClueHintMeta := rfl
  rw [hsel]
  cases hstamp : s.db.omr.omrClueHintMeta.get txHash with
  | none => trivial
  | some value =>
    have hfresh := hs.fresh i now hnow txHash value hstamp
    simp only [hfresh]
    trivial

/-- Writing a clue row changes that row. -/
theorem acts_insertHints (txHash : Bytes32) (bytes : Bytes) :
    Acts clueRow (Undisturbed calls s₀) (.inl txHash)
      (fun s => { s with db := omrClueHints.upd ((omrClueHints.sel s.db).insert txHash bytes) s.db })
      (fun row => (some bytes, row.2)) where
  keeps := fun s hs => ⟨hs.beside, hs.fresh⟩
  view := by
    intro s k'
    cases k' with
    | inl txHash' =>
      by_cases h : txHash' = txHash
      · simp [clueRow, Cache.hintRow, omrClueHints, h]
      · simp [clueRow, Cache.hintRow, omrClueHints, h]
    | inr paymentPubkey => simp [clueRow, omrClueHints]

/-- Writing its time changes that row. -/
theorem acts_insertTime (hexpiry : NoExpiryDuring calls s₀) {i : ι} {now : ℕ}
    (hnow : now ∈ (calls i).now?) (hlt : now < 256 ^ 8) (txHash : Bytes32) :
    Acts clueRow (Undisturbed calls s₀) (.inl txHash)
      (fun s => { s with db :=
        omrClueHintMeta.upd ((omrClueHintMeta.sel s.db).insert txHash (leBytes 8 now)) s.db })
      (fun row => (row.1, some (leBytes 8 now))) where
  keeps := by
    intro s hs
    refine ⟨hs.beside, fun j later hlater txHash' => ?_⟩
    by_cases h : txHash' = txHash
    · have hfresh : HintRow.Fresh later (s.db.omr.omrClueHints.get txHash', some (leBytes 8 now)) :=
        HintRow.fresh_stamp hlt (hexpiry.calls i now hnow j later hlater)
      simpa [Cache.hintRow, omrClueHintMeta, h] using hfresh
    · have hfresh := hs.fresh j later hlater txHash'
      simpa [Cache.hintRow, omrClueHintMeta, h] using hfresh
  view := by
    intro s k'
    cases k' with
    | inl txHash' =>
      by_cases h : txHash' = txHash
      · simp [clueRow, Cache.hintRow, omrClueHintMeta, h]
      · simp [clueRow, Cache.hintRow, omrClueHintMeta, h]
    | inr paymentPubkey => simp [clueRow, omrClueHintMeta]

/-- Writing a clue key changes that row. -/
theorem acts_insertKey (paymentPubkey : Bytes32) (bytes : Bytes) :
    Acts clueRow (Undisturbed calls s₀) (.inr paymentPubkey)
      (fun s => { s with db :=
        omrCluePubkeys.upd ((omrCluePubkeys.sel s.db).insert paymentPubkey bytes) s.db })
      (fun row => (some bytes, row.2)) where
  keeps := fun s hs => ⟨hs.beside, hs.fresh⟩
  view := by
    intro s k'
    cases k' with
    | inl txHash => simp [clueRow, Cache.hintRow, omrCluePubkeys]
    | inr paymentPubkey' =>
      by_cases h : paymentPubkey' = paymentPubkey
      · simp [clueRow, omrCluePubkeys, h]
      · simp [clueRow, omrCluePubkeys, h]

/-- A clue call reads its row last and then makes both writes or none. -/
theorem prepares_hint (hexpiry : NoExpiryDuring calls s₀) {i : ι} {txHash : Bytes32}
    {c : HintCall} (hi : calls i = .hint txHash c) (hfits : (calls i).Fits) :
    Prepares clueRow (Undisturbed calls s₀) (calls i).row (calls i).decision (calls i).prog := by
  have hnow : c.now ∈ (calls i).now? := by
    rw [hi]
    rfl
  rw [hi] at hfits
  rw [hi]
  show Prepares clueRow _ _ _ (storeOmrClueHint c.now txHash c.clue c.outputIndex)
  unfold storeOmrClueHint
  by_cases hempty : c.clue.isEmpty = true
  · rw [if_pos hempty]
    intro row
    simp [ClueCall.decision, hempty]
  · rw [if_neg hempty]
    apply (quiet_pruneExpiredOmrClueHints hnow).prepares
    intro _ _
    apply (quiet_dropOmrClueHintIfExpired hnow txHash).prepares
    intro _ _ s hs
    right
    have hclues : (clueRow (ClueCall.hint txHash c).row s).clues =
        storedClues ((omrClueHints.sel s.db).get txHash) := rfl
    simp only [ClueCall.decision, hclues, Bool.not_eq_true _ ▸ hempty, Bool.false_or]
    by_cases htaken : ((storedClues ((omrClueHints.sel s.db).get txHash)).any
        fun e => e.1 == c.outputIndex) = true
    · rw [if_pos htaken]
      show Performs clueRow _ _ _ _ (if _ then _ else _)
      rw [if_pos htaken]
      rfl
    · rw [if_neg htaken]
      show Performs clueRow _ _ _ _ (if _ then _ else _)
      rw [if_neg htaken]
      exact ⟨_, _, rfl, acts_insertHints txHash _, fun _ =>
        ⟨_, _, rfl, acts_insertTime hexpiry hnow hfits.2 txHash, fun _ => rfl⟩⟩

/-- A key call checks its sizes, reads its row and then makes its write or none. -/
theorem prepares_key {i : ι} {paymentPubkey : Bytes32} {c : KeyCall}
    (hi : calls i = .key paymentPubkey c) :
    Prepares clueRow (Undisturbed calls s₀) (calls i).row (calls i).decision (calls i).prog := by
  rw [hi]
  show Prepares clueRow _ _ _ (storeCluePublicKey paymentPubkey c.cluePk c.keyVersion
    c.ownershipProof)
  unfold storeCluePublicKey
  cases hsizes : checkClueRegistration c.cluePk c.keyVersion c.ownershipProof with
  | error e =>
    intro row
    simp [ClueCall.decision, hsizes]
  | ok _ =>
    intro s hs
    right
    have hrow : (clueRow (ClueCall.key paymentPubkey c).row s).1 =
        (omrCluePubkeys.sel s.db).get paymentPubkey := rfl
    simp only [ClueCall.decision, hsizes, hrow]
    show Performs clueRow _ _ _ _ ((liftExcept (checkStoredClueKey
      ((omrCluePubkeys.sel s.db).get paymentPubkey) c.cluePk c.keyVersion)).bind _)
    cases checkStoredClueKey ((omrCluePubkeys.sel s.db).get paymentPubkey) c.cluePk
        c.keyVersion with
    | error e => rfl
    | ok _ => exact ⟨_, _, rfl, acts_insertKey paymentPubkey _, fun _ => rfl⟩

/-- An admitted version is not below the one that is read. -/
theorem version_le_of_checkStoredClueKey {existing : Option Bytes} {cluePk : Bytes}
    {keyVersion : ℕ} (h : checkStoredClueKey existing cluePk keyVersion = .ok ()) :
    ((existing.bind parseCluePubkeyValue).map Prod.fst).getD 0 ≤ keyVersion := by
  unfold checkStoredClueKey at h
  cases hread : existing.bind parseCluePubkeyValue with
  | none => simp
  | some e =>
    rw [hread] at h
    by_cases hstale : keyVersion < e.1
    · simp [hstale] at h
    · simpa using hstale

/-- The first write of a call lets its row grow. -/
theorem grows_first {i : ι} (hfits : (calls i).Fits) {row : HintRow} {w : HintRow → HintRow}
    {ws : List (HintRow → HintRow)} (hd : ((calls i).decision row).1 = w :: ws) :
    Grows calls (calls i).row row (w row) := by
  cases hi : calls i with
  | hint txHash c =>
    rw [hi] at hd hfits
    obtain ⟨rfl, -⟩ := ClueCall.decision_hint_eq_cons hd
    show row.clues <+:
      decodeOmrClueHints (encodeOmrClueHints (row.clues ++ [(c.outputIndex, c.clue)]))
    rw [decode_encode_append (fun _ he => HintRow.readEntry_clues he) hfits.1]
    exact List.prefix_append ..
  | key paymentPubkey c =>
    intro huntagged
    rw [hi] at hd hfits
    obtain ⟨hsizes, hstored, rfl, -⟩ := ClueCall.decision_key_eq_cons hd
    obtain ⟨hclue, hproof, hlength⟩ := sizes_of_checkClueRegistration hsizes
    have hread := parse_encode hfits hproof hlength hclue (huntagged i c hi)
    have hle := version_le_of_checkStoredClueKey hstored
    simpa [hread] using hle

/-- The second write of a clue call, its time, changes no decision. -/
theorem trailing_writes (i : ι) (row : HintRow) (w : HintRow → HintRow)
    (ws : List (HintRow → HintRow)) (hd : ((calls i).decision row).1 = w :: ws) :
    ∀ w' ∈ ws, Trailing (Grows calls) (fun j => (calls j).row) (fun j => (calls j).decision)
      (calls i).row w' := by
  intro w' hw'
  cases hi : calls i with
  | hint txHash c =>
    rw [hi] at hd
    obtain ⟨-, rfl⟩ := ClueCall.decision_hint_eq_cons hd
    rw [List.mem_singleton] at hw'
    subst hw'
    refine ⟨fun j row' hj => ?_, fun row' => List.prefix_rfl⟩
    cases hcall : calls j with
    | hint txHash' c' => rfl
    | key paymentPubkey c' =>
      rw [hcall] at hj
      cases hj
  | key paymentPubkey c =>
    rw [hi] at hd
    obtain ⟨-, -, -, rfl⟩ := ClueCall.decision_key_eq_cons hd
    cases hw'

/-- The calls are transactions on their rows. -/
theorem transactional (hexpiry : NoExpiryDuring calls s₀) (hfits : ∀ i, (calls i).Fits) :
    Transactional clueRow (Undisturbed calls s₀) (Grows calls) (fun i => (calls i).row)
      (fun i => (calls i).decision) (fun i => (calls i).prog) where
  prepares := by
    intro i
    cases hi : calls i with
    | hint txHash c =>
      rw [← hi]
      exact prepares_hint hexpiry hi (hfits i)
    | key paymentPubkey c =>
      rw [← hi]
      exact prepares_key hi
  first := fun i _ _ _ hd => grows_first (hfits i) hd
  trailing := trailing_writes

/-- The rows of the calls and the rows that they do not touch are all there is. -/
theorem db_ext {s s' : Cache} (hbeside : s.besideClues = s'.besideClues)
    (hrows : ∀ k, clueRow k s = clueRow k s') : s.db = s'.db := by
  obtain ⟨⟨blocks, trees, ⟨hints, times, keys, enc, old, oldV1⟩, server⟩, tree, sweep⟩ := s
  obtain ⟨⟨blocks', trees', ⟨hints', times', keys', enc', old', oldV1'⟩, server'⟩, tree', sweep'⟩ :=
    s'
  simp only [Cache.besideClues, Db.mk.injEq, OmrRows.mk.injEq, true_and] at hbeside
  obtain ⟨rfl, rfl, ⟨rfl, rfl, rfl⟩, rfl⟩ := hbeside
  have hhints : hints = hints' :=
    OrderedMap.get_ext fun txHash => congrArg Prod.fst (hrows (.inl txHash))
  have htimes : times = times' :=
    OrderedMap.get_ext fun txHash => congrArg Prod.snd (hrows (.inl txHash))
  have hkeys : keys = keys' :=
    OrderedMap.get_ext fun paymentPubkey => congrArg Prod.fst (hrows (.inr paymentPubkey))
  rw [hhints, htimes, hkeys]

end Calls

/-! ## Runs -/

/-- The calls before the first command. -/
def startCalls {n : ℕ} (calls : Fin n → ClueCall) (s : Cache) :
    Pool (Fin n) LightWalletError Cache Unit :=
  Pool.start (fun i => (calls i).prog) s

/-- A calm run loses no clue and lowers no version, and once it is complete, it shows the rows
and the results of the calls one after the other. -/
theorem calm_calls_serializable {n : ℕ} (calls : Fin n → ClueCall) (s : Cache)
    (early late : List (Fin n)) (hfits : ∀ i, (calls i).Fits) (hexpiry : NoExpiryDuring calls s)
    (hcalm : (startCalls calls s).Calm (fun i => (calls i).row) (early ++ late)) :
    (((startCalls calls s).runs (early ++ late)).Complete → ∃ order,
      SerializedBy Cache.db (fun i => (calls i).prog) s order
        ((startCalls calls s).runs (early ++ late))) ∧
    (∀ txHash, (((startCalls calls s).runs early).state.hintRow txHash).clues <+:
      (((startCalls calls s).runs (early ++ late)).state.hintRow txHash).clues) ∧
    ∀ paymentPubkey,
      (∀ i c, calls i = .key paymentPubkey c → ¬ TaggedVersion c.keyVersion) →
      registeredVersion paymentPubkey ((startCalls calls s).runs early).state ≤
        registeredVersion paymentPubkey ((startCalls calls s).runs (early ++ late)).state := by
  have htx := transactional hexpiry hfits
  have hs : Undisturbed calls s s := ⟨rfl, hexpiry.rows⟩
  obtain ⟨hkeeps, hgrows⟩ := htx.run_grows hs grows_refl grows_trans hcalm
  refine ⟨fun hcomplete => ?_, fun txHash => hgrows (.inl txHash),
    fun paymentPubkey => hgrows (.inr paymentPubkey)⟩
  obtain ⟨order, hserial⟩ := htx.exists_serializedBy hs grows_refl grows_trans hcalm hcomplete
  refine ⟨order, hserial.nodup, hserial.all, ?_, hserial.outcome⟩
  apply db_ext
  · exact hkeeps.beside.trans (htx.serial hs order).beside.symm
  · exact fun k => congrFun hserial.rows k

/-- Clues for two outputs of one transaction. -/
def twoHints : Fin 2 → ClueCall
  | 0 => .hint (Bytes32.fill 1) ⟨5, [1], some 0⟩
  | 1 => .hint (Bytes32.fill 1) ⟨5, [2], some 1⟩

/-- No clue expires while the two clues are stored. -/
theorem twoHints_noExpiry : NoExpiryDuring twoHints Cache.initial where
  rows := fun _ _ _ _ => HintRow.fresh_none _
  calls := by
    have hclock : ∀ i, (twoHints i).now? = some 5 := by decide
    intro i now hnow j later hlater
    rw [hclock, Option.mem_some_iff] at hnow hlater
    simp [← hnow, ← hlater]

/-- The second call reads the row between the two writes of the first. -/
theorem calm_calls_serializable_twoHints :
    (((startCalls twoHints Cache.initial).runs
        ([1, 0, 0, 0, 0, 0] ++ [0, 1, 1, 1, 1, 0, 1, 1])).Complete → ∃ order,
      SerializedBy Cache.db (fun i => (twoHints i).prog) Cache.initial order
        ((startCalls twoHints Cache.initial).runs
          ([1, 0, 0, 0, 0, 0] ++ [0, 1, 1, 1, 1, 0, 1, 1]))) ∧
    (∀ txHash, (((startCalls twoHints Cache.initial).runs
        [1, 0, 0, 0, 0, 0]).state.hintRow txHash).clues <+:
      (((startCalls twoHints Cache.initial).runs
        ([1, 0, 0, 0, 0, 0] ++ [0, 1, 1, 1, 1, 0, 1, 1])).state.hintRow txHash).clues) ∧
    ∀ paymentPubkey,
      (∀ i c, twoHints i = .key paymentPubkey c → ¬ TaggedVersion c.keyVersion) →
      registeredVersion paymentPubkey
          ((startCalls twoHints Cache.initial).runs [1, 0, 0, 0, 0, 0]).state ≤
        registeredVersion paymentPubkey ((startCalls twoHints Cache.initial).runs
          ([1, 0, 0, 0, 0, 0] ++ [0, 1, 1, 1, 1, 0, 1, 1])).state := by
  apply calm_calls_serializable
  · rw [Fin.forall_fin_two]
    constructor
    · exact ⟨⟨by simp [u32Max], by simp [u32Max]⟩, by simp⟩
    · exact ⟨⟨by simp [u32Max], by simp [u32Max]⟩, by simp⟩
  · exact twoHints_noExpiry
  · decide +kernel

/-- Both calls read the row before either writes it: the clue of the first is lost. -/
theorem concurrent_hints_lose_clue :
    NoExpiryDuring twoHints Cache.initial ∧
      ((startCalls twoHints Cache.initial).runs
        [0, 0, 0, 0, 0, 1, 1, 1, 0, 1, 0, 1]).Complete ∧
      ¬ ∃ order, SerializedBy Cache.db (fun i => (twoHints i).prog) Cache.initial order
        ((startCalls twoHints Cache.initial).runs
          [0, 0, 0, 0, 0, 1, 1, 1, 0, 1, 0, 1]) := by
  refine ⟨twoHints_noExpiry, by unfold Pool.Complete; decide +kernel, ?_⟩
  rintro ⟨order, hserial⟩
  have horder : order.Perm [0, 1] := by
    rw [List.perm_ext_iff_of_nodup hserial.nodup (by decide)]
    have hmem : ∀ i : Fin 2, i ∈ [0, 1] := by decide
    exact fun i => ⟨fun _ => hmem i, fun _ => hserial.all i⟩
  obtain ⟨a, b, rfl⟩ := List.length_eq_two.mp horder.length_eq
  have hcases : ∀ a b : Fin 2, [a, b].Nodup → (a, b) = (0, 1) ∨ (a, b) = (1, 0) := by decide
  have hrow := congrArg (fun db => db.omr.omrClueHints.get (Bytes32.fill 1)) hserial.rows
  rcases hcases a b hserial.nodup with h | h
  · cases h
    exact absurd hrow (by decide +kernel)
  · cases h
    exact absurd hrow (by decide +kernel)

end LightWalletd
