import LightWalletd.Analysis.RegistrationOrder
import LightWalletd.Computation.Iteration

/-!
# Merging twice

A merge fills empty clue and metadata fields and changes nothing else. Each clue that it writes
is one of the transaction's hints, on the output that the hint names or on the first one that was
still empty, and no other output carries it. A hint that was placed, or that found its output
taken, finds nothing to do in any block with more fields filled, so a second merge is idle.
-/

set_option autoImplicit false

namespace LightWalletd

open Stateful

/-- The output `o'` is `o` with empty clue fields filled. -/
structure CompactOutput.FilledBy (o o' : CompactOutput) : Prop where
  fields : o' = { o with omrClue := o'.omrClue, omrMetadataEnc := o'.omrMetadataEnc }
  omrClue : o.omrClue ≠ [] → o'.omrClue = o.omrClue
  omrMetadataEnc : o.omrMetadataEnc ≠ [] → o'.omrMetadataEnc = o.omrMetadataEnc

/-- The outputs are the same ones, with empty clue fields filled. -/
structure FilledIn (outputs outputs' : List CompactOutput) : Prop where
  length : outputs'.length = outputs.length
  output : ∀ (i : ℕ) (o : CompactOutput), outputs[i]? = some o →
    ∃ o', outputs'[i]? = some o' ∧ o.FilledBy o'

section Filled

variable {outputs outputs' outputs'' : List CompactOutput}

/-- An output is filled from itself. -/
theorem CompactOutput.FilledBy.refl (o : CompactOutput) : o.FilledBy o :=
  ⟨rfl, fun _ => rfl, fun _ => rfl⟩

/-- Two fillings, one after the other, are one. -/
theorem CompactOutput.FilledBy.trans {o o' o'' : CompactOutput} (h : o.FilledBy o')
    (h' : o'.FilledBy o'') : o.FilledBy o'' := by
  refine ⟨?_, fun hne => ?_, fun hne => ?_⟩
  · rw [h'.fields, h.fields]
  · have hkept := h.omrClue hne
    rw [h'.omrClue (by rwa [hkept]), hkept]
  · have hkept := h.omrMetadataEnc hne
    rw [h'.omrMetadataEnc (by rwa [hkept]), hkept]

/-- Outputs are filled from themselves. -/
theorem FilledIn.refl (outputs : List CompactOutput) : FilledIn outputs outputs :=
  ⟨rfl, fun _ o ho => ⟨o, ho, .refl o⟩⟩

/-- The same for the outputs of a transaction. -/
theorem FilledIn.trans (h : FilledIn outputs outputs') (h' : FilledIn outputs' outputs'') :
    FilledIn outputs outputs'' := by
  refine ⟨h'.length.trans h.length, fun i o ho => ?_⟩
  obtain ⟨o', ho', hfill⟩ := h.output i o ho
  obtain ⟨o'', ho'', hfill'⟩ := h'.output i o' ho'
  exact ⟨o'', ho'', hfill.trans hfill'⟩

/-- Filling one output. -/
theorem FilledIn.modify {f : CompactOutput → CompactOutput}
    (hf : ∀ o : CompactOutput, o.FilledBy (f o)) (i : ℕ) (outputs : List CompactOutput) :
    FilledIn outputs (outputs.modify i f) := by
  refine ⟨List.length_modify .., fun j o ho => ?_⟩
  rw [List.getElem?_modify, ho]
  by_cases hij : i = j
  · exact ⟨f o, by simp [hij], hf o⟩
  · exact ⟨o, by simp [hij], .refl o⟩

/-- Placing metadata fills an output. -/
theorem filledIn_fillMetadataAt (i : ℕ) (enc : Bytes) (outputs : List CompactOutput) :
    FilledIn outputs (fillMetadataAt i enc outputs) := by
  refine .modify (fun o => ?_) i outputs
  by_cases h : o.omrMetadataEnc = []
  · simp only [h, List.isEmpty_nil, if_true]
    exact ⟨rfl, fun _ => rfl, fun hne => absurd h hne⟩
  · simp only [List.isEmpty_iff, h, if_false]
    exact .refl o

/-- The metadata row of a transaction fills its outputs. -/
theorem filledIn_withMetadata (row : Option Bytes) (tx : CompactTx) :
    FilledIn tx.outputs (tx.withMetadata row).outputs := by
  cases row with
  | none => exact .refl _
  | some stored =>
    show FilledIn tx.outputs (mergeMetadata tx.outputs stored)
    unfold mergeMetadata
    obtain ⟨idx, enc⟩ := parseStoredOmrClueHint stored
    by_cases h : enc.isEmpty = true
    · simp only [h, if_true]
      exact .refl _
    · simp only [h, Bool.false_eq_true, if_false]
      cases idx with
      | none => exact filledIn_fillMetadataAt _ _ _
      | some i => exact filledIn_fillMetadataAt _ _ _

end Filled

/-! ## One hint -/

/-- The hint has nothing to do: it is empty, its clue is on an output already, or the output it
would go to is not empty or not there. -/
def Settled (outputs : List CompactOutput) (c : Option ℕ × Bytes) : Prop :=
  c.2 = [] ∨ (∃ o ∈ outputs, o.omrClue = c.2) ∨ match c.1 with
    | some idx => ∀ o, outputs[idx]? = some o → o.omrClue ≠ []
    | none => ∀ o ∈ outputs, o.omrClue ≠ []

/-- The hint goes to output `i`: it names it, or it names none and `i` is the first empty one. -/
structure LandsOn (outputs : List CompactOutput) (c : Option ℕ × Bytes) (i : ℕ) : Prop where
  clue : c.2 ≠ []
  other : ∀ o ∈ outputs, o.omrClue ≠ c.2
  empty : ∃ o, outputs[i]? = some o ∧ o.omrClue = []
  named : c.1 = some i ∨ c.1 = none ∧ ∀ j < i, ∀ o, outputs[j]? = some o → o.omrClue ≠ []

section Hint

variable {outputs outputs' : List CompactOutput} {c : Option ℕ × Bytes} {i : ℕ}

/-- A clue goes into an output that has none. -/
theorem fillClueAt_of_empty {o : CompactOutput} {clue : Bytes} (ho : outputs[i]? = some o)
    (hempty : o.omrClue = []) :
    fillClueAt i clue outputs = outputs.modify i fun o => { o with omrClue := clue } := by
  unfold fillClueAt
  apply List.ext_getElem?
  intro j
  rw [List.getElem?_modify, List.getElem?_modify]
  by_cases hij : i = j
  · subst hij
    simp [ho, hempty]
  · simp [hij]

/-- An output that has a clue keeps it. -/
theorem fillClueAt_of_filled {clue : Bytes} (h : ∀ o, outputs[i]? = some o → o.omrClue ≠ []) :
    fillClueAt i clue outputs = outputs := by
  unfold fillClueAt
  apply List.ext_getElem?
  intro j
  rw [List.getElem?_modify]
  cases ho : outputs[j]? with
  | none => rfl
  | some o =>
    by_cases hij : i = j
    · subst hij
      simp [h o ho]
    · simp [hij]

/-- What a hint does: nothing when it is settled, else its clue goes where it lands. -/
theorem mergeClue_cases (outputs : List CompactOutput) (c : Option ℕ × Bytes) :
    Settled outputs c ∧ mergeClue outputs c = outputs ∨
      ∃ i, LandsOn outputs c i ∧
        mergeClue outputs c = outputs.modify i fun o => { o with omrClue := c.2 } := by
  obtain ⟨idx, clue⟩ := c
  unfold mergeClue
  by_cases hskip : (clue.isEmpty || outputs.any fun o => o.omrClue == clue) = true
  · left
    simp only [hskip, if_true, and_true]
    simp only [Bool.or_eq_true, List.isEmpty_iff, List.any_eq_true, beq_iff_eq] at hskip
    exact hskip.imp_right Or.inl
  · simp only [hskip, Bool.false_eq_true, if_false]
    simp only [Bool.or_eq_true, List.isEmpty_iff, List.any_eq_true, beq_iff_eq, not_or,
      not_exists, not_and] at hskip
    obtain ⟨hclue, hother⟩ := hskip
    cases idx with
    | some i =>
      by_cases hempty : ∃ o, outputs[i]? = some o ∧ o.omrClue = []
      · right
        obtain ⟨o, ho, hnil⟩ := hempty
        exact ⟨i, ⟨hclue, hother, ⟨o, ho, hnil⟩, Or.inl rfl⟩, fillClueAt_of_empty ho hnil⟩
      · left
        have hfilled : ∀ o, outputs[i]? = some o → o.omrClue ≠ [] :=
          fun o ho hnil => hempty ⟨o, ho, hnil⟩
        exact ⟨Or.inr (Or.inr hfilled), fillClueAt_of_filled hfilled⟩
    | none =>
      set i := outputs.findIdx fun o => o.omrClue.isEmpty with hi
      have hbefore : ∀ j < i, ∀ o, outputs[j]? = some o → o.omrClue ≠ [] := by
        intro j hj o ho hnil
        obtain ⟨hlt, heq⟩ := List.getElem?_eq_some_iff.mp ho
        have := List.not_of_lt_findIdx (hi ▸ hj)
        rw [heq, hnil] at this
        cases this
      by_cases hlt : i < outputs.length
      · right
        have hfound := List.findIdx_getElem (w := hi ▸ hlt)
        have hnil : outputs[i].omrClue = [] := List.isEmpty_iff.mp hfound
        have ho : outputs[i]? = some outputs[i] := List.getElem?_eq_getElem hlt
        exact ⟨i, ⟨hclue, hother, ⟨_, ho, hnil⟩, Or.inr ⟨rfl, hbefore⟩⟩,
          fillClueAt_of_empty ho hnil⟩
      · left
        have hall : ∀ o ∈ outputs, o.omrClue ≠ [] := by
          intro o ho
          obtain ⟨j, hj⟩ := List.mem_iff_getElem?.mp ho
          obtain ⟨hjlt, -⟩ := List.getElem?_eq_some_iff.mp hj
          exact hbefore j (by omega) o hj
        exact ⟨Or.inr (Or.inr hall), fillClueAt_of_filled fun o ho =>
          hall o (List.mem_of_getElem? ho)⟩

/-- A clue that is settled changes nothing. -/
theorem Settled.mergeClue (h : Settled outputs c) : mergeClue outputs c = outputs := by
  obtain ⟨-, heq⟩ | ⟨i, hland, -⟩ := mergeClue_cases outputs c
  · exact heq
  · obtain ⟨o, ho, hnil⟩ := hland.empty
    rcases h with hclue | ⟨o', ho', heq⟩ | htarget
    · exact absurd hclue hland.clue
    · exact absurd heq (hland.other o' ho')
    · rcases hland.named with hnamed | ⟨hnamed, -⟩
      · rw [hnamed] at htarget
        exact absurd hnil (htarget o ho)
      · rw [hnamed] at htarget
        exact absurd hnil (htarget o (List.mem_of_getElem? ho))

/-- A settled hint stays settled when more fields are filled. -/
theorem Settled.mono (h : Settled outputs c) (hfill : FilledIn outputs outputs') :
    Settled outputs' c := by
  have hback : ∀ (i : ℕ) o', outputs'[i]? = some o' →
      ∃ o, outputs[i]? = some o ∧ o.FilledBy o' := by
    intro i o' ho'
    have hlt : i < outputs.length := hfill.length ▸ (List.getElem?_eq_some_iff.mp ho').1
    obtain ⟨o'', ho'', hby⟩ := hfill.output i _ (List.getElem?_eq_getElem hlt)
    rw [ho'] at ho''
    cases ho''
    exact ⟨_, List.getElem?_eq_getElem hlt, hby⟩
  have hkept : ∀ o o' : CompactOutput, o.FilledBy o' → o.omrClue ≠ [] → o'.omrClue ≠ [] := by
    intro o o' hby hne
    rwa [hby.omrClue hne]
  by_cases hclue : c.2 = []
  · exact Or.inl hclue
  rcases h with hnil | ⟨o, ho, heq⟩ | htarget
  · exact Or.inl hnil
  · obtain ⟨i, hi⟩ := List.mem_iff_getElem?.mp ho
    obtain ⟨o', ho', hby⟩ := hfill.output i o hi
    refine Or.inr (Or.inl ⟨o', List.mem_of_getElem? ho', ?_⟩)
    rw [hby.omrClue (by rwa [heq]), heq]
  · refine Or.inr (Or.inr ?_)
    cases hidx : c.1 with
    | some idx =>
      rw [hidx] at htarget
      intro o' ho'
      obtain ⟨o, ho, hby⟩ := hback idx o' ho'
      exact hkept o o' hby (htarget o ho)
    | none =>
      rw [hidx] at htarget
      intro o' ho'
      obtain ⟨i, hi⟩ := List.mem_iff_getElem?.mp ho'
      obtain ⟨o, ho, hby⟩ := hback i o' hi
      exact hkept o o' hby (htarget o (List.mem_of_getElem? ho))

/-- A clue that lands on an output fills it. -/
theorem LandsOn.filledIn (h : LandsOn outputs c i) :
    FilledIn outputs (outputs.modify i fun o => { o with omrClue := c.2 }) := by
  obtain ⟨o, ho, hnil⟩ := h.empty
  refine ⟨List.length_modify .., fun j o' ho' => ?_⟩
  rw [List.getElem?_modify, ho']
  by_cases hij : i = j
  · subst hij
    rw [ho] at ho'
    cases ho'
    exact ⟨{ o with omrClue := c.2 }, by simp, rfl, fun hne => absurd hnil hne, fun _ => rfl⟩
  · exact ⟨o', by simp [hij], .refl o'⟩

/-- Merging a clue fills an output or nothing. -/
theorem filledIn_mergeClue (outputs : List CompactOutput) (c : Option ℕ × Bytes) :
    FilledIn outputs (mergeClue outputs c) := by
  obtain ⟨-, heq⟩ | ⟨i, hland, heq⟩ := mergeClue_cases outputs c
  · rw [heq]
    exact .refl _
  · rw [heq]
    exact hland.filledIn

/-- A hint is settled once it was merged. -/
theorem settled_mergeClue (outputs : List CompactOutput) (c : Option ℕ × Bytes) :
    Settled (mergeClue outputs c) c := by
  obtain ⟨hsettled, heq⟩ | ⟨i, hland, heq⟩ := mergeClue_cases outputs c
  · rw [heq]
    exact hsettled
  · obtain ⟨o, ho, -⟩ := hland.empty
    refine Or.inr (Or.inl ⟨{ o with omrClue := c.2 }, ?_, rfl⟩)
    rw [heq]
    apply List.mem_of_getElem? (i := i)
    rw [List.getElem?_modify, ho]
    simp

/-- Hints settle. -/
theorem settles_mergeClue : Settles mergeClue FilledIn where
  refl := FilledIn.refl
  trans _ _ _ := FilledIn.trans
  growing := filledIn_mergeClue
  settled outputs c _ hfill := ((settled_mergeClue outputs c).mono hfill).mergeClue

end Hint

/-! ## All hints of a transaction -/

/-- Output `i` is the only one with the clue. -/
def OnlyOn (outputs : List CompactOutput) (clue : Bytes) (i : ℕ) : Prop :=
  (∃ o, outputs[i]? = some o ∧ o.omrClue = clue) ∧
    ∀ (j : ℕ) (o : CompactOutput), outputs[j]? = some o → o.omrClue = clue → j = i

/-- One of the hints put `clue` on output `i`: it landed there after the hints before it. -/
def PutBy (clues : List (Option ℕ × Bytes)) (outputs : List CompactOutput) (i : ℕ)
    (clue : Bytes) : Prop :=
  ∃ before idx after, clues = before ++ (idx, clue) :: after ∧
    LandsOn (before.foldl mergeClue outputs) (idx, clue) i

section Hints

variable {outputs : List CompactOutput} {c : Option ℕ × Bytes} {i : ℕ} {clue : Bytes}

/-- A clue that is on one output gets on no other. -/
theorem OnlyOn.mergeClue (h : OnlyOn outputs clue i) (hclue : clue ≠ []) :
    OnlyOn (mergeClue outputs c) clue i := by
  obtain ⟨⟨o, ho, hoclue⟩, honly⟩ := h
  obtain ⟨o', ho', hby⟩ := (filledIn_mergeClue outputs c).output i o ho
  refine ⟨⟨o', ho', (hby.omrClue (by rwa [hoclue])).trans hoclue⟩, fun j o₁ ho₁ heq₁ => ?_⟩
  obtain ⟨-, heq⟩ | ⟨k, hland, heq⟩ := mergeClue_cases outputs c
  · rw [heq] at ho₁
    exact honly j o₁ ho₁ heq₁
  · -- a hint that lands has another clue
    have hne : c.2 ≠ clue := fun hsame =>
      hland.other o (List.mem_of_getElem? ho) (hoclue.trans hsame.symm)
    rw [heq, List.getElem?_modify] at ho₁
    obtain ⟨o₀, ho₀, rfl⟩ := Option.map_eq_some_iff.mp ho₁
    by_cases hkj : k = j
    · simp only [hkj, if_true] at heq₁
      exact absurd heq₁ hne
    · simp only [hkj, if_false] at heq₁
      exact honly j o₀ ho₀ heq₁

/-- What a clue is alone on stays so as other clues are merged. -/
theorem OnlyOn.foldl_mergeClue (h : OnlyOn outputs clue i) (hclue : clue ≠ [])
    (clues : List (Option ℕ × Bytes)) : OnlyOn (clues.foldl LightWalletd.mergeClue outputs) clue i := by
  induction clues generalizing outputs with
  | nil => exact h
  | cons c clues ih =>
    rw [List.foldl_cons]
    exact ih (h.mergeClue hclue)

/-- A hint that lands leaves its clue there and nowhere else. -/
theorem LandsOn.onlyOn (h : LandsOn outputs c i) :
    OnlyOn (outputs.modify i fun o => { o with omrClue := c.2 }) c.2 i := by
  obtain ⟨o, ho, -⟩ := h.empty
  refine ⟨⟨{ o with omrClue := c.2 }, by simp [ho], rfl⟩, fun j o₁ ho₁ heq₁ => ?_⟩
  rw [List.getElem?_modify] at ho₁
  obtain ⟨o₀, ho₀, rfl⟩ := Option.map_eq_some_iff.mp ho₁
  by_contra hne
  have hij : i ≠ j := fun heq => hne heq.symm
  simp only [hij, if_false] at heq₁
  exact h.other o₀ (List.mem_of_getElem? ho₀) heq₁

/-- Where the hints change a clue, one of them put it there, and it is nowhere else. -/
theorem foldl_mergeClue_changed (clues : List (Option ℕ × Bytes)) {o o' : CompactOutput}
    (ho : outputs[i]? = some o) (ho' : (clues.foldl mergeClue outputs)[i]? = some o')
    (hne : o'.omrClue ≠ o.omrClue) :
    PutBy clues outputs i o'.omrClue ∧ OnlyOn (clues.foldl mergeClue outputs) o'.omrClue i := by
  induction clues generalizing outputs o with
  | nil =>
    rw [List.foldl_nil, ho] at ho'
    cases ho'
    exact absurd rfl hne
  | cons c clues ih =>
    rw [List.foldl_cons] at ho' ⊢
    obtain ⟨o₁, ho₁, hby⟩ := (filledIn_mergeClue outputs c).output i o ho
    by_cases hsame : o₁.omrClue = o.omrClue
    · -- this hint leaves output `i` alone
      obtain ⟨⟨before, idx, after, hsplit, hland⟩, honly⟩ := ih ho₁ ho' (by rwa [hsame])
      exact ⟨⟨c :: before, idx, after, by rw [hsplit]; rfl, hland⟩, honly⟩
    · obtain ⟨-, heq⟩ | ⟨k, hland, heq⟩ := mergeClue_cases outputs c
      · rw [heq, ho] at ho₁
        cases ho₁
        exact absurd rfl hsame
      · have hki : k = i := by
          by_contra hki
          rw [heq, List.getElem?_modify, ho] at ho₁
          simp only [if_neg hki] at ho₁
          cases ho₁
          exact hsame rfl
        subst hki
        have honly := hland.onlyOn.foldl_mergeClue hland.clue clues
        obtain ⟨o₂, ho₂, hclue⟩ := honly.1
        rw [heq, ho₂] at ho'
        cases ho'
        rw [heq, hclue]
        exact ⟨⟨[], c.1, clues, rfl, hland⟩, honly⟩

end Hints

/-! ## The merge -/

/-- What a merge makes of a transaction with these hints: clue fields that were empty are filled,
each clue by one of the hints, and on one output only. -/
def CompactTx.MergedFrom (clues : List (Option ℕ × Bytes)) (tx tx' : CompactTx) : Prop :=
  tx' = { tx with outputs := tx'.outputs } ∧ FilledIn tx.outputs tx'.outputs ∧
    ∀ (i : ℕ) (o o' : CompactOutput), tx.outputs[i]? = some o → tx'.outputs[i]? = some o' →
      o'.omrClue ≠ o.omrClue → PutBy clues tx.outputs i o'.omrClue ∧
        OnlyOn tx'.outputs o'.omrClue i

section Merge

variable {hints : Bytes32 → HintRow} {metadata : Bytes32 → Option Bytes} {txs : List CompactTx}

/-- The clue of an output after its metadata was merged. -/
theorem getElem?_withMetadata {row : Option Bytes} {tx : CompactTx} {i : ℕ} {o : CompactOutput}
    (ho : (tx.withMetadata row).outputs[i]? = some o) :
    ∃ o₀, tx.outputs[i]? = some o₀ ∧ o₀.omrClue = o.omrClue := by
  have hmap := congrArg (·[i]?) (map_clue_withMetadata row tx)
  simp only [List.getElem?_map, ho] at hmap
  exact Option.map_eq_some_iff.mp hmap.symm

/-- A transaction merged with its row has clues of that row only. -/
theorem mergedFrom_withClues (row : HintRow) (metadataRow : Option Bytes) (tx : CompactTx) :
    tx.MergedFrom row.clues ((tx.withClues row).withMetadata metadataRow) := by
  set outputs := row.clues.foldl mergeClue tx.outputs with houtputs
  have hclues : FilledIn tx.outputs outputs := settles_mergeClue.foldl_grows row.clues tx.outputs
  refine ⟨?_, hclues.trans (filledIn_withMetadata metadataRow (tx.withClues row)),
    fun i o o' ho ho' hne => ?_⟩
  · cases metadataRow <;> rfl
  · obtain ⟨o₁, ho₁, hclue⟩ := getElem?_withMetadata ho'
    rw [← hclue] at hne ⊢
    obtain ⟨hput, ⟨-, honly⟩⟩ := foldl_mergeClue_changed row.clues ho ho₁ hne
    refine ⟨hput, ⟨o', ho', hclue.symm⟩, fun j o₂ ho₂ heq => ?_⟩
    obtain ⟨o₃, ho₃, hclue₃⟩ := getElem?_withMetadata ho₂
    exact honly j o₃ ho₃ (hclue₃.trans heq)

/-- Every transaction of a block with the one it is merged to. -/
theorem forall₂_mergedTxs (hints : Bytes32 → HintRow) (metadata : Bytes32 → Option Bytes)
    (txs : List CompactTx) :
    List.Forall₂ (fun tx tx' => ∃ row, tx' = (tx.withClues (hints tx.txHash)).withMetadata row)
      txs (mergedTxs hints metadata txs) := by
  induction txs generalizing metadata with
  | nil => exact .nil
  | cons tx txs ih => exact .cons ⟨metadata tx.txHash, rfl⟩ (ih _)

/-- Clues that were merged already, or some of them, change nothing. -/
theorem withClues_mergedTx {row row' : HintRow} (hsub : row'.clues ⊆ row.clues)
    (metadataRow : Option Bytes) (tx : CompactTx) :
    ((tx.withClues row).withMetadata metadataRow).withClues row' =
      (tx.withClues row).withMetadata metadataRow := by
  have hsettled : row'.clues.foldl mergeClue ((tx.withClues row).withMetadata metadataRow).outputs =
      ((tx.withClues row).withMetadata metadataRow).outputs :=
    settles_mergeClue.foldl_foldl hsub (filledIn_withMetadata metadataRow (tx.withClues row))
  unfold CompactTx.withClues at hsettled ⊢
  rw [hsettled]

/-- The clues that are still alive are among the clues of the row. -/
theorem HintRow.live_clues_subset (now : ℕ) (row : HintRow) : (row.live now).clues ⊆ row.clues := by
  by_cases hfresh : row.Fresh now
  · rw [hfresh.live]
    exact List.Subset.refl _
  · rw [live_of_not_fresh hfresh]
    exact List.nil_subset _

/-- The clues that a merge leaves to its transactions are among those it merged. -/
theorem SameMerges.clues_subset_live {now : ℕ} {s s' : Cache} (h : SameMerges now s s')
    {txHash : Bytes32} (hfresh : (s'.hintRow txHash).Fresh now) :
    (s'.hintRow txHash).clues ⊆ ((s.hintRow txHash).live now).clues := by
  rcases h txHash with hkept | ⟨hnone, -⟩
  · rw [hkept] at hfresh ⊢
    rw [hfresh.live]
    exact List.Subset.refl _
  · rw [hnone]
    exact List.nil_subset _

/-- A merge only fills empty clue fields, each clue comes from a hint of its transaction and is on
one output, and a second merge, at any time, changes nothing. -/
theorem apply_omr_clue_hints_idempotent (now : ℕ) (block : CompactBlock) (s : Cache) :
    ∃ txs s', (applyOmrClueHints now block).run s = (.ok { block with txs := txs }, s') ∧
      List.Forall₂ (fun tx tx' => tx.MergedFrom (s.hintRow tx.txHash).clues tx') block.txs txs ∧
      ∀ later, ((applyOmrClueHints later { block with txs := txs }).run s').1 =
        .ok { block with txs := txs } := by
  obtain ⟨s', hrun, hsame, hmeta, hfresh⟩ := applyOmrClueHints_run_eq now block s
  set txs := mergedTxs (s.liveRow now) s.metadataRow block.txs with htxs
  have hpairs := forall₂_mergedTxs (s.liveRow now) s.metadataRow block.txs
  have hmerged : ∀ tx tx' : CompactTx,
      (∃ row, tx' = (tx.withClues (s.liveRow now tx.txHash)).withMetadata row) →
      tx.MergedFrom (s.hintRow tx.txHash).clues tx' := by
    rintro tx tx' ⟨row, rfl⟩
    by_cases hlive : (s.hintRow tx.txHash).Fresh now
    · rw [Cache.liveRow, hlive.live]
      exact mergedFrom_withClues _ row tx
    · -- the hints have expired, and nothing is written
      rw [Cache.liveRow, HintRow.live_of_not_fresh hlive]
      obtain ⟨hfields, hfill, hput⟩ := mergedFrom_withClues (none, none) row tx
      refine ⟨hfields, hfill, fun i o o' ho ho' hne => ?_⟩
      obtain ⟨⟨before, idx, after, hsplit, -⟩, -⟩ := hput i o o' ho ho' hne
      cases before <;> cases hsplit
  refine ⟨txs, s', hrun, hpairs.imp hmerged, fun later => ?_⟩
  obtain ⟨s'', hrun', -⟩ := applyOmrClueHints_run_eq later { block with txs := txs } s'
  have hused : ∀ tx' ∈ txs, s'.metadataRow tx'.txHash = none := by
    intro tx' htx'
    have hhash : tx'.txHash ∈ txs.map CompactTx.txHash := List.mem_map_of_mem htx'
    rw [htxs, map_txHash_mergedTxs] at hhash
    rw [hmeta, if_pos hhash]
  have hidle : ∀ tx' ∈ txs, tx'.withClues (s'.liveRow later tx'.txHash) = tx' := by
    intro tx' htx'
    obtain ⟨tx, htx, row, rfl⟩ := mem_mergedTxs (htxs ▸ htx')
    rw [txHash_withMetadata]
    apply withClues_mergedTx
    have hlater := HintRow.live_clues_subset later (s'.hintRow tx.txHash)
    exact List.Subset.trans hlater (hsame.clues_subset_live (hfresh tx htx))
  rw [hrun']
  show Except.ok { block with txs := mergedTxs (s'.liveRow later) s'.metadataRow txs } = _
  rw [mergedTxs_of_none hused, List.map_congr_left hidle, List.map_id']

end Merge

end LightWalletd
