import LightWalletd.Computation.Interleaving
import LightWalletd.Analysis.Frame

/-!
# The writes of the Money tree

What the functions of the Money tree write, command by command. A rebuild from right
snapshots deletes and inserts right snapshots only, until it stores its tree: first the
tree under its key, then the height, then the snapshot row. The rules are over a property `I`
that snapshot writes keep and a relation `G` between neighbouring states that the final
store satisfies.
-/

set_option autoImplicit false

namespace LightWalletd

open Stateful

/-- Store the tree of `c` at `height` and take it for the tree in memory. -/
def storeTree (c : ℕ → List Bytes32) (prev : Option ℕ) (height : ℕ) : CacheM Unit :=
  (storeTipTree prev height (treeTo c height)).bind fun _ =>
    Prog.update fun s => { s with tipTree := ⟨some height, treeTo c height, false⟩ }

section Rebuild

variable {I : Cache → Prop} {G : Cache → Cache → Prop} {c : ℕ → List Bytes32} {tip : ℕ} {s : Cache}
  (hinsert : ∀ k ≤ tip, (merkleSnapshots.insert k (.value (treeTo c k))).Keeps I)
  (hremove : ∀ k, (merkleSnapshots.remove k).Keeps I)

include hinsert in

/-- The boundary loop inserts right snapshots only. -/
theorem rebuildLoop_keeps_right {m : OrderedMap ℕ (List Bytes32)} (htip : tip ≤ u32Max)
    (hc : ∀ k ≤ tip, (m.get k).getD [] = c k) (hcan : ∀ k ≤ tip, Canonical (c k)) (fuel b p : ℕ)
    (hb : b ≤ tip) (hpb : p ≤ b + 1) :
    (rebuildLoop tip fuel b false (coinRowsFrom m p tip) (tipTreeOf (coinsBelow c p))).Keeps I := by
  induction fuel generalizing b p with
  | zero => exact Prog.keeps_ret _
  | succ fuel ih =>
    rw [rebuildLoop_round hc hcan hpb hb]
    refine Prog.Keeps.bind (Prog.Keeps.ite (hinsert b hb) (Prog.keeps_ret ())) fun _ => ?_
    by_cases hbt : b ≥ tip
    · rw [if_pos hbt]
      exact Prog.keeps_ret _
    · obtain ⟨hlt, hle, -⟩ := nextBoundary_spec (not_le.mp hbt) htip
      rw [if_neg hbt]
      exact ih (nextBoundary b tip) (b + 1) hle (by omega)

include hremove in

/-- Removing the snapshots of a list of heights. -/
theorem removeSnapshots_keeps_right (heights : List ℕ) : (removeSnapshots heights).Keeps I :=
  Prog.Keeps.forEach (fun h => (hremove h).bind fun _ => Prog.keeps_ret _) heights

include hremove in

/-- `delete_snapshots_above`. -/
theorem deleteSnapshotsAbove_keeps_right (height : ℕ) : (deleteSnapshotsAbove height).Keeps I := by
  refine Prog.Keeps.ite (Prog.keeps_ret ()) ?_
  exact (Prog.keeps_get _).bind fun _ => removeSnapshots_keeps_right hremove _

variable (hI : ∀ t t', I t → I t' → G t t')
  (hstore : ∀ prev t, I t → (storeTree c prev tip).Guarantees G t)

include hinsert hI hstore in

/-- A replay, from its seed to the store of the tree. -/
theorem replayFromSeed_guarantees (seed : Option ℕ) (hseed : ∀ h ∈ seed, h < tip)
    (htip : tip ≤ u32Max) (hc : CoinRows s.db c tip) (hcan : ∀ k ≤ tip, Canonical (c k)) (hs : I s) :
    (replayFromSeed tip seed (seed.elim emptyTipTree (treeTo c))).Guarantees G s := by
  have hmap := hc.coinMap_get
  -- what follows the read of the coin rows
  have htail : ∀ {ranges skipped b tree}, (∃ snaps, (rebuildLoop tip (tip + 1) b skipped ranges
      tree).run s = (.ok ([], treeTo c tip), s.setSnapshots snaps)) →
      (rebuildLoop tip (tip + 1) b skipped ranges tree).Keeps I →
      ((rebuildLoop tip (tip + 1) b skipped ranges tree).bind fun r =>
        (liftExcept (appendCoins (r.1.flatMap Prod.snd) r.2)).bind fun tree =>
          (storeTipTree seed tip tree).bind fun _ =>
            Prog.update fun s => { s with tipTree := ⟨some tip, tree, false⟩ }).Guarantees G s := by
    intro ranges skipped b tree ⟨snaps, hrun⟩ hkeeps
    exact (hkeeps.guarantees hs hI).bind hrun (hstore seed _ (hkeeps.run hs hrun))
  unfold replayFromSeed
  cases seed with
  | none =>
    obtain ⟨snaps, hrun, -⟩ := rebuildLoop_run (m := coinMap s.db) hmap hcan htip (tip + 1) 0 0 s
      (by omega) (Nat.zero_le tip) (by omega)
    have hkeeps := rebuildLoop_keeps_right hinsert (m := coinMap s.db) htip hmap hcan (tip + 1) 0 0
      (Nat.zero_le tip) (by omega)
    rw [coinsBelow_zero, tipTreeOf_nil] at hrun hkeeps
    simp only [Prog.bind_eq, Nat.not_lt_zero, gt_iff_lt, if_false, Option.getD_none,
      Option.isSome_none, Option.elim_none]
    refine Prog.Guarantees.bind ?_ (getCoinsRange_run (Nat.zero_le tip) hc)
      (htail ⟨snaps, hrun⟩ hkeeps)
    exact (getCoinsRange_keeps 0 tip).guarantees hs hI
  | some seed =>
    have hlt : seed < tip := hseed seed rfl
    obtain ⟨hnext, hle, -⟩ := nextBoundary_spec hlt htip
    have hfrom : saturatingAdd seed 1 = seed + 1 := by
      unfold saturatingAdd
      omega
    obtain ⟨snaps, hrun, -⟩ := rebuildLoop_run (m := coinMap s.db) hmap hcan htip tip
      (nextBoundary seed tip) (seed + 1) s (by omega) hle (by omega)
    have hkeeps := rebuildLoop_keeps_right hinsert (m := coinMap s.db) htip hmap hcan tip
      (nextBoundary seed tip) (seed + 1) hle (by omega)
    -- the round of the seed itself writes nothing
    have hskip : rebuildLoop tip (tip + 1) seed true (coinRowsFrom (coinMap s.db) (seed + 1) tip)
        (treeTo c seed) = rebuildLoop tip tip (nextBoundary seed tip) false
          (coinRowsFrom (coinMap s.db) (seed + 1) tip) (tipTreeOf (coinsBelow c (seed + 1))) := by
      rw [rebuildLoop]
      simp only [if_true, Prog.bind_eq, Prog.pure_eq, Prog.bind, if_neg (not_le.mpr hlt), ge_iff_le]
      rfl
    rw [← hskip] at hrun hkeeps
    simp only [Prog.bind_eq, hfrom, if_neg (show ¬ seed + 1 > tip by omega), Option.getD_some,
      Option.isSome_some, Option.elim_some]
    refine Prog.Guarantees.bind ?_ (getCoinsRange_run hlt hc) (htail ⟨snaps, hrun⟩ hkeeps)
    exact (getCoinsRange_keeps (seed + 1) tip).guarantees hs hI

include hinsert hremove hI hstore in

/-- A rebuild: snapshot writes, then the store of the tree. -/
theorem rebuildTipMerkleTree_guarantees (htip : tip ≤ u32Max)
    (hmax : tip = u32Max → ∀ k, (s.db.trees.merkleSnapshots.get k).isSome → k ≤ tip)
    (hgen : tip = 0 → ∃ block, s.db.blocks.compactBlocks.get 0 = some (.value block))
    (hc : CoinRows s.db c tip) (hcan : ∀ k ≤ tip, Canonical (c k))
    (hsnaps : RightSnapshots s.db.trees.merkleSnapshots c tip) (hs : I s) :
    (rebuildTipMerkleTree tip).Guarantees G s := by
  set kept := s.db.trees.merkleSnapshots.filter fun h => decide (h ≤ tip) with hkept
  have hlast : kept.lastUpTo tip = s.db.trees.merkleSnapshots.lastUpTo tip :=
    OrderedMap.lastUpTo_filter_le _ _
  have hdel := deleteSnapshotsAbove_run tip s hmax
  have hdelKeeps := deleteSnapshotsAbove_keeps_right hremove tip
  have hs' : I (s.setSnapshots kept) := hdelKeeps.run hs hdel
  have hseeded : ((seedSnapshot tip).bind (rebuildFrom tip)).Guarantees G
      (s.setSnapshots kept) := by
    cases hl : kept.lastUpTo tip with
    | none =>
      have hseed := seedSnapshot_run_of_none (s := s.setSnapshots kept) hl
      refine Prog.Guarantees.bind ((seedSnapshot_keeps tip).guarantees hs' hI) hseed ?_
      exact replayFromSeed_guarantees (s := s.setSnapshots kept) hinsert hI hstore none nofun htip hc
        hcan hs'
    | some r =>
      obtain ⟨h₀, row⟩ := r
      obtain ⟨hle, rfl⟩ := hsnaps.lastUpTo (hlast ▸ hl)
      have hseed := seedSnapshot_run_of_some (s := s.setSnapshots kept) hl
      refine Prog.Guarantees.bind ((seedSnapshot_keeps tip).guarantees hs' hI) hseed ?_
      simp only [rebuildFrom]
      by_cases hh : h₀ ≥ tip
      · have heq : h₀ = tip := by omega
        subst heq
        rw [if_pos hh]
        exact hstore (some h₀) _ hs'
      · rw [if_neg hh]
        exact replayFromSeed_guarantees (s := s.setSnapshots kept) hinsert hI hstore (some h₀)
          (fun h hmem => by cases hmem; omega) htip hc hcan hs'
  rw [rebuildTipMerkleTree_eq]
  by_cases h0 : tip = 0
  · obtain ⟨block, hblock⟩ := hgen h0
    have hcb := getCompactBlock_run_of_value hblock
    have hread := (getCompactBlock_keeps (I := I) 0).guarantees hs hI
    rw [if_pos h0]
    exact hread.bind hcb ((hdelKeeps.guarantees hs hI).bind hdel hseeded)
  · rw [if_neg h0]
    exact (hdelKeeps.guarantees hs hI).bind hdel hseeded

end Rebuild

end LightWalletd
