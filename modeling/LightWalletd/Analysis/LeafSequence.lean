import LightWalletd.Model.TipTree

/-!
# Leaf sequences

A Money tree is right for a height when its leaves are the sentinel followed by the
coins of all heights up to that one. Here a coin assignment is a function from
heights to lists of coins, `coinsBelow` concatenates it over the heights below a
bound, and `treeTo` is the tree with exactly those leaves. The pure parts of the
rebuild (`appendCoins`, `replayUpTo`) are computed on such trees.
-/

set_option autoImplicit false

namespace LightWalletd

open Stateful

/-- Every coin is the representation of a field element. -/
def Canonical (cs : List Bytes32) : Prop := ∀ coin ∈ cs, leValue coin.1 < pallasModulus

/-- The coins of the heights below `n`, in ascending height. -/
def coinsBelow (c : ℕ → List Bytes32) (n : ℕ) : List Bytes32 := (List.range n).flatMap c

/-- There are no coins below 0. -/
@[simp] theorem coinsBelow_zero (c : ℕ → List Bytes32) : coinsBelow c 0 = [] := rfl

/-- The coins below the next height. -/
theorem coinsBelow_succ (c : ℕ → List Bytes32) (n : ℕ) :
    coinsBelow c (n + 1) = coinsBelow c n ++ c n := by
  unfold coinsBelow
  rw [List.range_succ, List.flatMap_append]
  simp

/-- The coins below `n` and those of the interval from `n` to `b`. -/
theorem coinsBelow_append_range' (c : ℕ → List Bytes32) (n k : ℕ) :
    coinsBelow c n ++ (List.range' n k).flatMap c = coinsBelow c (n + k) := by
  unfold coinsBelow
  rw [← List.flatMap_append, List.range_eq_range', List.range_eq_range']
  congr 1
  simpa using List.range'_append_1 (s := 0) (m := n) (n := k)

/-- Only the heights below the bound count. -/
theorem coinsBelow_congr {c d : ℕ → List Bytes32} {n : ℕ} (h : ∀ k < n, c k = d k) :
    coinsBelow c n = coinsBelow d n :=
  List.flatMap_congr fun k hk => h k (List.mem_range.mp hk)

/-- Leaving out the coins of some heights shows, unless there were none. -/
theorem eq_of_coinsBelow_eq {c d : ℕ → List Bytes32} {n : ℕ} (h : ∀ k < n, c k = d k ∨ c k = [])
    (heq : coinsBelow c n = coinsBelow d n) : ∀ k < n, c k = d k := by
  have hle : ∀ m ≤ n, (coinsBelow c m).length ≤ (coinsBelow d m).length := by
    intro m hm
    induction m with
    | zero => exact le_rfl
    | succ m ih =>
      rw [coinsBelow_succ, coinsBelow_succ, List.length_append, List.length_append]
      have hlow := ih (by omega)
      rcases h m (by omega) with hm | hm
      · rw [hm]
        omega
      · rw [hm]
        exact hlow.trans (Nat.le_add_right _ _)
  induction n with
  | zero => exact fun k hk => absurd hk (Nat.not_lt_zero k)
  | succ n ih =>
    -- the lengths leave no room for a difference at the top
    rw [coinsBelow_succ, coinsBelow_succ] at heq
    have hlength := congrArg List.length heq
    rw [List.length_append, List.length_append] at hlength
    have hlow := hle n (Nat.le_succ n)
    have htop : c n = d n := by
      rcases h n (Nat.lt_succ_self n) with hn | hn
      · exact hn
      · rw [hn, List.length_nil] at hlength
        rw [hn]
        exact (List.length_eq_zero_iff.mp (by omega)).symm
    rw [htop] at heq
    have hbelow := List.append_cancel_right heq
    intro k hk
    by_cases hkn : k = n
    · rw [hkn, htop]
    · exact ih (fun k hk => h k (by omega)) hbelow (fun m hm => hle m (by omega)) k (by omega)

/-- Heights without coins do not count. -/
theorem coinsBelow_eq_of_le {c : ℕ → List Bytes32} {m n : ℕ} (hmn : m ≤ n)
    (h : ∀ k, m ≤ k → k < n → c k = []) : coinsBelow c n = coinsBelow c m := by
  induction n, hmn using Nat.le_induction with
  | base => rfl
  | succ n hmn ih =>
    rw [coinsBelow_succ, h n hmn (Nat.lt_succ_self n), List.append_nil]
    exact ih fun k hk hkn => h k hk (by omega)

/-- The coins below a height are canonical if each height's are. -/
theorem canonical_coinsBelow {c : ℕ → List Bytes32} {n : ℕ} (h : ∀ k < n, Canonical (c k)) :
    Canonical (coinsBelow c n) := by
  intro coin hcoin
  obtain ⟨k, hk, hmem⟩ := List.mem_flatMap.mp hcoin
  exact h k (List.mem_range.mp hk) coin hmem

/-! ## Trees with given leaves -/

/-- The tree with the sentinel and the given coins as leaves. -/
def tipTreeOf (cs : List Bytes32) : MerkleTree := ⟨Base.zero :: cs.filterMap Base.fromBytes⟩

/-- The tree of all coins up to height `h`. -/
def treeTo (c : ℕ → List Bytes32) (h : ℕ) : MerkleTree := tipTreeOf (coinsBelow c (h + 1))

/-- Without coins the tree is the empty one. -/
theorem tipTreeOf_nil : tipTreeOf [] = emptyTipTree := rfl

/-- The tree depends on the coins up to its height only. -/
theorem treeTo_congr {c d : ℕ → List Bytes32} {h : ℕ} (hcd : ∀ k ≤ h, c k = d k) :
    treeTo c h = treeTo d h := by
  unfold treeTo
  rw [coinsBelow_congr fun k hk => hcd k (by omega)]

/-- A canonical coin is its own node. -/
theorem coinToMerkleNode_of_canonical {coin : Bytes32} (h : leValue coin.1 < pallasModulus) :
    coinToMerkleNode coin = .ok ⟨coin, h⟩ := by
  unfold coinToMerkleNode Base.fromBytes
  rw [dif_pos h]

/-- The leaves read back as the bytes they were made from. -/
theorem leafBytes_tipTreeOf {cs : List Bytes32} (h : Canonical cs) :
    (tipTreeOf cs).leafBytes = Base.zero.repr :: cs := by
  unfold tipTreeOf MerkleTree.leafBytes
  rw [List.map_cons]
  congr 1
  induction cs with
  | nil => rfl
  | cons coin cs ih =>
    have hcoin : leValue coin.1 < pallasModulus := h coin (List.mem_cons_self ..)
    have hf : Base.fromBytes coin = some ⟨coin, hcoin⟩ := dif_pos hcoin
    rw [List.filterMap_cons_some hf, List.map_cons, ih fun x hx => h x (List.mem_cons_of_mem _ hx)]

/-- The leaves are the zero leaf and the coins. -/
theorem leafBytes_treeTo {c : ℕ → List Bytes32} {h : ℕ} (hc : ∀ k ≤ h, Canonical (c k)) :
    (treeTo c h).leafBytes = Base.zero.repr :: coinsBelow c (h + 1) :=
  leafBytes_tipTreeOf (canonical_coinsBelow fun k hk => hc k (by omega))

/-- A tree is determined by the bytes of its leaves. -/
theorem leafBytes_injective : Function.Injective MerkleTree.leafBytes := by
  have hrepr : Function.Injective Base.repr := by
    rintro ⟨a, ha⟩ ⟨b, hb⟩ h
    cases h
    rfl
  rintro ⟨l⟩ ⟨l'⟩ h
  exact congrArg MerkleTree.mk (List.map_injective_iff.mpr hrepr h)

/-! ## Appending -/

/-- Appending nodes one by one extends the leaves. -/
theorem foldl_append_leaves (nodes : List Base) (t : MerkleTree) :
    nodes.foldl MerkleTree.append t = ⟨t.leaves ++ nodes⟩ := by
  induction nodes generalizing t with
  | nil => simp
  | cons node nodes ih =>
    rw [List.foldl_cons, ih]
    simp [MerkleTree.append]

/-- Canonical coins all become nodes. -/
theorem mapM_coinToMerkleNode {cs : List Bytes32} (h : Canonical cs) :
    cs.mapM coinToMerkleNode = .ok (cs.filterMap Base.fromBytes) := by
  induction cs with
  | nil => rfl
  | cons coin cs ih =>
    have hcoin : leValue coin.1 < pallasModulus := h coin (List.mem_cons_self ..)
    have hf : Base.fromBytes coin = some ⟨coin, hcoin⟩ := dif_pos hcoin
    rw [List.mapM_cons, ih fun x hx => h x (List.mem_cons_of_mem _ hx),
      coinToMerkleNode_of_canonical hcoin, List.filterMap_cons_some hf]
    rfl

/-- Appending the nodes of canonical coins to a tree with given leaves. -/
theorem foldl_append_tipTreeOf (cs ds : List Bytes32) :
    (ds.filterMap Base.fromBytes).foldl MerkleTree.append (tipTreeOf cs) = tipTreeOf (cs ++ ds) := by
  rw [foldl_append_leaves]
  simp [tipTreeOf]

/-- Appending coins one by one. -/
theorem appendCoins_cons (coin : Bytes32) (cs : List Bytes32) (t : MerkleTree) :
    appendCoins (coin :: cs) t =
      (coinToMerkleNode coin).bind fun node => appendCoins cs (t.append node) := by
  unfold appendCoins
  rw [List.foldlM_cons]
  cases coinToMerkleNode coin <;> rfl

/-- Appending two lists of coins. -/
theorem appendCoins_append (cs ds : List Bytes32) (t : MerkleTree) :
    appendCoins (cs ++ ds) t = (appendCoins cs t).bind (appendCoins ds) := by
  unfold appendCoins
  rw [List.foldlM_append]
  rfl

/-- Appending canonical coins succeeds and extends the leaves by them. -/
theorem appendCoins_tipTreeOf (cs : List Bytes32) {ds : List Bytes32} (h : Canonical ds) :
    appendCoins ds (tipTreeOf cs) = .ok (tipTreeOf (cs ++ ds)) := by
  induction ds generalizing cs with
  | nil => simp [appendCoins, pure, Except.pure]
  | cons coin ds ih =>
    have hcoin : leValue coin.1 < pallasModulus := h coin (List.mem_cons_self ..)
    have hf : Base.fromBytes coin = some ⟨coin, hcoin⟩ := dif_pos hcoin
    have hstep : (tipTreeOf cs).append ⟨coin, hcoin⟩ = tipTreeOf (cs ++ [coin]) := by
      simp [tipTreeOf, MerkleTree.append, hf]
    rw [appendCoins_cons, coinToMerkleNode_of_canonical hcoin]
    show appendCoins ds ((tipTreeOf cs).append ⟨coin, hcoin⟩) = _
    rw [hstep, ih (cs ++ [coin]) fun x hx => h x (List.mem_cons_of_mem _ hx)]
    simp

/-! ## Replaying coin rows -/

/-- On rows in ascending height the replay appends the coins of the rows at or below
the boundary and returns the others. -/
theorem replayUpTo_eq (b : ℕ) (rows : List (ℕ × List Bytes32)) (tree : MerkleTree)
    (h : rows.Pairwise fun x y => x.1 < y.1) :
    replayUpTo b rows tree =
      (appendCoins ((rows.filter fun r => decide (r.1 ≤ b)).flatMap Prod.snd) tree).map
        fun t => (rows.filter fun r => decide (b < r.1), t) := by
  induction rows generalizing tree with
  | nil => rfl
  | cons r rows ih =>
    obtain ⟨k, cs⟩ := r
    have htail := List.pairwise_cons.mp h
    by_cases hk : k ≤ b
    · have hle : (((k, cs) :: rows).filter fun r => decide (r.1 ≤ b)) =
          (k, cs) :: rows.filter fun r => decide (r.1 ≤ b) :=
        List.filter_cons_of_pos (by simpa using hk)
      have hgt : (((k, cs) :: rows).filter fun r => decide (b < r.1)) =
          rows.filter fun r => decide (b < r.1) :=
        List.filter_cons_of_neg (by simpa using hk)
      unfold replayUpTo
      rw [if_pos hk, hle, hgt, List.flatMap_cons, appendCoins_append]
      show (appendCoins cs tree).bind (replayUpTo b rows) = _
      cases appendCoins cs tree with
      | error e => rfl
      | ok t => exact ih t htail.2
    · have hlater : ∀ q ∈ (k, cs) :: rows, b < q.1 := by
        intro q hq
        rcases List.mem_cons.mp hq with rfl | hq
        · show b < k
          omega
        · have : k < q.1 := htail.1 q hq
          omega
      have hnone : (((k, cs) :: rows).filter fun r => decide (r.1 ≤ b)) = [] := by
        apply List.filter_eq_nil_iff.mpr
        intro q hq
        have := hlater q hq
        simp only [decide_eq_true_eq]
        omega
      have hall : (((k, cs) :: rows).filter fun r => decide (b < r.1)) = (k, cs) :: rows := by
        apply List.filter_eq_self.mpr
        intro q hq
        simpa using hlater q hq
      unfold replayUpTo
      rw [if_neg hk, hnone, hall]
      rfl

end LightWalletd
