import Mathlib.Data.List.Chain

/-!
# Chains by hash

Elements that name the one before them by its hash. Where the hash of an element says which name it
gives, two chains that have one hash in common have the same hashes at all places below.
-/

set_option autoImplicit false

namespace HashChains

variable {α H : Type} (hash prev : α → H)

/-- Every element names the one before it. -/
def Linked (chain : List α) : Prop := chain.IsChain fun low high => prev high = hash low

variable {hash prev} {xs ys : List α}

/-- Neighbours on a linked chain, by their positions. -/
theorem Linked.getElem? (h : Linked hash prev xs) {k : ℕ} {low high : α} (hlow : xs[k]? = some low)
    (hhigh : xs[k + 1]? = some high) : prev high = hash low := by
  obtain ⟨hk, rfl⟩ := List.getElem?_eq_some_iff.mp hhigh
  obtain ⟨_, rfl⟩ := List.getElem?_eq_some_iff.mp hlow
  exact List.isChain_iff_getElem.mp h k hk

/-- Two chains that agree at a place agree below it. -/
theorem Linked.hash_below (hxs : Linked hash prev xs) (hys : Linked hash prev ys)
    (hnames : ∀ x ∈ xs, ∀ y ∈ ys, hash x = hash y → prev x = prev y) {a b : ℕ} (n : ℕ)
    (h : ∃ x y, xs[a + n]? = some x ∧ ys[b + n]? = some y ∧ hash x = hash y) :
    ∃ x y, xs[a]? = some x ∧ ys[b]? = some y ∧ hash x = hash y := by
  induction n with
  | zero => exact h
  | succ n ih =>
    obtain ⟨x, y, hx, hy, hhash⟩ := h
    obtain ⟨hxlt, -⟩ := List.getElem?_eq_some_iff.mp hx
    obtain ⟨hylt, -⟩ := List.getElem?_eq_some_iff.mp hy
    have hlowx := List.getElem?_eq_getElem (l := xs) (i := a + n) (by omega)
    have hlowy := List.getElem?_eq_getElem (l := ys) (i := b + n) (by omega)
    refine ih ⟨_, _, hlowx, hlowy, ?_⟩
    rw [← hxs.getElem? hlowx hx, ← hys.getElem? hlowy hy]
    exact hnames x (List.mem_of_getElem? hx) y (List.mem_of_getElem? hy) hhash

end HashChains
