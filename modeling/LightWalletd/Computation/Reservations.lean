import Mathlib.Algebra.BigOperators.Group.List.Basic
import Mathlib.Algebra.Order.BigOperators.Group.List
import Mathlib.Algebra.Order.Ring.Nat

/-!
# Work under reservations

Jobs reserve an amount of something, use an amount of it, and may lose their reservation while
they use it.

* `total f jobs` is the sum of `f` over the jobs;
* `load` counts every job with what it reserves or uses, whichever is more;
* `stray` is what is used beyond the reservations.

What is used is at most the load, and the load is what is reserved and what is stray. It grows
only where a job reserves or uses more than it did, so that a bound of the load is kept by
admitting jobs against what is reserved and stray together.
-/

set_option autoImplicit false

namespace Reservations

variable {ρ : Type}

/-- The sum of `f` over the jobs. -/
def total (f : ρ → ℕ) (jobs : List ρ) : ℕ := (jobs.map f).sum

/-- What the jobs reserve or use. -/
def load (held used : ρ → ℕ) (jobs : List ρ) : ℕ := total (fun j => max (held j) (used j)) jobs

/-- What the jobs use beyond what they reserve. -/
def stray (held used : ρ → ℕ) (jobs : List ρ) : ℕ := total (fun j => used j - held j) jobs

section Total

variable {f g : ρ → ℕ} {jobs : List ρ}

/-- No job adds up to nothing. -/
@[simp] theorem total_nil (f : ρ → ℕ) : total f [] = 0 := rfl

/-- A new job adds its share. -/
theorem total_concat (f : ρ → ℕ) (jobs : List ρ) (j : ρ) :
    total f (jobs ++ [j]) = total f jobs + f j := by
  simp [total]

/-- Replacing a job replaces its summand. -/
theorem total_set (f : ρ → ℕ) {i : ℕ} {j : ρ} (hj : jobs[i]? = some j) (j' : ρ) :
    total f (jobs.set i j') + f j = total f jobs + f j' := by
  induction jobs generalizing i with
  | nil => cases hj
  | cons k jobs ih =>
    cases i with
    | zero =>
      cases hj
      simp only [total, List.set_cons_zero, List.map_cons, List.sum_cons]
      omega
    | succ i =>
      have hrest := ih hj
      simp only [total, List.set_cons_succ, List.map_cons, List.sum_cons] at hrest ⊢
      omega

/-- Larger shares add up to more. -/
theorem total_mono (h : ∀ j, f j ≤ g j) (jobs : List ρ) : total f jobs ≤ total g jobs :=
  List.sum_le_sum fun j _ => h j

/-- A job counts at least with its own summand. -/
theorem le_total (f : ρ → ℕ) {i : ℕ} {j : ρ} (hj : jobs[i]? = some j) : f j ≤ total f jobs :=
  List.single_le_sum (fun _ _ => Nat.zero_le _) _ (List.mem_map_of_mem (List.mem_of_getElem? hj))

/-- Shares that are sums add up separately. -/
theorem total_add (f g : ρ → ℕ) (jobs : List ρ) :
    total (fun j => f j + g j) jobs = total f jobs + total g jobs :=
  List.sum_map_add

end Total

section Load

variable {held used : ρ → ℕ} {jobs : List ρ}

/-- No more is used than the load. -/
theorem total_used_le_load (held used : ρ → ℕ) (jobs : List ρ) :
    total used jobs ≤ load held used jobs :=
  total_mono (fun _ => le_max_right _ _) jobs

/-- The load is what is reserved and what is stray. -/
theorem load_eq (held used : ρ → ℕ) (jobs : List ρ) :
    load held used jobs = total held jobs + stray held used jobs := by
  unfold load stray
  rw [← total_add]
  congr 1
  funext j
  omega

/-- A job that reserves and uses no more than before leaves the load below what it was. -/
theorem load_set_le {i : ℕ} {j j' : ρ} (hj : jobs[i]? = some j)
    (hle : max (held j') (used j') ≤ max (held j) (used j)) :
    load held used (jobs.set i j') ≤ load held used jobs := by
  have hset := total_set (fun j => max (held j) (used j)) hj j'
  unfold load
  omega

/-- A job that had nothing takes a reservation and keeps to it. -/
theorem load_set_reserve {i : ℕ} {j j' : ρ} (hj : jobs[i]? = some j)
    (hused : used j' ≤ held j') :
    load held used (jobs.set i j') ≤ load held used jobs + held j' := by
  have hset := total_set (fun j => max (held j) (used j)) hj j'
  have hmax : max (held j') (used j') = held j' := max_eq_left hused
  unfold load
  omega

/-- A new job adds the larger one of what it holds and what it uses. -/
theorem load_concat (jobs : List ρ) (j : ρ) :
    load held used (jobs ++ [j]) = load held used jobs + max (held j) (used j) :=
  total_concat _ jobs j

end Load

end Reservations
