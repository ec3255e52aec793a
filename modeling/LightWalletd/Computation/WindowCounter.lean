import Mathlib.Algebra.GroupWithZero.Nat
import Mathlib.Algebra.Order.BigOperators.Group.List
import Mathlib.Data.List.Basic
import Mathlib.Tactic.Common

/-!
# Counting in windows

A counter grants credits up to a limit, counted from the first request of a window. It starts over
with the first request behind the window's end, so that grants at the end of one window and at the
start of the next may come close together. If it only starts over a whole window after its last
grant, no interval of that length has more than the limit.
-/

set_option autoImplicit false

namespace WindowCounter

/-! ## Grants -/

/-- A request for credits. -/
structure Request where
  time : ℕ
  credits : ℕ
  deriving DecidableEq

/-- The credits of some requests. -/
def total (requests : List Request) : ℕ := (requests.map Request.credits).sum

/-- The credits of an interval, with its start and without its end. -/
def creditsIn (grants : List Request) (start length : ℕ) : ℕ :=
  total (grants.filter fun g => decide (start ≤ g.time ∧ g.time < start + length))

/-- No request takes no credits. -/
@[simp] theorem total_nil : total [] = 0 := rfl

/-- Credits add up. -/
@[simp] theorem total_append (xs ys : List Request) : total (xs ++ ys) = total xs + total ys := by
  simp [total]

/-- A request takes its credits. -/
@[simp] theorem total_singleton (r : Request) : total [r] = r.credits := by
  simp [total]

/-- A condition that lets more requests through has more credits. -/
theorem total_filter_le {p q : Request → Bool} {xs : List Request}
    (h : ∀ x ∈ xs, p x = true → q x = true) : total (xs.filter p) ≤ total (xs.filter q) := by
  induction xs with
  | nil => exact Nat.le_refl _
  | cons x xs ih =>
    obtain ⟨hx, hxs⟩ := List.forall_mem_cons.mp h
    have ih := ih hxs
    simp only [total, List.filter_cons] at ih ⊢
    split_ifs with hp hq
    · simpa using ih
    · exact absurd (hx hp) hq
    · rw [List.map_cons, List.sum_cons]
      omega
    · exact ih

/-- At most the credits of a request are counted of it. -/
theorem total_filter_singleton_le (p : Request → Bool) (r : Request) :
    total ([r].filter p) ≤ r.credits := by
  rw [List.filter_singleton]
  cases p r with
  | false => exact Nat.zero_le _
  | true => exact (total_singleton r).le

/-- Requests that are not counted take no credits. -/
theorem total_filter_eq_zero {p : Request → Bool} {xs : List Request}
    (h : ∀ x ∈ xs, p x = false) : total (xs.filter p) = 0 := by
  have hnil : xs.filter p = [] := List.filter_eq_nil_iff.mpr fun x hx => by simp [h x hx]
  rw [hnil, total_nil]

/-- A grant counts when it falls into the interval. -/
theorem creditsIn_append_singleton (grants : List Request) (r : Request) (start length : ℕ) :
    creditsIn (grants ++ [r]) start length = creditsIn grants start length +
      if start ≤ r.time ∧ r.time < start + length then r.credits else 0 := by
  unfold creditsIn
  rw [List.filter_append, total_append]
  congr 1
  by_cases hin : start ≤ r.time ∧ r.time < start + length
  · rw [if_pos hin, List.filter_cons_of_pos (by simpa using hin), List.filter_nil,
      total_singleton]
  · rw [if_neg hin, List.filter_cons_of_neg (by simpa using hin), List.filter_nil, total_nil]

/-! ## The counter -/

/-- The credits used and the start of the current window, and all grants so far. -/
structure Counter where
  current : Option (ℕ × ℕ)
  grants : List Request

namespace Counter

/-- A counter without a window and without grants. -/
def fresh : Counter := ⟨none, []⟩

variable (limit window : ℕ)

/-- Start a window with a request. -/
def restart (c : Counter) (r : Request) : Bool × Counter :=
  if r.credits ≤ limit then (true, ⟨some (r.credits, r.time), c.grants ++ [r]⟩)
  else (false, ⟨some (0, r.time), c.grants⟩)

/-- The answer to a request. -/
def take (c : Counter) (r : Request) : Bool × Counter :=
  match c.current with
  | none => c.restart limit r
  | some (used, since) =>
    if since + window ≤ r.time then c.restart limit r
    else if used + r.credits ≤ limit then
      (true, ⟨some (used + r.credits, since), c.grants ++ [r]⟩)
    else (false, c)

/-- The requests with their answers. -/
def trace : Counter → List Request → List (Request × Bool)
  | _, [] => []
  | c, r :: rs => (r, (c.take limit window r).1) :: trace (c.take limit window r).2 rs

/-- A condition on the counter that every request of a run meets. -/
def Along (P : Counter → Request → Prop) : Counter → List Request → Prop
  | _, [] => True
  | c, r :: rs => P c r ∧ Along P (c.take limit window r).2 rs

/-- A request that starts a window comes a whole window after every grant. -/
def Clear (c : Counter) (r : Request) : Prop :=
  ∀ used since, c.current = some (used, since) → since + window ≤ r.time →
    ∀ g ∈ c.grants, g.time + window ≤ r.time

/-- The grants that may share an interval with a later one are those of the current window. -/
structure Inv (c : Counter) (now : ℕ) : Prop where
  within : ∀ start, creditsIn c.grants start window ≤ limit
  grants_nil : c.current = none → c.grants = []
  current : ∀ used since, c.current = some (used, since) → since ≤ now ∧ used ≤ limit ∧
    total (c.grants.filter fun g => decide (since < g.time + window)) ≤ used

/-! ## Runs -/

section Runs

variable {limit window : ℕ} {c : Counter} {now : ℕ} {r : Request}

/-- A fresh counter meets the invariant. -/
theorem inv_fresh : fresh.Inv limit window now where
  within _ := Nat.zero_le _
  grants_nil _ := rfl
  current _ _ := nofun

/-- No grant is near the start of a window that begins a whole window after all of them. -/
theorem creditsIn_eq_zero {grants : List Request} {time start : ℕ}
    (hfar : ∀ g ∈ grants, g.time + window ≤ time) (hin : time < start + window) :
    creditsIn grants start window = 0 := by
  apply total_filter_eq_zero
  intro g hg
  have := hfar g hg
  exact decide_eq_false (by omega)

/-- A new window keeps the invariant. -/
theorem Inv.restart (h : c.Inv limit window now)
    (hfar : ∀ g ∈ c.grants, g.time + window ≤ r.time) :
    (c.restart limit r).2.Inv limit window r.time := by
  have hnone : total (c.grants.filter fun g => decide (r.time < g.time + window)) = 0 := by
    apply total_filter_eq_zero
    intro g hg
    have := hfar g hg
    exact decide_eq_false (by omega)
  unfold Counter.restart
  by_cases hlimit : r.credits ≤ limit
  · rw [if_pos hlimit]
    refine ⟨fun start => ?_, nofun, fun used since hcurrent => ?_⟩
    · rw [creditsIn_append_singleton]
      by_cases hin : start ≤ r.time ∧ r.time < start + window
      · rw [if_pos hin, creditsIn_eq_zero hfar hin.2]
        omega
      · rw [if_neg hin]
        exact h.within start
    · cases hcurrent
      refine ⟨le_rfl, hlimit, ?_⟩
      rw [List.filter_append, total_append, hnone, Nat.zero_add]
      exact total_filter_singleton_le _ r
  · rw [if_neg hlimit]
    refine ⟨h.within, nofun, fun used since hcurrent => ?_⟩
    cases hcurrent
    exact ⟨le_rfl, Nat.zero_le _, hnone.le⟩

/-- A grant in the current window keeps the invariant. -/
theorem Inv.grant (h : c.Inv limit window now) (hnow : now ≤ r.time) {used since : ℕ}
    (hcurrent : c.current = some (used, since)) (hlimit : used + r.credits ≤ limit) :
    Inv limit window ⟨some (used + r.credits, since), c.grants ++ [r]⟩ r.time := by
  obtain ⟨hsince, -, hused⟩ := h.current used since hcurrent
  refine ⟨fun start => ?_, nofun, fun used' since' hcurrent' => ?_⟩
  · rw [creditsIn_append_singleton]
    by_cases hin : start ≤ r.time ∧ r.time < start + window
    · -- what the interval has from before is of the current window
      have hcount : creditsIn c.grants start window ≤ used := by
        apply le_trans (total_filter_le _) hused
        intro g _ hg
        have := of_decide_eq_true hg
        exact decide_eq_true (by omega)
      rw [if_pos hin]
      omega
    · rw [if_neg hin]
      exact h.within start
  · cases hcurrent'
    refine ⟨by omega, hlimit, ?_⟩
    rw [List.filter_append, total_append]
    exact Nat.add_le_add hused (total_filter_singleton_le _ r)

/-- One request keeps the invariant. -/
theorem Inv.take (h : c.Inv limit window now) (hnow : now ≤ r.time) (hclear : c.Clear window r) :
    (c.take limit window r).2.Inv limit window r.time := by
  unfold Counter.take
  cases hcurrent : c.current with
  | none =>
    apply h.restart
    rw [h.grants_nil hcurrent]
    exact fun _ => nofun
  | some current =>
    obtain ⟨used, since⟩ := current
    dsimp only
    by_cases hended : since + window ≤ r.time
    · rw [if_pos hended]
      exact h.restart (hclear used since hcurrent hended)
    rw [if_neg hended]
    by_cases hlimit : used + r.credits ≤ limit
    · rw [if_pos hlimit]
      exact h.grant hnow hcurrent hlimit
    · rw [if_neg hlimit]
      refine ⟨h.within, h.grants_nil, fun used' since' hcurrent' => ?_⟩
      obtain ⟨hsince, hrest⟩ := h.current used' since' hcurrent'
      exact ⟨hsince.trans hnow, hrest⟩

end Runs

end Counter

/-- The requests that were granted. -/
def granted (trace : List (Request × Bool)) : List Request :=
  (trace.filter Prod.snd).map Prod.fst

namespace Counter

variable {limit window : ℕ}

/-- A condition along a run may be weakened. -/
theorem Along.imp {P Q : Counter → Request → Prop} (h : ∀ c r, P c r → Q c r) {c : Counter}
    {rs : List Request} (hrun : c.Along limit window P rs) : c.Along limit window Q rs := by
  induction rs generalizing c with
  | nil => trivial
  | cons r rs ih => exact ⟨h c r hrun.1, ih hrun.2⟩

/-- The counter lists what it grants. -/
theorem grants_take (c : Counter) (r : Request) : (c.take limit window r).2.grants =
    c.grants ++ granted [(r, (c.take limit window r).1)] := by
  unfold take restart
  cases c.current with
  | none =>
    dsimp only
    split_ifs <;> simp [granted]
  | some current =>
    dsimp only
    split_ifs <;> simp [granted]

/-- Along a run that waits out every window, no interval of that length gets more than the limit. -/
theorem creditsIn_trace_le {c : Counter} {now : ℕ} (h : c.Inv limit window now)
    {rs : List Request} (htimes : (rs.map Request.time).Pairwise (· ≤ ·))
    (hnow : ∀ r ∈ rs, now ≤ r.time) (hrun : c.Along limit window (Clear window) rs) (start : ℕ) :
    creditsIn (c.grants ++ granted (c.trace limit window rs)) start window ≤ limit := by
  induction rs generalizing c now with
  | nil =>
    rw [trace, granted, List.filter_nil, List.map_nil, List.append_nil]
    exact h.within start
  | cons r rs ih =>
    obtain ⟨hclear, hrun⟩ := hrun
    obtain ⟨hle, htimes⟩ := List.pairwise_cons.mp htimes
    have hstep := h.take (hnow r (List.mem_cons_self ..)) hclear
    have hrest := ih hstep htimes
      (fun r' hr' => hle _ (List.mem_map_of_mem hr')) hrun
    rw [grants_take, List.append_assoc] at hrest
    have hcons : granted (c.trace limit window (r :: rs)) =
        granted [(r, (c.take limit window r).1)] ++
          granted ((c.take limit window r).2.trace limit window rs) := by
      unfold granted
      rw [← List.map_append, ← List.filter_append]
      rfl
    rw [hcons]
    exact hrest

/-- If no window starts close behind a grant, no interval has more credits than the limit. -/
theorem credits_within_limit {rs : List Request} (htimes : (rs.map Request.time).Pairwise (· ≤ ·))
    (hrun : fresh.Along limit window (Clear window) rs) (start : ℕ) :
    creditsIn (granted (fresh.trace limit window rs)) start window ≤ limit :=
  creditsIn_trace_le (@inv_fresh limit window 0) htimes (fun _ _ => Nat.zero_le _) hrun start

end Counter

end WindowCounter
