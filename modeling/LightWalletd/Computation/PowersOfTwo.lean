import Mathlib.Algebra.GroupWithZero.Nat
import Mathlib.Data.Nat.Log
import Mathlib.Tactic.Common

/-!
# Powers of two

Rounding up to a power of two is the least one at or above a number, a smaller power of two
divides a larger one, and halving a power of two until it fits in a room leaves the largest
one that does.
-/

set_option autoImplicit false

namespace PowersOfTwo

/-- The least power of two at or above `n`. -/
def roundUp (n : ℕ) : ℕ := 2 ^ Nat.clog 2 n

/-- A number is rounded up to a power of two. -/
theorem isPowerOfTwo_roundUp (n : ℕ) : (roundUp n).isPowerOfTwo := ⟨_, rfl⟩

/-- Rounding up does not make a number smaller. -/
theorem le_roundUp (n : ℕ) : n ≤ roundUp n := Nat.le_pow_clog Nat.one_lt_two n

/-- A power of two that is large enough for the number is so for what it is rounded up to. -/
theorem roundUp_le_iff {n p : ℕ} (hp : p.isPowerOfTwo) : roundUp n ≤ p ↔ n ≤ p := by
  obtain ⟨k, rfl⟩ := hp
  unfold roundUp
  rw [Nat.pow_le_pow_iff_right Nat.one_lt_two, Nat.clog_le_iff_le_pow Nat.one_lt_two]

/-- A power of two is not rounded. -/
theorem roundUp_eq_self {p : ℕ} (hp : p.isPowerOfTwo) : roundUp p = p :=
  le_antisymm ((roundUp_le_iff hp).mpr le_rfl) (le_roundUp p)

/-- The smaller one of two powers of two divides the other. -/
theorem dvd_of_le {p q : ℕ} (hp : p.isPowerOfTwo) (hq : q.isPowerOfTwo) (h : p ≤ q) : p ∣ q := by
  obtain ⟨j, rfl⟩ := hp
  obtain ⟨k, rfl⟩ := hq
  exact Nat.pow_dvd_pow 2 ((Nat.pow_le_pow_iff_right Nat.one_lt_two).mp h)

/-- A power of two above another one is at least twice as large. -/
theorem two_mul_le_of_lt {p q : ℕ} (hp : p.isPowerOfTwo) (hq : q.isPowerOfTwo) (h : p < q) :
    2 * p ≤ q := by
  obtain ⟨j, rfl⟩ := hp
  obtain ⟨k, rfl⟩ := hq
  have hjk : j < k := (Nat.pow_lt_pow_iff_right Nat.one_lt_two).mp h
  rw [← Nat.pow_succ']
  exact Nat.pow_le_pow_right (by omega) hjk

/-- Half of a power of two above 1 is a power of two. -/
theorem isPowerOfTwo_div_two {p : ℕ} (hp : p.isPowerOfTwo) (h : 1 < p) :
    (p / 2).isPowerOfTwo ∧ 2 * (p / 2) = p := by
  obtain ⟨k, rfl⟩ := hp
  cases k with
  | zero => exact absurd h (lt_irrefl 1)
  | succ k =>
    have hhalf : 2 ^ (k + 1) / 2 = 2 ^ k := by
      rw [Nat.pow_succ, Nat.mul_div_cancel _ Nat.two_pos]
    rw [hhalf]
    exact ⟨⟨k, rfl⟩, (Nat.pow_succ').symm⟩

/-- `n` halved until it is at most `room`, at most as often as there is fuel. -/
def halveTo (room : ℕ) : ℕ → ℕ → ℕ
  | 0, n => n
  | fuel + 1, n => if room < n ∧ 1 < n then halveTo room fuel (n / 2) else n

/-- The largest power of two that is at most `p` and at most `room`. -/
theorem halveTo_spec {room : ℕ} (hroom : 0 < room) {fuel p : ℕ} (hp : p.isPowerOfTwo)
    (hfuel : p ≤ fuel) :
    (halveTo room fuel p).isPowerOfTwo ∧ halveTo room fuel p ≤ min p room ∧
      ∀ q : ℕ, q.isPowerOfTwo → q ≤ min p room → q ≤ halveTo room fuel p := by
  induction fuel generalizing p with
  | zero => exact absurd hfuel (Nat.not_le.mpr (Nat.pos_of_isPowerOfTwo hp))
  | succ fuel ih =>
    rw [halveTo]
    by_cases h : room < p ∧ 1 < p
    · obtain ⟨hhalf, hdouble⟩ := isPowerOfTwo_div_two hp h.2
      rw [if_pos h]
      obtain ⟨hpow, hle, hmax⟩ := ih hhalf (by omega)
      refine ⟨hpow, by omega, fun q hq hqle => ?_⟩
      -- below `p` there is no power of two above its half
      have hqp : 2 * q ≤ p := two_mul_le_of_lt hq hp (by omega)
      exact hmax q hq (by omega)
    · rw [if_neg h]
      exact ⟨hp, by omega, fun q _ hqle => by omega⟩

end PowersOfTwo
