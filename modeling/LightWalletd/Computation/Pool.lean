import Mathlib.Data.Fintype.Basic
import LightWalletd.Computation.Prog

/-!
# Programs side by side

A pool runs a family of programs on one state: a schedule says whose command is next, and
every command is atomic. `serial` is what the programs do one after the other, and a pool is
serialized by an order when it shows what they leave and return in that order.
-/

set_option autoImplicit false

namespace Stateful

variable {ι ε σ α κ ρ : Type}

namespace Prog

/-- The program that has ended with `r`. -/
def ended : Except ε α → Prog ε σ α
  | .ok a => ret a
  | .error e => fail e

/-- How the program has ended, if it has. -/
def outcome? : Prog ε σ α → Option (Except ε α)
  | ret a => some (.ok a)
  | fail e => some (.error e)
  | _ => none

/-- The next command is a write. -/
def isWrite : Prog ε σ α → Bool
  | write _ _ => true
  | _ => false

/-- The outcome of a program that has ended is its result. -/
@[simp] theorem outcome?_ended (r : Except ε α) : (ended r : Prog ε σ α).outcome? = some r := by
  cases r <;> rfl

/-- A program with an outcome has ended. -/
theorem eq_ended {p : Prog ε σ α} {r : Except ε α} (h : p.outcome? = some r) : p = ended r := by
  cases p with
  | ret a =>
    cases h
    rfl
  | fail e =>
    cases h
    rfl
  | read k => cases h
  | modify f k => cases h
  | write f k => cases h

/-- A program that has ended takes no step. -/
@[simp] theorem step_ended (r : Except ε α) (s : σ) :
    (ended r : Prog ε σ α).step s = (ended r, s) := by
  cases r <;> rfl

/-- A program that has ended does not write. -/
@[simp] theorem isWrite_ended (r : Except ε α) : (ended r : Prog ε σ α).isWrite = false := by
  cases r <;> rfl

/-- A program that has ended runs no further. -/
@[simp] theorem run_ended (r : Except ε α) (s : σ) : (ended r : Prog ε σ α).run s = (r, s) := by
  cases r <;> rfl

end Prog

/-! ## Pools -/

/-- Programs that run on one state, and which of them have made a write. -/
structure Pool (ι ε σ α : Type) where
  state : σ
  progs : ι → Prog ε σ α
  begun : ι → Bool

namespace Pool

/-- Before the first command. -/
def start (progs : ι → Prog ε σ α) (s : σ) : Pool ι ε σ α := ⟨s, progs, fun _ => false⟩

/-- The next command of program `i`. -/
def step [DecidableEq ι] (pool : Pool ι ε σ α) (i : ι) : Pool ι ε σ α where
  state := ((pool.progs i).step pool.state).2
  progs := Function.update pool.progs i ((pool.progs i).step pool.state).1
  begun := Function.update pool.begun i (pool.begun i || (pool.progs i).isWrite)

/-- The commands of a schedule. -/
def runs [DecidableEq ι] (pool : Pool ι ε σ α) (schedule : List ι) : Pool ι ε σ α :=
  schedule.foldl step pool

/-- Every program has ended. -/
def Complete (pool : Pool ι ε σ α) : Prop := ∀ i, (pool.progs i).outcome?.isSome = true

/-- When program `i` makes its first write, no other program of its key is about to write. -/
def CalmStep (key : ι → κ) (pool : Pool ι ε σ α) (i : ι) : Prop :=
  (pool.progs i).isWrite = true → pool.begun i = false →
    ∀ j, j ≠ i → key j = key i → (pool.progs j).isWrite = false

/-- Every step of the schedule is calm. -/
def Calm [DecidableEq ι] (key : ι → κ) : Pool ι ε σ α → List ι → Prop
  | _, [] => True
  | pool, i :: schedule => pool.CalmStep key i ∧ (pool.step i).Calm key schedule

/-- Whether a step is calm is decided by looking at every other program. -/
instance [Fintype ι] [DecidableEq ι] [DecidableEq κ] (key : ι → κ) (pool : Pool ι ε σ α) (i : ι) :
    Decidable (pool.CalmStep key i) :=
  inferInstanceAs (Decidable (_ → _ → ∀ j, j ≠ i → key j = key i → _ = false))

/-- Whether a schedule is calm is decided step by step. -/
instance decidableCalm [Fintype ι] [DecidableEq ι] [DecidableEq κ] (key : ι → κ) :
    (pool : Pool ι ε σ α) → (schedule : List ι) → Decidable (pool.Calm key schedule)
  | _, [] => inferInstanceAs (Decidable True)
  | pool, i :: schedule =>
    have : Decidable ((pool.step i).Calm key schedule) := decidableCalm key _ schedule
    inferInstanceAs (Decidable (_ ∧ _))

/-- A step of a program that has ended changes nothing. -/
theorem step_eq_self [DecidableEq ι] {pool : Pool ι ε σ α} {i : ι} {r : Except ε α}
    (h : pool.progs i = .ended r) : pool.step i = pool := by
  obtain ⟨s, progs, begun⟩ := pool
  have hprog : progs i = .ended r := h
  simp [step, hprog]

/-- A schedule may be cut in two. -/
theorem runs_append [DecidableEq ι] (pool : Pool ι ε σ α) (early late : List ι) :
    pool.runs (early ++ late) = (pool.runs early).runs late := List.foldl_append ..

/-- A calm schedule is calm up to a cut, and from there on. -/
theorem calm_append [DecidableEq ι] {key : ι → κ} {pool : Pool ι ε σ α} {early late : List ι} :
    pool.Calm key (early ++ late) ↔ pool.Calm key early ∧ (pool.runs early).Calm key late := by
  induction early generalizing pool with
  | nil => simp [Calm, runs]
  | cons i early ih =>
    rw [List.cons_append, Calm, Calm, ih, and_assoc]
    rfl

end Pool

/-- The state after the programs of `order`, one after the other. -/
def serial (progs : ι → Prog ε σ α) (order : List ι) (s : σ) : σ :=
  order.foldl (fun s i => (progs i).exec s) s

/-- The last of a serial order runs behind the others. -/
theorem serial_concat (progs : ι → Prog ε σ α) (order : List ι) (i : ι) (s : σ) :
    serial progs (order ++ [i]) s = (progs i).exec (serial progs order s) := by
  simp [serial]

/-- The pool shows what the programs leave and return one after the other, in the given order. -/
structure SerializedBy (rows : σ → ρ) (progs : ι → Prog ε σ α) (s : σ) (order : List ι)
    (pool : Pool ι ε σ α) : Prop where
  nodup : order.Nodup
  all : ∀ i, i ∈ order
  rows : rows pool.state = rows (serial progs order s)
  outcome : ∀ before i after, order = before ++ i :: after →
    (pool.progs i).outcome? = some ((progs i).run (serial progs before s)).1

end Stateful
