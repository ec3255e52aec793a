import LightWalletd.Computation.Upholding

/-!
# Classes of programs

What is shown of a program command by command, and is not lost when programs are sequenced or their
errors are caught, is a class of programs. A function is in every class that has its commands. So
its commands are gone through once, whatever is to be shown of it.
-/

set_option autoImplicit false

namespace Stateful

namespace Prog

variable {ε σ α β : Type}

/-- A class of programs that sequencing and the handling of errors do not leave. -/
structure Closed (P : ∀ α : Type, Prog ε σ α → Prop) : Prop where
  ret : ∀ {α : Type} (a : α), P α (ret a)
  fail : ∀ {α : Type} (e : ε), P α (fail e)
  bind : ∀ {α β : Type} {p : Prog ε σ α} {f : α → Prog ε σ β}, P α p → (∀ a, P β (f a)) →
    P β (p.bind f)
  attempt : ∀ {α : Type} {p : Prog ε σ α}, P α p → P (Except ε α) p.attempt

namespace Closed

variable {P : ∀ α : Type, Prog ε σ α → Prop} (hP : Closed P)

/-- A choice between programs of the class. -/
theorem ite {b : Prop} [Decidable b] {p q : Prog ε σ α} (hp : P α p) (hq : P α q) :
    P α (if b then p else q) := by
  split_ifs
  · exact hp
  · exact hq

include hP in

/-- A loop whose rounds are in the class. -/
theorem forEach {f : β → Prog ε σ Unit} (hf : ∀ x, P Unit (f x)) (xs : List β) :
    P Unit (Prog.forEach f xs) := by
  induction xs with
  | nil => exact hP.ret ()
  | cons x xs ih => exact hP.bind (hf x) fun _ => ih

end Closed

/-- The programs whose commands keep `I` each. -/
theorem closed_keeps (I : σ → Prop) : Closed fun α (p : Prog ε σ α) => p.Keeps I :=
  ⟨keeps_ret, keeps_fail, Keeps.bind, Keeps.attempt⟩

/-- The programs that uphold `I` among others. -/
theorem closed_upholds (I : σ → Prop) : Closed fun α (p : Prog ε σ α) => p.Upholds I Any :=
  ⟨fun _ => trivial, fun _ => trivial, Upholds.next, fun h => h.attempt.any⟩

/-- The programs that `φ` makes no difference to. -/
theorem closed_ignores (φ : σ → σ) : Closed fun α (p : Prog ε σ α) => p.Ignores φ :=
  ⟨ignores_ret, ignores_fail, Ignores.bind, Ignores.attempt⟩

end Prog

end Stateful
