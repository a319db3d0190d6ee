import ActionSystem.Model.Basic
import ActionSystem.Model.Error

/-!
# Invariants

A state is checked against every invariant, so that an invariant without a value is reported even
if an earlier one is false.
-/

namespace ActionSystem

structure Violation where
  /-- The position of the invariant. -/
  index : Nat
  name : String
  state : State

namespace Violation

/-- Evaluate invariants, the first of which is at position `index`, and keep the first that is
false. -/
def firstFrom (env : Env) (s : State) (index : Nat) :
    List Definition → Except CheckError (Option Violation)
  | [] => .ok none
  | d :: ds => do
    let holds ← (Phase.invariant d.name).run (d.body.holds (.ofState env s.values))
    let later ← firstFrom env s (index + 1) ds
    return if holds then later else some ⟨index, d.name, s⟩

end Violation

def Model.violation? (m : Model) (s : State) : Except CheckError (Option Violation) :=
  Violation.firstFrom m.env s 0 m.invariants

end ActionSystem
