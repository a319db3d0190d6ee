import ActionSystem.Solve.Cursor
import ActionSystem.Spec

/-!
# Models

A specification whose constants have values: its initial states, and the successors of a state
under each action.
-/

namespace ActionSystem

structure Model where
  env : Env
  initial : Relation
  actions : List Relation
  invariants : List Definition

namespace Model

def ofSpec (spec : Spec) (constants : List Value) : Model where
  env := ⟨spec.variableNames, spec.constantNames, constants⟩
  initial := .initial spec.init spec.variableNames
  actions := spec.actions.map fun a => .action a.name a.body spec.variableNames
  invariants := spec.invariants

def actionNames (m : Model) : List String := m.actions.map (·.name)

def initialStates (m : Model) : Except EvalError (List State) := m.initial.states m.env []

def successors (m : Model) (action : Nat) (s : State) : Except EvalError (List State) :=
  match m.actions[action]? with
  | some a => a.states m.env s.values
  | none => .ok []

/-- Whether some action has a successor. The actions are asked in turn for one answer each. -/
def anyEnabled (m : Model) (s : State) : Except EvalError Bool :=
  m.actions.anyM fun a => (a.assignments m.env s.values).hasAny

end Model

end ActionSystem
