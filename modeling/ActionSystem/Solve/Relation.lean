import ActionSystem.Solve.Infer
import ActionSystem.Expr.SolvingOrder

/-!
# Relations

An action or an initial predicate, prepared to be solved. The variables get their values one
after the other in the solving order: each is tried with all its candidates, as inferred from the
values chosen before, and an assignment of all variables is an answer if the whole relation holds
of it.
-/

namespace ActionSystem

/-- A relation with the order in which its variables are solved for. -/
structure Relation where
  name : String
  body : Expr
  form : Form
  order : List Nat

namespace Relation

def action (name : String) (body : Expr) (vars : List String) : Relation :=
  ⟨name, body, .primed, body.solvingOrder vars .primed⟩

def initial (body : Expr) (vars : List String) : Relation :=
  ⟨"Init", body, .unprimed, body.solvingOrder vars .unprimed⟩

/-- The context in which some variables have their values and the others are pending. An initial
predicate does not look at a state before. -/
def partialContext (r : Relation) (env : Env) (current : List Value)
    (slots : List (Option Value)) : Context :=
  match r.form with
  | .primed => ⟨env, .total current, .solving slots, []⟩
  | .unprimed => ⟨env, .solving slots, .absent, []⟩

def totalContext (r : Relation) (env : Env) (current values : List Value) : Context :=
  match r.form with
  | .primed => .ofStep env current values
  | .unprimed => .ofState env values

/-- The values to try for the variable declared at a position. A variable that an action does not
mention keeps its value. -/
def choices (r : Relation) (env : Env) (current : List Value) (slots : List (Option Value))
    (position : Nat) : Except EvalError (List Value) := do
  let noSource : EvalError :=
    Unknown.noSource ⟨env.vars.getD position "", r.form⟩ r.body.span
  match ← r.body.candidates (r.partialContext env current slots) position r.form with
  | .disabled => return []
  | .values vs => return vs
  | .unmentioned =>
    match r.form with
    | .primed => return current[position]?.toList
    | .unprimed => .error noSource
  | .constrained => .error noSource

def complete? (slots : List (Option Value)) : Option (List Value) := slots.mapM id

def accept (r : Relation) (env : Env) (current : List Value) (slots : List (Option Value)) :
    Except EvalError (Option (List Value)) :=
  match complete? slots with
  | none => .ok none
  | some values => do
    if ← r.body.holds (r.totalContext env current values) then return some values
    else return none

end Relation

end ActionSystem
