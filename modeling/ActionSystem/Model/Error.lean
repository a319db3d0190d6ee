import ActionSystem.Eval.Error

/-!
# Errors of exploration

What can go wrong when a model is set up or explored. An evaluation error comes with the part of
the specification in which it happened.
-/

namespace ActionSystem

inductive Phase where
  | init
  | action (name : String)
  | invariant (name : String)
deriving DecidableEq

inductive CheckError where
  | eval (error : EvalError) (phase : Phase)
  | noInitialStates
  | missingConstant (name : String)
  | surplusConstants (declared given : Nat)
deriving DecidableEq

namespace Phase

def message : Phase → String
  | init => "init"
  | action name => "action " ++ name
  | invariant name => "invariant " ++ name

/-- Attribute the error of an evaluation to a phase. -/
def run {α : Type} (phase : Phase) : Except EvalError α → Except CheckError α
  | .ok a => .ok a
  | .error e => .error (.eval e phase)

end Phase

namespace CheckError

def message : CheckError → String
  | eval error phase => "evaluation error in " ++ phase.message ++ ": " ++ error.message
  | noInitialStates => "no initial states satisfy init predicate"
  | missingConstant name => "constant '" ++ name ++ "' not provided"
  | surplusConstants declared given =>
    toString given ++ " constant values given, but only " ++ toString declared ++
      " constants are declared"

end CheckError

end ActionSystem
