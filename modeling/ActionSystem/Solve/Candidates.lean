import ActionSystem.Value.Canonical

/-!
# Candidates

What a relation says about the values of one variable, and how this is put together for
conjunctions and alternatives.
-/

namespace ActionSystem

/-- What a relation says about one variable. -/
inductive Candidates where
  /-- The relation is false whatever the variable is. -/
  | disabled
  /-- The relation does not look at the variable. -/
  | unmentioned
  /-- The relation looks at the variable but gives no list of values. -/
  | constrained
  /-- Every value that satisfies the relation is among these. -/
  | values (vs : List Value)
deriving DecidableEq

namespace Candidates

/-- What both of two conditions say. A list from one side is kept beside a mere constraint of the
other, and two lists are joined. -/
def conjoin : Candidates → Candidates → Candidates
  | disabled, _ | _, disabled => disabled
  | unmentioned, c | c, unmentioned => c
  | values vs, values ws => values (Sorted.union Value.cmp vs ws)
  | values vs, constrained | constrained, values vs => values vs
  | constrained, constrained => constrained

inductive Alternatives where
  /-- One of them gives no list of values. -/
  | constrained
  /-- The values listed. `live`: some alternative is not disabled. `stutter`: some alternative does
  not look at the variable. -/
  | listed (vs : List Value) (live stutter : Bool)
deriving DecidableEq

def survey (vs : List Value) (live stutter : Bool) : List Candidates → Alternatives
  | [] => .listed vs live stutter
  | disabled :: cs => survey vs live stutter cs
  | unmentioned :: cs => survey vs true true cs
  | constrained :: _ => .constrained
  | values ws :: cs => survey (Sorted.union Value.cmp vs ws) true stutter cs

end Candidates

end ActionSystem
