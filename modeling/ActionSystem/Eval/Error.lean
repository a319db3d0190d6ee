import ActionSystem.Value.Fault
import ActionSystem.Span

/-!
# Evaluation errors

Why an expression has no value, and where. The causes are grouped into kinds for reports.
-/

namespace ActionSystem

inductive Cause where
  /-- An operation on values has no result. -/
  | fault (f : Fault)
  /-- A name without a value in the current state or among the constants. -/
  | unbound (x : String)
  /-- A variable without a value in the next state. -/
  | unboundNext (x : String)
  /-- A variable was asked for by a position at which none is declared. -/
  | undeclared (position : Nat)
  /-- An interval with too many integers. -/
  | wideRange (lo hi : Int64)
  /-- A quantifier over a value that has no elements. -/
  | noDomain (actual : Kind)
  /-- No source of values for a variable that is solved for, in the given spelling. -/
  | noSource (shown : String)
  /-- No element has the property that is asked for. -/
  | chooseFailed
deriving DecidableEq

inductive ErrorKind where
  | typeMismatch | unboundVariable | unboundedDomain | divisionByZero
  | overflow | keyNotFound | indexOutOfBounds | chooseFailed
deriving DecidableEq

structure EvalError where
  span : Span
  cause : Cause
deriving DecidableEq

namespace ErrorKind

def name : ErrorKind → String
  | typeMismatch => "TypeMismatch"
  | unboundVariable => "UnboundVariable"
  | unboundedDomain => "UnboundedDomain"
  | divisionByZero => "DivisionByZero"
  | overflow => "Overflow"
  | keyNotFound => "KeyNotFound"
  | indexOutOfBounds => "IndexOutOfBounds"
  | chooseFailed => "ChooseFailed"

end ErrorKind

namespace Cause

/-- The kind of error a cause leads to. A set with too many subsets is an unbounded domain. -/
def kind : Cause → ErrorKind
  | fault (.typeMismatch _ _ _) => .typeMismatch
  | fault (.overflow _) => .overflow
  | fault .divisionByZero => .divisionByZero
  | fault (.keyNotFound _) => .keyNotFound
  | fault (.indexOutOfBounds _ _) => .indexOutOfBounds
  | fault (.tooLarge _ _) => .unboundedDomain
  | unbound _ | unboundNext _ | undeclared _ => .unboundVariable
  | wideRange _ _ | noDomain _ | noSource _ => .unboundedDomain
  | chooseFailed => .chooseFailed

def unboundMessage (shown : String) : String := "unbound variable `" ++ shown ++ "`"

def unboundedMessage (reason : String) : String := "unbounded domain: " ++ reason

def message : Cause → String
  | fault (.tooLarge op size) => unboundedMessage (Fault.tooLarge op size).message
  | fault f => f.message
  | unbound x => unboundMessage x
  | unboundNext x => unboundMessage (x ++ "'")
  | undeclared position => unboundMessage ("#" ++ toString position)
  | wideRange lo hi =>
    unboundedMessage
      ("range " ++ String.ofList (Integer.render lo) ++ ".." ++ String.ofList (Integer.render hi) ++
        " is too large to enumerate")
  | noDomain actual =>
    unboundedMessage ("expected a Set, Seq or Fn as domain, got " ++ actual.name)
  | noSource shown =>
    unboundedMessage
      ("`" ++ shown ++
        "` is not given a value by `=` or `\\in`, so its candidates cannot be enumerated")
  | chooseFailed => "no value satisfies CHOOSE"

end Cause

namespace EvalError

def kind (e : EvalError) : ErrorKind := e.cause.kind

def message (e : EvalError) : String := e.span.render ++ ": " ++ e.cause.message

end EvalError

def Fault.at {α : Type} (span : Span) : Except Fault α → Except EvalError α
  | .ok a => .ok a
  | .error f => .error ⟨span, .fault f⟩

end ActionSystem
