import ActionSystem.Value.Arithmetic
import ActionSystem.Value.Sets
import ActionSystem.Value.Functions
import ActionSystem.Eval.Error
import ActionSystem.Expr.Basic

/-!
# Operators

What the operators of expressions do with the values of their operands.
-/

namespace ActionSystem

/-- An interval this long or longer is not listed. -/
def maxRangeLength : Int := 0x100000

namespace Literal

def value : Literal → Value
  | bool b => .bool b
  | int n => .int n
  | str s => .str s

end Literal

namespace UnaryOp

def apply (op : UnaryOp) (v : Value) : Except Fault Value :=
  match op with
  | not => do return .bool (!(← v.expectBool not.symbol))
  | neg => v.neg
  | domain => v.domain
  | cardinality => v.cardinality
  | len => v.len
  | head => v.head
  | tail => v.tail
  | powerset => v.powerset
  | bigUnion => v.bigUnion

end UnaryOp

namespace Connective

/-- The result of a connective, if its left operand alone decides it. -/
def decided? : Connective → Bool → Option Bool
  | and, false => some false
  | or, true => some true
  | implies, false => some true
  | _, _ => none

end Connective

namespace BinaryOp

def compares (op : BinaryOp) (accepted : Ordering → Bool) (a b : Value) : Except Fault Value := do
  return .bool (accepted (← Value.compareInt op.symbol a b))

def apply (op : BinaryOp) (a b : Value) : Except Fault Value :=
  match op with
  | iff => do
    let p ← a.expectBool iff.symbol
    let q ← b.expectBool iff.symbol
    return .bool (p == q)
  | eq => .ok (.bool (a = b))
  | ne => .ok (.bool (a ≠ b))
  | lt => lt.compares (·.isLT) a b
  | le => le.compares (·.isLE) a b
  | gt => gt.compares (·.isGT) a b
  | ge => ge.compares (·.isGE) a b
  | add => a.add b
  | sub => a.sub b
  | mul => a.mul b
  | div => a.div b
  | mod => a.mod b
  | mem => do return .bool (← b.contains a)
  | notMem => do return .bool (!(← b.contains a))
  | union => a.union b
  | inter => a.inter b
  | diff => a.diff b
  | subsetEq => do return .bool (← a.subsetEq b)
  | concat => a.concat b

end BinaryOp

namespace Value

def range (span : Span) (lo hi : Int64) : Except EvalError Value :=
  if maxRangeLength ≤ hi.toInt - lo.toInt then .error ⟨span, .wideRange lo hi⟩
  else .ok (.set (interval lo hi))

def truth (span : Span) (v : Value) : Except EvalError Bool :=
  Fault.at span (v.expectBool "predicate")

/-- The elements that a quantifier over a value at `span` ranges over. -/
def domainElements (span : Span) (v : Value) : Except EvalError (List Value) :=
  match v.elements? with
  | some xs => .ok xs
  | none => .error ⟨span, .noDomain v.kind⟩

end Value

namespace Binder

/-- What a binder at `span` makes of the values of its body for the items of its domain. The items
are taken in order, and no further than needed. -/
def gather (binder : Binder) (span bodySpan : Span) (items : List Value)
    (body : Value → Except EvalError Value) : Except EvalError Value :=
  let holds (v : Value) : Except EvalError Bool := do (← body v).truth bodySpan
  match binder with
  | function => do
    let es ← items.mapM fun k => do return (k, ← body k)
    return .ofEntries es
  | all => do return .bool (← items.allM holds)
  | any => do return .bool (← items.anyM holds)
  | choose => do
    match ← items.findM? holds with
    | some v => return v
    | none => .error ⟨span, .chooseFailed⟩
  | filter => do return .ofElements (← items.filterM holds)
  | image => do return .ofElements (← items.mapM body)

end Binder

end ActionSystem
