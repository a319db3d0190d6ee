import ActionSystem.Eval.Operators
import ActionSystem.Eval.Context

/-!
# Evaluation

The value of an expression in a context, or the first error met. Operands are evaluated from left
to right; a connective stops at its left operand if that decides the result, and a binder stops
at the first item that does.
-/

namespace ActionSystem.Expr

mutual

def eval : Expr → Context → Except EvalError Value
  | literal _ l, _ => .ok l.value
  | name s x, c => c.lookup s x
  | primed s x, c => c.lookupNext s x
  | unchanged s xs, c => do return .bool (← c.isUnchanged s xs)
  | unary s op e, c => do
    let v ← eval e c
    Fault.at s (op.apply v)
  | logical _ op l r, c => do
    let v ← eval l c
    let p ← Fault.at l.span (v.expectBool op.symbol)
    match op.decided? p with
    | some b => return .bool b
    | none =>
      let w ← eval r c
      return .bool (← Fault.at r.span (w.expectBool op.symbol))
  | binary s op l r, c => do
    let v ← eval l c
    let w ← eval r c
    Fault.at s (op.apply v w)
  | range s lo hi, c => do
    let v ← eval lo c
    let m ← Fault.at s (v.expectInt "..")
    let w ← eval hi c
    let n ← Fault.at s (w.expectInt "..")
    Value.range s m n
  | set _ es, c => do return .ofElements (← evalAll es c)
  | seq _ es, c => do return .seq (← evalAll es c)
  | record _ fs, c => do return .ofFields (← evalFields fs c)
  | apply s f a, c => do
    let v ← eval f c
    let w ← eval a c
    Fault.at s (v.apply w)
  | field s r x, c => do
    let v ← eval r c
    Fault.at s (v.field x)
  | except s f k e, c => do
    let v ← eval f c
    let key ← eval k c
    let w ← eval e c
    Fault.at s (v.except key w)
  | append s q x, c => do
    let v ← eval q c
    let w ← eval x c
    Fault.at s (v.append w)
  | bind s b x d e, c => do
    let v ← eval d c
    let items ← v.domainElements d.span
    b.gather s e.span items fun item => eval e (c.bind x item)
  | letIn _ x v e, c => do
    let w ← eval v c
    eval e (c.bind x w)
  | ite _ p t e, c => do
    let v ← eval p c
    if ← Fault.at p.span (v.expectBool "IF") then eval t c else eval e c
termination_by structural e => e

def evalAll : List Expr → Context → Except EvalError (List Value)
  | [], _ => .ok []
  | e :: es, c => do
    let v ← eval e c
    let vs ← evalAll es c
    return v :: vs
termination_by structural es => es

def evalFields : List (String × Expr) → Context → Except EvalError (List (String × Value))
  | [], _ => .ok []
  | (x, e) :: fs, c => do
    let v ← eval e c
    let vs ← evalFields fs c
    return (x, v) :: vs
termination_by structural fs => fs

end

def holds (e : Expr) (c : Context) : Except EvalError Bool := do
  let v ← e.eval c
  v.truth e.span

def domain (e : Expr) (c : Context) : Except EvalError (List Value) := do
  let v ← e.eval c
  v.domainElements e.span

end ActionSystem.Expr
