import ActionSystem.Solve.Candidates
import ActionSystem.Expr.References
import ActionSystem.Eval.Basic

/-!
# Inference of candidates

A relation is solved for one variable at a time, while some variables are still pending. The
candidates for a variable are read off the relation: from equations and memberships with the
variable on one side, put together along the connectives. They may be too many, since every
complete assignment is checked against the whole relation in the end.
-/

namespace ActionSystem

namespace Context

def pendingIn (c : Context) (slots : Slots) (x : String) : Bool :=
  match c.env.variableIndex? x with
  | some i => slots.isPending i
  | none => false

/-- The reference does not read a pending variable. -/
def settles (c : Context) : Reference → Bool
  | .name x => c.isLocal x || !c.pendingIn c.current x
  | .primed x => !c.pendingIn c.next x
  | .frame xs _ => xs.all fun x => !c.pendingIn c.current x && !c.pendingIn c.next x

/-- The expression reads no pending variable, so that it can be evaluated. Names in `bound` are
taken by binders around it. -/
def resolves (c : Context) (e : Expr) (bound : List String) : Bool :=
  (e.references bound).all c.settles

end Context

/-- The unknown that a relation is solved for: one variable in one form. -/
structure Unknown where
  name : String
  form : Form

namespace Unknown

def isSide (u : Unknown) (c : Context) : Expr → Bool
  | .primed _ x => u.form = .primed && x = u.name
  | .name _ x => u.form = .unprimed && x = u.name && !c.isLocal x
  | _ => false

def isAmong (u : Unknown) (c : Context) : Reference → Bool
  | .name x => u.form = .unprimed && x = u.name && !c.isLocal x
  | .primed x => u.form = .primed && x = u.name
  | .frame xs _ => xs.contains u.name

def isMentioned (u : Unknown) (c : Context) (e : Expr) : Bool :=
  (e.references []).any (u.isAmong c)

def shown (u : Unknown) : String :=
  match u.form with
  | .primed => u.name ++ "'"
  | .unprimed => u.name

def noSource (u : Unknown) (span : Span) : EvalError := ⟨span, .noSource u.shown⟩

/-- What alternatives say together. One that does not look at the variable stands for its current
value in a next state, and for any value at all in an initial state. The current value is looked
up in the `outer` context, without the binders around the alternatives. -/
def disjoin (u : Unknown) (outer : Context) (cs : List Candidates) :
    Except EvalError Candidates :=
  match Candidates.survey [] false false cs with
  | .constrained => .ok .constrained
  | .listed _ false _ => .ok .disabled
  | .listed [] true true => .ok .unmentioned
  | .listed vs true false => .ok (.values vs)
  | .listed vs true true =>
    match u.form with
    | .primed => do
      let v ← outer.lookup .none u.name
      return .values (Sorted.insert Value.cmp v vs)
    | .unprimed => .ok .constrained

def conjoinAll (body : Value → Except EvalError Candidates) (acc : Candidates) :
    List Value → Except EvalError Candidates
  | [] => .ok acc
  | v :: vs => do
    let r ← body v
    if r = .disabled then return .disabled
    else conjoinAll body (acc.conjoin r) vs

def fromSide (u : Unknown) (c : Context) (side other : Expr) : Option (Except EvalError Value) :=
  if u.isSide c side && c.resolves other [] then some (other.eval c) else none

def fromEquation (u : Unknown) (c : Context) (l r : Expr) : Except EvalError Candidates :=
  match u.fromSide c l r with
  | some v => do return .values [← v]
  | none =>
    match u.fromSide c r l with
    | some v => do return .values [← v]
    | none => .ok .constrained

def fromMembership (u : Unknown) (c : Context) (l r : Expr) : Except EvalError Candidates :=
  match u.fromSide c l r with
  | some v => do
    let s ← v
    return .values (← Fault.at r.span (s.expectSet BinaryOp.mem.symbol))
  | none => .ok .constrained

/-- What an expression that has no pending variable says: nothing, or that it is false. -/
def fromTruth (b : Bool) : Candidates := if b then .unmentioned else .disabled

/-- The candidates for the variable under an expression. Values of alternatives that do not look at
the variable, and of frames, are taken from the `outer` context. -/
def infer (u : Unknown) (outer : Context) (e : Expr) (c : Context) : Except EvalError Candidates :=
  if c.resolves e [] then do return fromTruth (← e.holds c)
  else if !u.isMentioned c e then .ok .unmentioned
  else
    match e with
    | .binary _ .eq l r => u.fromEquation c l r
    | .binary _ .mem l r => u.fromMembership c l r
    | .logical _ .and l r => do
      let a ← infer u outer l c
      if a = .disabled then return .disabled
      else return a.conjoin (← infer u outer r c)
    | .logical _ .or l r => do
      let a ← infer u outer l c
      let b ← infer u outer r c
      u.disjoin outer [a, b]
    | .logical _ .implies l r =>
      if c.resolves l [] then do
        if ← l.holds c then infer u outer r c else return .unmentioned
      else .ok .constrained
    | .ite _ p y n =>
      if c.resolves p [] then do
        if ← p.holds c then infer u outer y c else infer u outer n c
      else do
        let a ← infer u outer y c
        let b ← infer u outer n c
        u.disjoin outer [a, b]
    | .bind _ .any x d body =>
      if c.resolves d [] then do
        let items ← d.domain c
        let cs ← items.mapM fun v => infer u outer body (c.bind x v)
        u.disjoin outer cs
      else .ok .constrained
    | .bind _ .all x d body =>
      if c.resolves d [] then do
        let items ← d.domain c
        conjoinAll (fun v => infer u outer body (c.bind x v)) .unmentioned items
      else .ok .constrained
    | .letIn _ x v body =>
      if c.resolves v [] then do
        let w ← v.eval c
        infer u outer body (c.bind x w)
      else .ok .constrained
    | .unchanged s xs =>
      if u.form = .primed && xs.contains u.name then do
        return .values [← outer.lookup s u.name]
      else .ok .constrained
    | _ => .ok .constrained
termination_by structural e

end Unknown

namespace Expr

/-- The candidates for the variable declared at a position. In `c`, the state that is solved for
has the variable pending. -/
def candidates (e : Expr) (c : Context) (position : Nat) (form : Form) :
    Except EvalError Candidates :=
  match c.env.vars[position]? with
  | some x => Unknown.infer ⟨x, form⟩ c e c
  | none => .error ⟨e.span, .undeclared position⟩

/-- The next state of a context with the variable at `i` pending, as far as it is known. -/
def pendingSlots (c : Context) (i : Nat) : Slots :=
  .solving (((List.range c.env.vars.length).map c.next.get?).set i none)

/-- The set of the candidates for a variable in the next state, without regard to local binders. A
variable that is not mentioned keeps its value, and a disabled relation has no candidates. -/
def nextValues (e : Expr) (c : Context) (x : String) : Except EvalError Value :=
  match c.env.variableIndex? x with
  | none => .error ⟨e.span, .unboundNext x⟩
  | some i => do
    let c : Context := ⟨c.env, c.current, pendingSlots c i, []⟩
    match ← e.candidates c i .primed with
    | .disabled => return .ofElements []
    | .unmentioned => return .ofElements [← c.lookup e.span x]
    | .constrained => .error (Unknown.noSource ⟨x, .primed⟩ e.span)
    | .values vs => return .ofElements vs

end Expr

end ActionSystem
