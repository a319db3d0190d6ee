import ActionSystem.Eval.Error

/-!
# Contexts

What an expression is evaluated against: the declared names, the values of the constants, the
current and the next state as far as they are known, and the local binders.
-/

namespace ActionSystem

structure Env where
  vars : List String
  constants : List String := []
  /-- The values of the constants, in the order of their names. -/
  values : List Value := []

namespace Env

/-- The position of a variable: that of the first declaration of the name. -/
def variableIndex? (env : Env) (x : String) : Option Nat := env.vars.findIdx? (· == x)

def constant? (env : Env) (x : String) : Option Value :=
  (env.constants.findIdx? (· == x)).bind fun i => env.values[i]?

end Env

/-- The values of the variables in one state, by position. -/
inductive Slots where
  /-- There is no such state. -/
  | absent
  /-- A complete state. -/
  | total (values : List Value)
  /-- A state that is being solved for: some variables are pending. -/
  | solving (values : List (Option Value))

namespace Slots

def get? : Slots → Nat → Option Value
  | absent, _ => none
  | total vs, i => vs[i]?
  | solving vs, i => vs[i]?.join

/-- The variable at this position is still to be solved for. -/
def isPending : Slots → Nat → Bool
  | solving vs, i => vs[i]? = some none
  | _, _ => false

end Slots

structure Context where
  env : Env
  /-- The current state. -/
  current : Slots
  /-- The next state. -/
  next : Slots := .absent
  /-- The local binders, innermost first. -/
  locals : List (String × Value) := []

namespace Context

def ofState (env : Env) (current : List Value) : Context := ⟨env, .total current, .absent, []⟩

def ofStep (env : Env) (current next : List Value) : Context :=
  ⟨env, .total current, .total next, []⟩

def bind (c : Context) (x : String) (v : Value) : Context := { c with locals := (x, v) :: c.locals }

/-- The value of the innermost binder of a name. -/
def local? (c : Context) (x : String) : Option Value := c.locals.lookup x

def isLocal (c : Context) (x : String) : Bool := (c.local? x).isSome

/-- The value of a name, if it has one: that of a binder, else of the variable of the current
state, else of the constant. A variable hides a constant even while it has no value. -/
def value? (c : Context) (x : String) : Option Value :=
  match c.local? x with
  | some v => some v
  | none =>
    match c.env.variableIndex? x with
    | some i => c.current.get? i
    | none => c.env.constant? x

def nextValue? (c : Context) (x : String) : Option Value :=
  (c.env.variableIndex? x).bind c.next.get?

def lookup (c : Context) (span : Span) (x : String) : Except EvalError Value :=
  match c.value? x with
  | some v => .ok v
  | none => .error ⟨span, .unbound x⟩

def lookupNext (c : Context) (span : Span) (x : String) : Except EvalError Value :=
  match c.nextValue? x with
  | some v => .ok v
  | none => .error ⟨span, .unboundNext x⟩

/-- Each of the names has the same value in both states. The names are looked at in order until
one differs. -/
def isUnchanged (c : Context) (span : Span) : List String → Except EvalError Bool
  | [] => return true
  | x :: xs => do
    let v ← c.lookup span x
    let w ← c.lookupNext span x
    if v = w then c.isUnchanged span xs else return false

end Context

end ActionSystem
