import ActionSystem.Expr.References

/-!
# Solving order

The order in which the variables of a relation are solved for. A variable whose defining
expression refers to another one comes after it: the other side of an equation, the set of a
membership, and every condition, domain or local definition around them are defining. Variables
that hang on each other in a circle, and all that is left then, keep their declared order.
-/

namespace ActionSystem

/-- The first variable depends on the second. Variables are given by their declared position. -/
abbrev Dependency := Nat × Nat

namespace Expr

def position? (vars : List String) (x : String) : Option Nat := vars.findIdx? (· == x)

def targetsIn (vars : List String) (form : Form) (bound : List String) (e : Expr) : List Nat :=
  (e.namesIn form bound).filterMap (position? vars)

def target? (vars : List String) (form : Form) (bound : List String) : Expr → Option Nat
  | primed _ x => if form = .primed then position? vars x else none
  | name _ x =>
    if form = .unprimed && !bound.contains x then position? vars x else none
  | _ => none

/-- If `side` is a variable, it depends on what `other` refers to and on the `context`. -/
def definedBy (vars : List String) (form : Form) (bound : List String) (context : List Nat)
    (side other : Expr) : List Dependency :=
  match target? vars form bound side with
  | some v => (targetsIn vars form bound other ++ context).map fun w => (v, w)
  | none => []

/-- The dependencies between the variables of a relation. `context` holds the variables that the
conditions, domains and local definitions around the expression refer to. -/
def dependencies (vars : List String) (form : Form) :
    Expr → List String → List Nat → List Dependency
  | binary _ .eq l r, bound, context =>
    definedBy vars form bound context l r ++ definedBy vars form bound context r l
  | binary _ .mem l r, bound, context => definedBy vars form bound context l r
  | binary _ .iff l r, bound, context | logical _ _ l r, bound, context =>
    dependencies vars form l bound context ++ dependencies vars form r bound context
  | ite _ c t e, bound, context =>
    dependencies vars form t bound (targetsIn vars form bound c ++ context) ++
      dependencies vars form e bound (targetsIn vars form bound c ++ context)
  | bind _ .all x d e, bound, context | bind _ .any x d e, bound, context
  | letIn _ x d e, bound, context =>
    dependencies vars form e (x :: bound) (targetsIn vars form bound d ++ context)
  | unary _ .not e, bound, context | unary _ .neg e, bound, context =>
    dependencies vars form e bound context
  | _, _, _ => []

def isReady (deps : List Dependency) (left : List Nat) (v : Nat) : Bool :=
  deps.all fun d => d.1 != v || d.2 == v || !left.contains d.2

/-- Take the first ready variable again and again; if none is, take the rest as it is. Each turn
takes one variable, so that there are at most as many turns as variables. -/
def arrange (deps : List Dependency) : Nat → List Nat → List Nat
  | 0, left => left
  | turns + 1, left =>
    match left.find? (isReady deps left) with
    | some v => v :: arrange deps turns (left.erase v)
    | none => left

def solvingOrder (vars : List String) (form : Form) (e : Expr) : List Nat :=
  arrange (dependencies vars form e [] []) vars.length (List.range vars.length)

end Expr

end ActionSystem
