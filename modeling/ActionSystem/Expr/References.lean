import ActionSystem.Expr.Basic
import ActionSystem.Sorted.Basic

/-!
# References

Which variables an expression refers to, and in which form. All static questions about an
expression are asked of the list of its free references, in order of evaluation.
-/

namespace ActionSystem

/-- The form in which a variable is referred to. -/
inductive Form where
  /-- In the next state: `x'`, and `UNCHANGED x`. -/
  | primed
  /-- In the current state: a name that no binder takes, and `UNCHANGED x`. -/
  | unprimed
deriving DecidableEq

inductive Reference where
  /-- A name that no binder of the expression takes. -/
  | name (x : String)
  | primed (x : String)
  /-- A frame condition `UNCHANGED` with its names, below binders of the names `bound`. -/
  | frame (names bound : List String)
deriving DecidableEq

namespace Reference

def names : Form → Reference → List String
  | .unprimed, name x => [x]
  | .unprimed, primed _ => []
  | .unprimed, frame xs bound => xs.filter fun x => !bound.contains x
  | .primed, name _ => []
  | .primed, primed x => [x]
  | .primed, frame xs _ => xs

def isPrimed : Reference → Bool
  | name _ => false
  | primed _ | frame _ _ => true

end Reference

namespace Expr

mutual

/-- The free references of an expression below binders of the names `bound`. -/
def references : Expr → List String → List Reference
  | literal _ _, _ => []
  | name _ x, bound => if bound.contains x then [] else [.name x]
  | primed _ x, _ => [.primed x]
  | unchanged _ xs, bound => [.frame xs bound]
  | unary _ _ e, bound | field _ e _, bound => references e bound
  | logical _ _ l r, bound | binary _ _ l r, bound | range _ l r, bound | apply _ l r, bound
  | append _ l r, bound => references l bound ++ references r bound
  | set _ es, bound | seq _ es, bound => referencesAll es bound
  | record _ fs, bound => referencesFields fs bound
  | except _ f k v, bound => references f bound ++ (references k bound ++ references v bound)
  | bind _ _ x d e, bound => references d bound ++ references e (x :: bound)
  | letIn _ x v e, bound => references v bound ++ references e (x :: bound)
  | ite _ c t e, bound => references c bound ++ (references t bound ++ references e bound)
termination_by structural e => e

def referencesAll : List Expr → List String → List Reference
  | [], _ => []
  | e :: es, bound => references e bound ++ referencesAll es bound
termination_by structural es => es

def referencesFields : List (String × Expr) → List String → List Reference
  | [], _ => []
  | (_, e) :: fs, bound => references e bound ++ referencesFields fs bound
termination_by structural fs => fs

end

/-- The names referred to in one form below binders of the names `bound`, as they come. -/
def namesIn (form : Form) (e : Expr) (bound : List String) : List String :=
  (e.references bound).flatMap (·.names form)

def vars (form : Form) (e : Expr) : List String :=
  Sorted.ofList compare (e.namesIn form [])

def mentionsNext (e : Expr) : Bool := (e.references []).any (·.isPrimed)

structure Footprint where
  reads : List String
  writes : List String

def footprint (e : Expr) : Footprint := ⟨e.vars .unprimed, e.vars .primed⟩

end Expr

end ActionSystem
