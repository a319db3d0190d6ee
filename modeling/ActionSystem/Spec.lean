import ActionSystem.Expr.Basic

/-!
# Specifications

A specification declares variables and constants and describes the initial states by a predicate,
the steps by actions, and the states that must not be left by invariants.
-/

namespace ActionSystem

structure Declaration where
  name : String
  span : Span := .none

/-- A named formula. Unless said otherwise it stands where its body stands. -/
structure Definition where
  name : String
  body : Expr
  span : Span := body.span

structure Spec where
  name : String
  vars : List Declaration := []
  constants : List Declaration := []
  init : Expr := .truth true
  actions : List Definition := []
  invariants : List Definition := []

namespace Spec

def variableNames (s : Spec) : List String := s.vars.map (·.name)

def constantNames (s : Spec) : List String := s.constants.map (·.name)

def variableIndex? (s : Spec) (x : String) : Option Nat := s.vars.findIdx? (·.name == x)

end Spec

end ActionSystem
