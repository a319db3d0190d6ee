/-!
# Source spans

Where an expression stands in its specification: a range of offsets, and the line and column of
its start. Line 0 marks an expression that was generated and stands nowhere.
-/

namespace ActionSystem

structure Span where
  start : Nat
  stop : Nat
  line : Nat
  column : Nat
deriving DecidableEq

namespace Span

/-- The span of a generated expression. -/
def none : Span := ⟨0, 0, 0, 0⟩

/-- A generated expression has no line. -/
def isGenerated (s : Span) : Bool := s.line == 0

def render (s : Span) : String :=
  if s.isGenerated then "<generated>" else toString s.line ++ ":" ++ toString s.column

def describe (s : Span) : String :=
  toString s.start ++ ".." ++ toString s.stop ++ "@" ++ toString s.line ++ ":" ++ toString s.column

@[simp] theorem isGenerated_none : none.isGenerated = true := rfl

end Span

end ActionSystem
