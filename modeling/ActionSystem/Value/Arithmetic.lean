import ActionSystem.Value.Fault

/-!
# Arithmetic on values

Exact integer arithmetic: a result out of range is a fault, not a wrapped number. Division goes
to the floor, and the remainder has the sign of the divisor: both are found by correcting a
division that is cut off at the point.
-/

namespace ActionSystem.Value

def ofInt (op : String) (n : Int) : Except Fault Value :=
  match Integer.ofInt? n with
  | some m => .ok (.int m)
  | none => .error (.overflow op)

def intOperands (op : String) (a b : Value) : Except Fault (Int64 × Int64) := do
  let m ← a.expectInt op
  let n ← b.expectInt op
  return (m, n)

def add (a b : Value) : Except Fault Value := do
  let (m, n) ← intOperands "+" a b
  ofInt "+" (m.toInt + n.toInt)

def sub (a b : Value) : Except Fault Value := do
  let (m, n) ← intOperands "-" a b
  ofInt "-" (m.toInt - n.toInt)

def mul (a b : Value) : Except Fault Value := do
  let (m, n) ← intOperands "*" a b
  ofInt "*" (m.toInt * n.toInt)

/-- Division to the floor: one less than the quotient that is cut off, if what is cut off lies below
it. -/
def div (a b : Value) : Except Fault Value := do
  let (m, n) ← intOperands "\\div" a b
  if n = 0 then .error .divisionByZero
  else
    match Integer.quotient? m n with
    | none => .error (.overflow "\\div")
    | some q => return .int (if m % n ≠ 0 ∧ Integer.opposed m n then q - 1 else q)

/-- The remainder of division to the floor: a remainder of the other sign than the divisor is moved
by it. -/
def mod (a b : Value) : Except Fault Value := do
  let (m, n) ← intOperands "%" a b
  if n = 0 then .error .divisionByZero
  else
    match Integer.remainder? m n with
    | none => .error (.overflow "%")
    | some r => return .int (if r ≠ 0 ∧ Integer.opposed r n then r + n else r)

def neg (a : Value) : Except Fault Value := do
  let m ← a.expectInt "-"
  ofInt "-" (-m.toInt)

def compareInt (op : String) (a b : Value) : Except Fault Ordering := do
  let (m, n) ← intOperands op a b
  return compare m.toInt n.toInt

end ActionSystem.Value
