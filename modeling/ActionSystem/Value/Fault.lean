import ActionSystem.Value.Printer

/-!
# Faults of operations on values

Why an operation on values has no result, and how the fault is worded.
-/

namespace ActionSystem

inductive Fault where
  /-- An operand of another sort than the operation needs. -/
  | typeMismatch (op expected : String) (actual : Kind)
  /-- An integer result out of range. -/
  | overflow (op : String)
  | divisionByZero
  /-- A function applied outside its domain. The key is given by its text. -/
  | keyNotFound (key : String)
  | indexOutOfBounds (index : Int64) (length : Nat)
  /-- A set with too many subsets to list. -/
  | tooLarge (op : String) (size : Nat)
deriving DecidableEq

namespace Fault

def message : Fault → String
  | typeMismatch op expected actual =>
    "type mismatch in " ++ op ++ ": expected " ++ expected ++ ", got " ++ actual.name
  | overflow op => "integer overflow in " ++ op
  | divisionByZero => "division by zero"
  | keyNotFound key => "key not found: " ++ key
  | indexOutOfBounds index length =>
    "index out of bounds: index " ++ String.ofList (Integer.render index) ++ ", length " ++
      toString length
  | tooLarge op size =>
    op ++ " over a set of " ++ toString size ++ " elements is too large to enumerate"

end Fault

namespace Value

def mismatch {α : Type} (op expected : String) (v : Value) : Except Fault α :=
  .error (.typeMismatch op expected v.kind)

def expectBool (op : String) : Value → Except Fault Bool
  | .bool b => .ok b
  | v => mismatch op "Bool" v

def expectInt (op : String) : Value → Except Fault Int64
  | .int n => .ok n
  | v => mismatch op "Int" v

def expectSet (op : String) : Value → Except Fault (List Value)
  | .set xs => .ok xs
  | v => mismatch op "Set" v

def expectSeq (op : String) : Value → Except Fault (List Value)
  | .seq xs => .ok xs
  | v => mismatch op "Seq" v

end Value

end ActionSystem
