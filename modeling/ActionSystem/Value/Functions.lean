import ActionSystem.Value.Canonical
import ActionSystem.Value.Fault

/-!
# Functions and sequences

A sequence is a function over `1, …, n`: both can be applied, updated at one key and asked for
their domain. The operations on sequences and the concatenation of strings are here too.
-/

namespace ActionSystem.Value

def valueAt? (key : Value) (es : List (Value × Value)) : Option Value :=
  (Sorted.find? (fun e => cmp key e.1) es).map (·.2)

/-- The item at an index. Indices start from 1. -/
def itemAt? (index : Int64) (xs : List Value) : Option Value :=
  if 1 ≤ index.toInt then xs[(index.toInt - 1).toNat]? else none

def apply (f arg : Value) : Except Fault Value :=
  match f with
  | .fn es =>
    match valueAt? arg es with
    | some v => .ok v
    | none => .error (.keyNotFound arg.render)
  | .seq xs => do
    let i ← arg.expectInt "function application"
    match itemAt? i xs with
    | some v => .ok v
    | none => .error (.indexOutOfBounds i xs.length)
  | v => mismatch "function application" "Fn or Seq" v

def field (r : Value) (name : String) : Except Fault Value :=
  match r with
  | .fn es =>
    match valueAt? (.str name) es with
    | some v => .ok v
    | none => .error (.keyNotFound name)
  | v => mismatch "field access" "Fn" v

/-- The function with another value at one key of its domain. -/
def except (f key v : Value) : Except Fault Value :=
  match f with
  | .fn es =>
    if (valueAt? key es).isSome then .ok (.fn (Sorted.insert cmpKey (key, v) es))
    else .error (.keyNotFound key.render)
  | .seq xs => do
    let i ← key.expectInt "EXCEPT"
    if (itemAt? i xs).isSome then .ok (.seq (xs.set (i.toInt - 1).toNat v))
    else .error (.indexOutOfBounds i xs.length)
  | f => mismatch "EXCEPT" "Fn or Seq" f

def domain (f : Value) : Except Fault Value :=
  match f with
  | .fn es => .ok (.set (es.map (·.1)))
  | .seq xs => .ok (.set (interval 1 (Int64.ofNat xs.length)))
  | v => mismatch "DOMAIN" "Fn or Seq" v

/-! ## Sequences -/

def len (s : Value) : Except Fault Value := do
  let xs ← s.expectSeq "Len"
  return .int (Int64.ofNat xs.length)

def head (s : Value) : Except Fault Value := do
  match ← s.expectSeq "Head" with
  | [] => .error (.indexOutOfBounds 1 0)
  | x :: _ => return x

def tail (s : Value) : Except Fault Value := do
  match ← s.expectSeq "Tail" with
  | [] => .error (.indexOutOfBounds 1 0)
  | _ :: xs => return .seq xs

def append (s x : Value) : Except Fault Value := do
  let xs ← s.expectSeq "Append"
  return .seq (xs ++ [x])

def concat (a b : Value) : Except Fault Value :=
  match a, b with
  | .seq xs, .seq ys => .ok (.seq (xs ++ ys))
  | .str s, .str t => .ok (.str (s ++ t))
  | .seq _, b => mismatch "\\o" Kind.seq.name b
  | .str _, b => mismatch "\\o" Kind.str.name b
  | a, _ => mismatch "\\o" "Seq or String" a

end ActionSystem.Value
