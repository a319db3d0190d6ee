import ActionSystem.Value.Canonical
import ActionSystem.Value.Fault

/-!
# Sets

The operations of set algebra on canonical sets.
-/

namespace ActionSystem.Value

/-- The largest set whose subsets are listed. -/
def maxPowersetBase : Nat := 20

/-- The non-empty sublists of a list. Those of a sorted list come in the order of lists. -/
def nonemptySublists : List Value → List (List Value)
  | [] => []
  | x :: xs => [x] :: ((nonemptySublists xs).map (x :: ·) ++ nonemptySublists xs)

/-- The elements of a set and `x`, and whether `x` is new among them. -/
def insertElement (x : Value) (xs : List Value) : Bool × List Value :=
  if Sorted.contains cmp x xs then (false, xs) else (true, Sorted.insert cmp x xs)

def contains (s x : Value) : Except Fault Bool := do
  let xs ← s.expectSet "\\in"
  return Sorted.contains cmp x xs

def combine (op : String) (f : List Value → List Value → List Value) (a b : Value) :
    Except Fault Value := do
  let xs ← a.expectSet op
  let ys ← b.expectSet op
  return .set (f xs ys)

def union (a b : Value) : Except Fault Value := combine "\\union" (Sorted.union cmp) a b

def inter (a b : Value) : Except Fault Value := combine "\\intersect" (Sorted.inter cmp) a b

def diff (a b : Value) : Except Fault Value := combine "\\" (Sorted.diff cmp) a b

def subsetEq (a b : Value) : Except Fault Bool := do
  let xs ← a.expectSet "\\subseteq"
  let ys ← b.expectSet "\\subseteq"
  return Sorted.subset cmp xs ys

def cardinality (a : Value) : Except Fault Value := do
  let xs ← a.expectSet "Cardinality"
  return .int (Int64.ofNat xs.length)

def powerset (a : Value) : Except Fault Value := do
  let xs ← a.expectSet "SUBSET"
  if maxPowersetBase < xs.length then .error (.tooLarge "SUBSET" xs.length)
  else return .set (.set [] :: (nonemptySublists xs).map .set)

/-- The union of sets, one after the other onto what is collected. -/
def unionOnto (collected : List Value) : List Value → Except Fault (List Value)
  | [] => return collected
  | s :: ss => do
    let xs ← s.expectSet "UNION"
    unionOnto (Sorted.union cmp collected xs) ss

def bigUnion (a : Value) : Except Fault Value := do
  let ss ← a.expectSet "UNION"
  return .set (← unionOnto [] ss)

end ActionSystem.Value
