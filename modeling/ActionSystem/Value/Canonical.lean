import ActionSystem.Value.Basic

/-!
# Canonical values

Sets and functions from their elements and entries in any order, brought into canonical form:
sets sorted without repetition, functions sorted by key with one entry for each, and a function
over exactly `1, …, n` as a sequence.
-/

namespace ActionSystem.Value

/-- The keys of the entries are `i`, `i + 1`, and so on. -/
def keysCountFrom (i : Nat) : List (Value × Value) → Bool
  | [] => true
  | e :: es => e.1 = .int (Int64.ofNat i) && keysCountFrom (i + 1) es

/-- The function with these entries, which are sorted by key. -/
def ofSortedEntries (es : List (Value × Value)) : Value :=
  if keysCountFrom 1 es then .seq (es.map (·.2)) else .fn es

def ofElements (xs : List Value) : Value := .set (Sorted.ofList cmp xs)

/-- The function with these entries. Of several entries for one key the last counts. -/
def ofEntries (es : List (Value × Value)) : Value :=
  ofSortedEntries (Sorted.ofList cmpKey es)

def ofFields (fs : List (String × Value)) : Value :=
  ofEntries (fs.map fun f => (.str f.1, f.2))

def interval (lo hi : Int64) : List Value :=
  (List.range (hi.toInt - lo.toInt + 1).toNat).map fun (k : Nat) =>
    .int (Int64.ofInt (lo.toInt + k))

/-- What a quantifier over this value ranges over: the elements of a set, the items of a
sequence, the keys of a function. -/
def elements? : Value → Option (List Value)
  | .set xs => some xs
  | .seq xs => some (Sorted.ofList cmp xs)
  | .fn es => some (es.map (·.1))
  | _ => none

/-- Sets are strictly sorted, functions are strictly sorted by key and range over no initial
segment of the positive integers, and so for all values inside. -/
inductive Canonical : Value → Prop where
  | bool (b) : Canonical (.bool b)
  | int (n) : Canonical (.int n)
  | str (s) : Canonical (.str s)
  | set {xs} (sorted : Sorted.Increasing cmp xs) (inside : ∀ x ∈ xs, Canonical x) :
      Canonical (.set xs)
  | seq {xs} (inside : ∀ x ∈ xs, Canonical x) : Canonical (.seq xs)
  | fn {es} (sorted : Sorted.Increasing cmpKey es) (proper : keysCountFrom 1 es = false)
      (keys : ∀ e ∈ es, Canonical e.1) (values : ∀ e ∈ es, Canonical e.2) : Canonical (.fn es)

@[simp] theorem ofElements_nil : ofElements [] = .set [] := rfl

-- The function without entries is the empty sequence.
@[simp] theorem ofEntries_nil : ofEntries [] = .seq [] := rfl

end ActionSystem.Value
