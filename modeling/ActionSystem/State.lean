import ActionSystem.Fingerprint
import ActionSystem.Value.Printer

/-!
# States

A state gives each declared variable a value, by position. States are ordered by their values in
declared order.
-/

namespace ActionSystem

/-- The values of the variables, in declared order. -/
structure State where
  values : List Value
deriving DecidableEq

inductive BindingError where
  | missing (x : String)
  | unknown (x : String)
  | duplicate (x : String)
deriving DecidableEq

namespace BindingError

def message : BindingError → String
  | missing x => "variable '" ++ x ++ "' is not bound"
  | unknown x => "'" ++ x ++ "' is not a declared variable"
  | duplicate x => "variable '" ++ x ++ "' is bound twice"

end BindingError

namespace State

def cmp (s t : State) : Ordering := Value.cmpAll s.values t.values

/-- The fingerprint, with a digest for the values that are neither integers nor truth values. -/
def fingerprint (nested : Nat → Value → UInt64) (s : State) : Fingerprint :=
  .ofValues nested s.values

/-- Equality that compares the fingerprints first. -/
def same (fp : State → Fingerprint) (s t : State) : Bool := fp s = fp t && s.values = t.values

def get? (s : State) (position : Nat) : Option Value := s.values[position]?

/-! ## Bindings -/

def bindAll (vars : List String) (slots : List (Option Value)) :
    List (String × Value) → Except BindingError (List (Option Value))
  | [] => .ok slots
  | (x, v) :: bs =>
    match vars.findIdx? (· == x) with
    | none => .error (.unknown x)
    | some i =>
      if (slots[i]?.join).isSome then .error (.duplicate x)
      else bindAll vars (slots.set i (some v)) bs

def valuesOf : List String → List (Option Value) → Except BindingError (List Value)
  | x :: xs, slot :: slots => do
    match slot with
    | none => .error (.missing x)
    | some v => return v :: (← valuesOf xs slots)
  | _, _ => .ok []

def ofBindings (vars : List String) (bs : List (String × Value)) : Except BindingError State := do
  let slots ← bindAll vars (List.replicate vars.length none) bs
  return ⟨← valuesOf vars slots⟩

/-! ## Text -/

def render (s : State) : String :=
  "[" ++ ", ".intercalate (s.values.map Value.render) ++ "]"

def renderNamed (vars : List String) (s : State) : String :=
  " ".intercalate ((vars.zip s.values).map fun p => "/\\ " ++ p.1 ++ " = " ++ p.2.render)

/-- Comparing the fingerprints first changes nothing, whatever they are. -/
theorem same_iff {fp : State → Fingerprint} {s t : State} : s.same fp t = true ↔ s = t := by
  cases s; cases t
  simp only [same, Bool.and_eq_true, decide_eq_true_eq, State.mk.injEq]
  exact ⟨(·.2), fun h => ⟨by simp [h], h⟩⟩

end State

end ActionSystem
