import ActionSystem.Solve.Relation
import ActionSystem.Solve.Answers
import ActionSystem.State

/-!
# Enumeration of assignments

The assignments that satisfy a relation are enumerated depth-first, on demand. A cursor holds the
values chosen so far and, for each variable that has one, the values that were not tried yet. It
takes one turn at a time: solve for the next variable, try the next value, or go back.
-/

namespace ActionSystem

namespace Relation

/-- A variable on the way to an assignment, with the values for it that were not tried yet. -/
structure Level where
  position : Nat
  untried : List Value

structure Cursor where
  /-- The values chosen so far. -/
  slots : List (Option Value)
  /-- The variables that were solved for, the last one first. -/
  levels : List Level
  /-- A value was just chosen, so that the next variable is to be solved for. -/
  descends : Bool

inductive Turn where
  | ended
  | failed (e : EvalError)
  | moved (after : Cursor)
  | found (values : List Value) (after : Cursor)

/-- Solve for the next variable in the order, or check the assignment if there is none left. Then
try the values of the last variable. When all were tried, it is pending again. -/
def turn (r : Relation) (env : Env) (current : List Value) (c : Cursor) : Turn :=
  if c.descends then
    match r.order[c.levels.length]? with
    | none =>
      match r.accept env current c.slots with
      | .error e => .failed e
      | .ok none => .moved { c with descends := false }
      | .ok (some values) => .found values { c with descends := false }
    | some position =>
      match r.choices env current c.slots position with
      | .error e => .failed e
      | .ok vs => .moved ⟨c.slots, ⟨position, vs⟩ :: c.levels, false⟩
  else
    match c.levels with
    | [] => .ended
    | ⟨position, []⟩ :: below => .moved ⟨c.slots.set position none, below, false⟩
    | ⟨position, v :: vs⟩ :: below =>
      .moved ⟨c.slots.set position (some v), ⟨position, vs⟩ :: below, true⟩

/-! ## Termination -/

inductive Follows (r : Relation) (env : Env) (current : List Value) : Cursor → Cursor → Prop where
  | moved {before after : Cursor} :
    r.turn env current before = .moved after → Follows r env current after before
  | found {before after : Cursor} {values : List Value} :
    r.turn env current before = .found values after → Follows r env current after before

section Termination

variable {r : Relation} {env : Env} {current : List Value} {slots : List (Option Value)}
  {levels : List Level} {position : Nat}

theorem turn_of_none (h : r.order[levels.length]? = none) :
    r.turn env current ⟨slots, levels, true⟩ =
      match r.accept env current slots with
      | .error e => .failed e
      | .ok none => .moved ⟨slots, levels, false⟩
      | .ok (some values) => .found values ⟨slots, levels, false⟩ := by
  rw [turn, if_pos rfl, h]

theorem turn_of_some (h : r.order[levels.length]? = some position) :
    r.turn env current ⟨slots, levels, true⟩ =
      match r.choices env current slots position with
      | .error e => .failed e
      | .ok vs => .moved ⟨slots, ⟨position, vs⟩ :: levels, false⟩ := by
  rw [turn, if_pos rfl, h]

-- The values of the last variable are tried one after the other, and then it is given up.
theorem acc_trying (vs : List Value)
    (below : ∀ slots, Acc (r.Follows env current) ⟨slots, levels, false⟩)
    (deeper : ∀ slots vs,
      (∀ slots, Acc (r.Follows env current) ⟨slots, ⟨position, vs⟩ :: levels, false⟩) →
      Acc (r.Follows env current) ⟨slots, ⟨position, vs⟩ :: levels, true⟩)
    (slots : List (Option Value)) :
    Acc (r.Follows env current) ⟨slots, ⟨position, vs⟩ :: levels, false⟩ := by
  induction vs generalizing slots with
  | nil =>
    refine ⟨_, fun after h => ?_⟩
    rcases h with h | h <;> cases h
    exact below _
  | cons v vs ih =>
    refine ⟨_, fun after h => ?_⟩
    rcases h with h | h <;> cases h
    exact deeper _ _ ih

-- By induction on the number of variables that are left.
theorem acc_descending {left : Nat} (hleft : r.order.length - levels.length = left)
    (below : ∀ slots, Acc (r.Follows env current) ⟨slots, levels, false⟩)
    (slots : List (Option Value)) : Acc (r.Follows env current) ⟨slots, levels, true⟩ := by
  induction left generalizing levels slots with
  | zero =>
    have hnone : r.order[levels.length]? = none := List.getElem?_eq_none (by omega)
    refine ⟨_, fun after h => ?_⟩
    rcases h with h | h <;> rw [turn_of_none hnone] at h <;> split at h <;> cases h <;>
      exact below _
  | succ left ih =>
    obtain ⟨position, hposition⟩ : ∃ position, r.order[levels.length]? = some position :=
      ⟨_, List.getElem?_eq_getElem (by omega)⟩
    refine ⟨_, fun after h => ?_⟩
    rcases h with h | h <;> rw [turn_of_some hposition] at h <;> split at h <;> cases h
    exact acc_trying _ below (fun slots vs trying => ih (by simp; omega) trying slots) _

theorem acc_ascending (slots : List (Option Value)) :
    Acc (r.Follows env current) ⟨slots, levels, false⟩ := by
  induction levels generalizing slots with
  | nil =>
    refine ⟨_, fun after h => ?_⟩
    rcases h with h | h <;> cases h
  | cons level levels ih => exact acc_trying _ ih (fun _ _ trying => acc_descending rfl trying _) _

/-- No enumeration goes on forever. -/
theorem wellFounded_follows (r : Relation) (env : Env) (current : List Value) :
    WellFounded (r.Follows env current) := by
  refine ⟨fun ⟨slots, levels, descends⟩ => ?_⟩
  cases descends with
  | false => exact acc_ascending slots
  | true => exact acc_descending rfl acc_ascending slots

end Termination

def answers (r : Relation) (env : Env) (current : List Value) (c : Cursor) :
    Answers EvalError (List Value) :=
  match _h : r.turn env current c with
  | .ended => .done
  | .failed e => .fail e
  | .moved after => answers r env current after
  | .found values after => .yield values fun _ => answers r env current after
termination_by (r.wellFounded_follows env current).wrap c
decreasing_by
  · exact .moved ‹_›
  · exact .found ‹_›

def start (env : Env) : Cursor := ⟨List.replicate env.vars.length none, [], true⟩

/-- The assignments that satisfy the relation. For an action they are the next states of the
`current` one; for an initial predicate `current` does not count. -/
def assignments (r : Relation) (env : Env) (current : List Value) :
    Answers EvalError (List Value) :=
  r.answers env current (start env)

def states (r : Relation) (env : Env) (current : List Value) : Except EvalError (List State) := do
  let found ← (r.assignments env current).collect
  return Sorted.ofList State.cmp (found.map .mk)

end Relation

end ActionSystem
