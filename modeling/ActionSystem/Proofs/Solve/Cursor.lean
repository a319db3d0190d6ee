import ActionSystem.Solve.Cursor

/-!
# The enumeration as a search

An enumeration takes one turn after the other, with a stack of what is left to try. It gives the
same answers, in the same order, as the recursion over the variables that its stack stands for.
-/

namespace ActionSystem

namespace Answers

variable {ε α β : Type}

theorem append_done (s : Answers ε α) : (s.append fun _ => done) = s := by
  induction s with
  | done => rfl
  | fail e => rfl
  | yield a rest ih => exact congrArg (yield a) (funext fun u => ih u)

theorem append_assoc (s : Answers ε α) (more further : Unit → Answers ε α) :
    (s.append more).append further = s.append fun _ => (more ()).append further := by
  induction s with
  | done => rfl
  | fail e => rfl
  | yield a rest ih => exact congrArg (yield a) (funext fun u => ih u)

end Answers

namespace Relation

/-- The answers that agree with the values chosen so far, solving for the remaining variables in
the given order. -/
def search (r : Relation) (env : Env) (current : List Value) :
    List Nat → List (Option Value) → Answers EvalError (List Value)
  | [], slots => .ofOption? (r.accept env current slots)
  | position :: rest, slots =>
    match r.choices env current slots position with
    | .error e => .fail e
    | .ok vs => .forEach (fun v => search r env current rest (slots.set position (some v))) vs

variable {r : Relation} {env : Env} {current : List Value} {slots : List (Option Value)}
  {levels : List Level}

/-- The answers as one turn tells them. -/
theorem answers_eq (c : Cursor) :
    r.answers env current c =
      match r.turn env current c with
      | .ended => .done
      | .failed e => .fail e
      | .moved after => r.answers env current after
      | .found values after => .yield values fun _ => r.answers env current after := by
  rw [answers]
  split <;> next heq => rw [heq]

-- Nothing is left to be done at a variable that was not solved for.
theorem set_none_eq_self {p : Nat} (h : slots[p]?.join = none) : slots.set p none = slots := by
  refine List.ext_getElem? fun i => ?_
  by_cases hi : p = i
  · subst hi
    rw [List.getElem?_set_self']
    cases hs : slots[p]? with
    | none => rfl
    | some v =>
      rw [hs] at h
      exact congrArg some h.symm
  · rw [List.getElem?_set_ne hi]

-- What the values of the last variable that were not tried lead to, and then what is below it.
-- The slot of the variable may hold the value that was tried before.
theorem answers_trying {p : Nat} (vs : List Value) {held : List (Option Value)}
    (vacant : held.set p none = slots) {found : Value → Answers EvalError (List Value)}
    (deeper : ∀ v vs, r.answers env current ⟨slots.set p (some v), ⟨p, vs⟩ :: levels, true⟩ =
      (found v).append fun _ =>
        r.answers env current ⟨slots.set p (some v), ⟨p, vs⟩ :: levels, false⟩) :
    r.answers env current ⟨held, ⟨p, vs⟩ :: levels, false⟩ =
      (Answers.forEach found vs).append fun _ => r.answers env current ⟨slots, levels, false⟩ := by
  induction vs generalizing held with
  | nil =>
    have hturn : r.turn env current ⟨held, ⟨p, []⟩ :: levels, false⟩ =
        .moved ⟨held.set p none, levels, false⟩ := rfl
    rw [answers_eq, hturn, vacant]
    rfl
  | cons v vs ih =>
    have hset : held.set p (some v) = slots.set p (some v) := by rw [← vacant, List.set_set]
    have hvacant : (slots.set p (some v)).set p none = slots := by
      rw [← vacant, List.set_set, List.set_set]
    have hturn : r.turn env current ⟨held, ⟨p, v :: vs⟩ :: levels, false⟩ =
        .moved ⟨held.set p (some v), ⟨p, vs⟩ :: levels, true⟩ := rfl
    rw [answers_eq, hturn, hset]
    dsimp only
    rw [deeper, ih hvacant, Answers.forEach, Answers.append_assoc]

/-- Solving for the variables that are left gives what a search for them gives, and then what is
left to try of the earlier ones. -/
theorem answers_descending {rest : List Nat} (hrest : r.order.drop levels.length = rest)
    (nodup : rest.Nodup) (vacant : ∀ p ∈ rest, slots[p]?.join = none) :
    r.answers env current ⟨slots, levels, true⟩ =
      (r.search env current rest slots).append fun _ =>
        r.answers env current ⟨slots, levels, false⟩ := by
  induction rest generalizing slots levels with
  | nil =>
    have hnone : r.order[levels.length]? = none :=
      List.getElem?_eq_none (List.drop_eq_nil_iff.mp hrest)
    rw [answers_eq, turn_of_none hnone, search]
    rcases r.accept env current slots with e | _ | values <;> rfl
  | cons p rest ih =>
    obtain ⟨hp, nodup⟩ := List.nodup_cons.mp nodup
    obtain ⟨hvacant, vacant⟩ := List.forall_mem_cons.mp vacant
    have hposition : r.order[levels.length]? = some p := by
      rw [← List.head?_drop, hrest, List.head?_cons]
    rw [answers_eq, turn_of_some hposition, search]
    cases r.choices env current slots p with
    | error e => rfl
    | ok vs =>
      refine answers_trying vs (set_none_eq_self hvacant) fun v vs => ih ?_ nodup fun q hq => ?_
      · rw [List.length_cons, ← List.tail_drop, hrest, List.tail_cons]
      · have hne : p ≠ q := fun heq => hp (heq ▸ hq)
        rw [List.getElem?_set_ne hne]
        exact vacant q hq

/-- The assignments are found by a search in the solving order. -/
theorem assignments_eq_search (nodup : r.order.Nodup) :
    r.assignments env current =
      r.search env current r.order (List.replicate env.vars.length none) := by
  have hended : r.answers env current ⟨List.replicate env.vars.length none, [], false⟩ = .done := by
    rw [answers_eq]
    rfl
  have vacant : ∀ p ∈ r.order, (List.replicate env.vars.length (none : Option Value))[p]?.join =
      none := by
    intro p _
    rw [List.getElem?_replicate]
    split <;> rfl
  have hsearch : r.answers env current ⟨List.replicate env.vars.length none, [], true⟩ =
      (r.search env current r.order (List.replicate env.vars.length none)).append fun _ =>
        r.answers env current ⟨List.replicate env.vars.length none, [], false⟩ :=
    answers_descending List.drop_zero nodup vacant
  rw [hended, Answers.append_done] at hsearch
  exact hsearch

end Relation

end ActionSystem
