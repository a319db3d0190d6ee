import ActionSystem.Proofs.Solve.Sources

/-!
# Where the solver reports errors

Whatever stops an enumeration, it is reported at the relation or at an expression inside it: an
error of evaluation, whether it comes up in the inference of candidates or when an assignment is
checked in the end, and also a variable without a source of values. The one error that would have no
place, that a current value is missing, does not occur in a current state with values for all
variables.
-/

namespace ActionSystem

open Result (Fails)

def EvalError.Within (e : Expr) (err : EvalError) : Prop := ∃ p : Expr, p.Occurs e ∧ p.span = err.span

theorem EvalError.ArisesIn.within {e : Expr} {err : EvalError} (h : err.ArisesIn e) :
    err.Within e := by
  obtain ⟨p, occurs, hat⟩ := h
  exact ⟨p, occurs, hat.span.symm⟩

open EvalError (Within)

namespace Relation

variable {r : Relation} {env : Env} {current : List Value} {slots : List (Option Value)}
  {position : Nat} {x : String}

-- In a state with values for all variables no current value is missing.
theorem not_misses (wide : r.form = .primed → current.length = env.vars.length)
    (hx : env.vars[position]? = some x) (err : EvalError) :
    ¬ (Unknown.mk x r.form).Misses (r.partialContext env current slots) err := by
  intro h
  obtain ⟨hform, hnone, -⟩ := h
  have hform : r.form = .primed := hform
  obtain ⟨i, hi⟩ := Option.isSome_iff_exists.mp (Env.isSome_variableIndex? hx)
  have hlt : i < current.length := by
    rw [wide hform]
    exact (List.findIdx?_eq_some_iff_getElem.mp hi).1
  have hvalue : (r.partialContext env current slots).value? x = some current[i] := by
    rw [Context.value?, env_partialContext, hi]
    unfold partialContext
    rw [hform]
    exact List.getElem?_eq_getElem hlt
  rw [hvalue] at hnone
  cases hnone

/-- The errors at the choices for a variable are within the relation. -/
theorem fails_choices (wide : r.form = .primed → current.length = env.vars.length)
    (slots : List (Option Value)) (position : Nat) :
    Fails (Within r.body) (r.choices env current slots position) := by
  have here (cause : Cause) : Within r.body ⟨r.body.span, cause⟩ := ⟨r.body, .here, rfl⟩
  have candidates : Fails (Within r.body)
      (r.body.candidates (r.partialContext env current slots) position r.form) := by
    unfold Expr.candidates
    rw [env_partialContext]
    cases hx : env.vars[position]? with
    | none => exact .error (here _)
    | some x =>
      refine (Unknown.fails_infer _ _ _ _).mono fun err herr => ?_
      rcases herr with harises | hmisses
      · exact harises.within
      · exact absurd hmisses (not_misses wide hx err)
  refine .bind candidates fun a _ => ?_
  cases a with
  | disabled => exact .pure
  | values vs => exact .pure
  | constrained => exact .error (here _)
  | unmentioned =>
    cases r.form with
    | primed => exact .pure
    | unprimed => exact .error (here _)

/-- What stops the enumeration of the states that satisfy a relation is reported within it. -/
theorem fails_states (ordered : r.IsOrdered env)
    (wide : r.form = .primed → current.length = env.vars.length) :
    Fails (Within r.body) (r.states env current) := by
  intro err h
  have hsearch := exists_of_search_eq_error ordered.nodup (states_eq_error ordered h)
    ordered.pending_replicate
  rcases hsearch with ⟨_, position, _, slots, -, -, hchoices⟩ | ⟨slots, haccept⟩
  · exact fails_choices wide slots position err hchoices
  · exact (r.fails_accept env current slots err haccept).within

end Relation

end ActionSystem
