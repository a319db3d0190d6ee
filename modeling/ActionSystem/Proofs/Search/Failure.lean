import ActionSystem.Proofs.Enabling
import ActionSystem.Proofs.Search.History
import ActionSystem.Proofs.Search.Keeping
import ActionSystem.Proofs.Search.Walks
import ActionSystem.Proofs.Solve.Location

/-!
# Failures

A check or a walk that fails has evaluated the initial predicate, or an action or an invariant in a
state that can be reached, and passes on the error that came up there. The error names that part of
the specification and is reported within its body.
-/

namespace ActionSystem

open Result (Fails)

inductive Spec.Component (spec : Spec) : Phase → Expr → Prop where
  | init : Component spec .init spec.init
  | action {d : Definition} (listed : d ∈ spec.actions) : Component spec (.action d.name) d.body
  | invariant {d : Definition} (listed : d ∈ spec.invariants) :
      Component spec (.invariant d.name) d.body

/-! ## Searches -/

namespace Run

variable {fp : State → Fingerprint} {m : Model} {c : Config}

def Blames (m : Model) (_ : Run) : Stop → Prop
  | .error e => m.FailsWith e
  | _ => True

theorem keeps_blames (fp : State → Fingerprint) (m : Model) (c : Config) :
    Keeps fp m c (fun _ => True) (Blames m) where
  discover := by
    intro r e h link
    have reachable : m.Reachable e.state := ⟨e.depth, link.reachedIn h.rooted⟩
    unfold discover
    split
    · trivial
    · split
      · trivial
      · simp only []
        cases hv : m.violation? e.state with
        | error err => exact Model.fails_violation? reachable _ hv
        | ok found => cases found <;> trivial
  fails := fun _ _ _ fails => fails
  stops := by
    intro r stop _ other
    cases stop with
    | error e => exact absurd rfl (other e)
    | violation | deadlock | limit => trivial

end Run

/-! ## Walks -/

namespace Model

variable {m : Model} {γ : Type} {c : Chooser γ} {s : State}

theorem fails_stepsFrom (h : m.Reachable s) {start : Nat} {rs : List Relation}
    (hrs : m.actions.drop start = rs) : Fails m.FailsWith (m.stepsFrom s start rs) := by
  induction rs generalizing start with
  | nil => exact .ok
  | cons r rs ih =>
    obtain ⟨hget, hdrop⟩ := getElem?_of_drop_eq_cons hrs
    refine .bind (fun e he => ?_) fun _ _ => .bind (ih hdrop) fun _ _ => .pure
    obtain ⟨err, herr, rfl⟩ := Phase.run_eq_error.mp he
    rw [successors, hget] at herr
    exact .action h (List.mem_of_getElem? hget) herr

theorem fails_walkOn (lawful : c.Lawful) {step : TraceStep} (h : m.Reachable step.state)
    (taken : List TraceStep) (n : Nat) (g : γ) :
    Fails m.FailsWith (m.walkOn c taken step n g) := by
  induction n generalizing step taken g with
  | zero =>
    unfold walkOn
    refine .bind (fails_violation? h) fun found _ => ?_
    cases found <;> exact .pure
  | succ n ih =>
    unfold walkOn
    refine .bind (fails_violation? h) fun found _ => ?_
    cases found with
    | some v => exact .pure
    | none =>
      refine .bind (fails_stepsFrom h rfl) fun all hall => ?_
      cases hchosen : c.choose all g with
      | mk chosen g' =>
        cases chosen with
        | none => exact .pure
        | some next =>
          obtain ⟨action, name, -, -, move⟩ :=
            (stepsOf_of_stepsFrom rfl hall).follows next (lawful.mem hchosen) step rfl
          exact ih (h.successor move) _ g'

/-- A walk fails with an error of the model, whatever choices are made on the way. -/
theorem fails_walk (lawful : c.Lawful) (n : Nat) (g : γ) :
    Fails m.FailsWith (m.walk c n g) := by
  unfold walk
  refine .bind (fun e he => ?_) fun all hall => ?_
  · obtain ⟨err, herr, rfl⟩ := Phase.run_eq_error.mp he
    exact .initial herr
  · have hinitial : m.initialStates = .ok all := Phase.run_eq_ok.mp hall
    cases hchosen : c.choose all g with
    | mk chosen g' =>
      cases chosen with
      | none => exact .error (.nothing (lawful.eq_nil hchosen ▸ hinitial))
      | some s =>
        exact fails_walkOn lawful ⟨0, .initial ⟨all, hinitial, lawful.mem hchosen⟩⟩ [] n g'

/-! ## Components -/

variable {spec : Spec} {constants : List Value}

/-- An evaluation error of a model names a component of the specification, and is reported within
its body. -/
theorem FailsWith.within {err : EvalError} {phase : Phase}
    (h : (ofSpec spec constants).FailsWith (.eval err phase)) :
    ∃ body, spec.Component phase body ∧ err.Within body := by
  cases h with
  | initial error =>
    have ordered := Relation.isOrdered_initial spec.init (ofSpec spec constants).env
    exact ⟨_, .init, Relation.fails_states ordered (fun h => by cases h) err error⟩
  | @action s r _ reachable listed error =>
    obtain ⟨d, hd, rfl⟩ := List.mem_map.mp listed
    obtain ⟨n, path⟩ := reachable
    have ordered := Relation.isOrdered_action d.name d.body (ofSpec spec constants).env
    have wide : s.values.length = (ofSpec spec constants).env.vars.length :=
      path.length_eq.trans (length_vars spec constants).symm
    exact ⟨_, .action hd, Relation.fails_states ordered (fun _ => wide) err error⟩
  | @invariant _ d _ reachable listed error =>
    exact ⟨_, .invariant listed, (d.body.fails_holds _ err error).within⟩

end Model

namespace Explorer

variable {fp : State → Fingerprint} {x : Explorer} {e : CheckError}

/-- The explorer reports an error from a check or from a walk, whatever fingerprints the check works
with and whatever choices are made on the walk. -/
inductive Reports (x : Explorer) (e : CheckError) : Prop where
  | check (fp : State → Fingerprint) (around : Surroundings)
      (error : (x.check fp around).1 = .error e) : Reports x e
  | simulate {γ : Type} (c : Chooser γ) (lawful : c.Lawful) (steps : Nat) (seed : UInt64)
      (error : x.simulate c steps seed = .error e) : Reports x e

theorem failsWith_of_check {around : Surroundings} (h : (x.check fp around).1 = .error e) :
    x.model.FailsWith e := by
  have hsearch := Run.explore_keeps (Run.keeps_blames fp x.model x.config) around
    (Run.grounded_fresh x.model x.run.progress trivial)
  rw [check_eq] at h
  change Outlook.Meets _ (Run.Blames x.model) (x.search fp around) at hsearch
  cases hr : x.search fp around with
  | mk run stop =>
    rw [hr] at h hsearch
    cases stop with
    | none => cases h
    | some stop =>
      cases stop with
      | error e' =>
        cases h
        exact hsearch
      | violation | deadlock | limit => cases h

/-- Whatever error is reported, it comes up in the model. -/
theorem Reports.failsWith (h : x.Reports e) : x.model.FailsWith e := by
  cases h with
  | check fp around error => exact failsWith_of_check error
  | simulate c lawful steps seed error =>
    exact Model.fails_walk lawful steps (c.ofSeed seed) e error

theorem model_of_new {spec : Spec} {constants : List Value} {config : Config}
    (h : new spec constants config = .ok x) : x.model = .ofSpec spec constants := by
  unfold new at h
  split at h
  · cases h
  · split at h
    · cases h
    · cases h
      rfl

/-- An evaluation error that a check or a walk reports, whatever was done before, is attributed to
the initial predicate, an action or an invariant of the specification, and carries the span of an
expression that occurs in its body. -/
theorem exists_occurs_of_reports {spec : Spec} {constants : List Value} {config : Config}
    (created : new spec constants config = .ok x) {calls : List Call} {err : EvalError}
    {phase : Phase} (h : (x.after calls).Reports (.eval err phase)) :
    ∃ body, spec.Component phase body ∧ ∃ p : Expr, p.Occurs body ∧ p.span = err.span := by
  have hmodel : (x.after calls).model = x.model := by
    rw [after_eq]
  have hfails := h.failsWith
  rw [hmodel, model_of_new created] at hfails
  exact hfails.within

/-- From `x = 1` by the action `6 \div (3 - x) > 0 /\ x' = x + 1` -/
def dividing : Spec where
  name := "Dividing"
  vars := [⟨"x", ⟨9, 10, 2, 5⟩⟩]
  init := .binary ⟨18, 23, 3, 8⟩ .eq (.name ⟨18, 19, 3, 8⟩ "x") (.literal ⟨22, 23, 3, 12⟩ (.int 1))
  actions := [{
    name := "Divide"
    body := .logical ⟨34, 68, 4, 11⟩ .and
      (.binary ⟨34, 53, 4, 11⟩ .gt
        (.binary ⟨34, 49, 4, 11⟩ .div (.literal ⟨34, 35, 4, 11⟩ (.int 6))
          (.binary ⟨42, 49, 4, 19⟩ .sub (.literal ⟨43, 44, 4, 20⟩ (.int 3))
            (.name ⟨47, 48, 4, 24⟩ "x")))
        (.literal ⟨52, 53, 4, 29⟩ (.int 0)))
      (.binary ⟨57, 67, 4, 34⟩ .eq (.primed ⟨57, 59, 4, 34⟩ "x")
        (.binary ⟨62, 67, 4, 39⟩ .add (.name ⟨62, 63, 4, 39⟩ "x")
          (.literal ⟨66, 67, 4, 43⟩ (.int 1)))) }]

-- In the third state the divisor is zero. The error is reported at the quotient.
theorem exists_occurs_of_reports_dividing :
    let x : Explorer := ⟨.ofSpec dividing [], {}, .fresh (.ofSpec dividing []) {}⟩
    let err : EvalError := ⟨⟨34, 49, 4, 11⟩, .fault .divisionByZero⟩
    new dividing [] {} = .ok x ∧ (x.after []).Reports (.eval err (.action "Divide")) ∧
      ∃ body, dividing.Component (.action "Divide") body ∧
        ∃ p : Expr, p.Occurs body ∧ p.span = ⟨34, 49, 4, 11⟩ := by
  intro x err
  have created : new dividing [] {} = .ok x := rfl
  have error : (x.check scalar {}).1 = .error (.eval err (.action "Divide")) := by cbv
  have reports : (x.after []).Reports (.eval err (.action "Divide")) := .check scalar {} error
  exact ⟨created, reports, exists_occurs_of_reports created reports⟩

end Explorer

end ActionSystem
