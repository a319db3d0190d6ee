import ActionSystem.Proofs.Search.Invariant

/-!
# What a search keeps

The states in the store of a search can be reached, and an error that ends a search comes up in one
of them. Any other property of the store holds throughout a search if it is kept whenever a state is
found.
-/

namespace ActionSystem

open Result (Fails)

/-- How the exploration of a model may fail: the initial predicate has no states or no value, or an
action or an invariant has no value in a state that can be reached. -/
inductive Model.FailsWith (m : Model) : CheckError → Prop where
  | initial {err : EvalError} (error : m.initialStates = .error err) :
      FailsWith m (.eval err .init)
  | nothing (error : m.initialStates = .ok []) : FailsWith m .noInitialStates
  | action {s : State} {r : Relation} {err : EvalError} (reachable : m.Reachable s)
      (listed : r ∈ m.actions) (error : r.states m.env s.values = .error err) :
      FailsWith m (.eval err (.action r.name))
  | invariant {s : State} {d : Definition} {err : EvalError} (reachable : m.Reachable s)
      (listed : d ∈ m.invariants)
      (error : d.body.holds (.ofState m.env s.values) = .error err) :
      FailsWith m (.eval err (.invariant d.name))

/-! ## Evaluation in a state -/

theorem Phase.run_eq_error {α : Type} {phase : Phase} {x : Except EvalError α} {e : CheckError} :
    phase.run x = .error e ↔ ∃ err, x = .error err ∧ e = .eval err phase := by
  cases x <;> simp [Phase.run, eq_comm]

namespace Model

variable {m : Model} {s : State}

theorem Reachable.successor {action : Nat} {t : State} (h : m.Reachable s)
    (move : m.Step action s t) : m.Reachable t := by
  obtain ⟨n, path⟩ := h
  exact ⟨n + 1, .step path move⟩

theorem fails_violation? (h : m.Reachable s) : Fails m.FailsWith (m.violation? s) := by
  have remaining : ∀ (ds : List Definition) (start : Nat), (∀ d ∈ ds, d ∈ m.invariants) →
      Fails m.FailsWith (Violation.firstFrom m.env s start ds) := by
    intro ds
    induction ds with
    | nil => exact fun _ _ => .ok
    | cons d ds ih =>
      intro start hds
      obtain ⟨hd, hds⟩ := List.forall_mem_cons.mp hds
      refine .bind (fun e he => ?_) fun _ _ => .bind (ih (start + 1) hds) fun _ _ => .pure
      obtain ⟨err, herr, rfl⟩ := Phase.run_eq_error.mp he
      exact .invariant h hd herr
  exact remaining m.invariants 0 fun _ => id

-- The phase in which the successors under an action are computed carries the name of the action.
theorem failsWith_of_successors (h : m.Reachable s) {action : Nat} {err : EvalError}
    (error : m.successors action s = .error err) :
    m.FailsWith (.eval err (.action (m.actionNames.getD action ""))) := by
  unfold successors at error
  cases hr : m.actions[action]? with
  | none =>
    rw [hr] at error
    cases error
  | some r =>
    rw [hr] at error
    have hname : m.actionNames.getD action "" = r.name := by
      simp [actionNames, hr]
    rw [hname]
    exact .action h (List.mem_of_getElem? hr) error

end Model

namespace Run

/-- The states that were found are initial or successors of earlier ones, and the store has a
further property. -/
structure Grounded (m : Model) (Q : Store → Prop) (r : Run) : Prop where
  rooted : r.store.Rooted m
  kept : Q r.store

/-- The property of the store is kept when a state is found. `halt` is what it comes to when the
search stops, with an error of the model or otherwise. -/
structure Keeps (fp : State → Fingerprint) (m : Model) (c : Config) (Q : Store → Prop)
    (halt : Run → Stop → Prop) : Prop where
  discover : ∀ (r : Run) (e : Entry), r.Grounded m Q → r.store.Linked m r.store.size e →
    Outlook.Meets (fun r => Q r.store) halt (r.discover fp m c e)
  fails : ∀ (r : Run) (e : CheckError), Q r.store → m.FailsWith e → halt r (.error e)
  stops : ∀ (r : Run) (stop : Stop), Q r.store → (∀ e, stop ≠ .error e) → halt r stop

structure GroundedSince (m : Model) (Q : Store → Prop) (start r : Run) : Prop
    extends r.Grounded m Q where
  later : start.Extends r

variable {fp : State → Fingerprint} {m : Model} {c : Config} {Q : Store → Prop}
  {halt : Run → Stop → Prop} {r start : Run}

theorem Grounded.since (h : r.Grounded m Q) : GroundedSince m Q r r := ⟨h, .refl r⟩

theorem Grounded.reachable (h : r.Grounded m Q) {id : Nat} {e : Entry}
    (hid : r.store.get? id = some e) : m.Reachable e.state := ⟨e.depth, h.rooted.reachedIn hid⟩

theorem discover_cases (fp : State → Fingerprint) (m : Model) (c : Config) (r : Run) (e : Entry) :
    (r.discover fp m c e).1 = r ∨ (r.discover fp m c e).1 = r.grow fp e := by
  unfold discover
  by_cases hfull : r.isFull c
  · rw [if_pos hfull]
    exact .inl rfl
  rw [if_neg hfull]
  by_cases hknown : r.store.contains fp e.state
  · rw [if_pos hknown]
    exact .inl rfl
  rw [if_neg hknown]
  simp only []
  cases m.violation? e.state with
  | error err => exact .inr rfl
  | ok found => cases found <;> exact .inr rfl

-- A state that may be added leaves the others as they are, and the store rooted.
theorem discover_rooted (fp : State → Fingerprint) (c : Config) (h : r.store.Rooted m) {e : Entry}
    (link : r.store.Linked m r.store.size e) :
    (r.discover fp m c e).1.store.Rooted m ∧ r.Extends (r.discover fp m c e).1 := by
  rcases discover_cases fp m c r e with heq | heq
  · rw [heq]
    exact ⟨h, .refl r⟩
  · rw [heq]
    exact ⟨h.add link, extends_grow fp r e⟩

theorem discover_keeps (keeps : Keeps fp m c Q halt) (h : r.Grounded m Q) {e : Entry}
    (link : r.store.Linked m r.store.size e) :
    Outlook.Meets (GroundedSince m Q r) halt (r.discover fp m c e) := by
  have hmeets := keeps.discover r e h link
  obtain ⟨hrooted, hlater⟩ := discover_rooted fp c h.rooted link
  generalize r.discover fp m c e = o at hmeets hrooted hlater
  obtain ⟨r', stop⟩ := o
  cases stop with
  | some stop => exact hmeets
  | none => exact ⟨⟨hrooted, hmeets⟩, hlater⟩

theorem reach_keeps (keeps : Keeps fp m c Q halt) (h : GroundedSince m Q start r) {id : Nat}
    {e : Entry} (he : start.store.get? id = some e) {action : Nat} {s : State}
    (move : m.Step action e.state s) :
    Outlook.Meets (GroundedSince m Q start) halt (reach fp m c id e.depth action s r) := by
  unfold reach
  split
  · exact h
  · split
    · exact ⟨⟨h.rooted, h.kept⟩, h.later.trans ⟨fun _ _ hf => hf, fun _ => rfl, rfl⟩⟩
    · have stored : r.store.get? id = some e := h.later.kept id e he
      have link : r.store.Linked m r.store.size ⟨s, some id, some action, e.depth + 1⟩ :=
        .child (Store.lt_size_of_get? stored) stored move
      refine (discover_keeps keeps h.toGrounded link).mono fun r' h' => ?_
      exact ⟨h'.toGrounded, h.later.trans h'.later⟩

-- A sweep keeps what each of its steps keeps.
theorem sweep_keeps {α : Type} {step : α → Run → Outlook} {go : Run → Prop} (all : List α)
    (hstep : ∀ a ∈ all, ∀ r, go r → Outlook.Meets go halt (step a r)) (h : go r) :
    Outlook.Meets go halt (sweep step all r) :=
  sweep_meets step (fun _ => go) _ all r
    (fun _ a _ r' hall h' => hstep a (hall ▸ List.mem_append_right _ List.mem_cons_self) r' h') h

theorem fire_keeps (keeps : Keeps fp m c Q halt) (h : GroundedSince m Q start r) {id : Nat}
    {e : Entry} (he : start.store.get? id = some e) (action : Nat) :
    Outlook.Meets (GroundedSince m Q start) halt (fire fp m c id e action r) := by
  have stored : r.store.get? id = some e := h.later.kept id e he
  unfold fire
  cases hnext : m.successors action e.state with
  | error err =>
    exact keeps.fails r _ h.kept (Model.failsWith_of_successors (h.reachable stored) hnext)
  | ok next =>
    refine sweep_keeps next (fun s hs r' h' => reach_keeps keeps h' he ⟨next, hnext, hs⟩) ?_
    exact ⟨⟨h.rooted, h.kept⟩, h.later.trans ⟨fun _ _ hf => hf, fun ht => ht, rfl⟩⟩

theorem report_keeps (h : r.Grounded m Q) : (r.report c).Grounded m Q := by
  unfold report
  split
  · exact ⟨h.rooted, h.kept⟩
  · exact h

theorem expand_keeps (keeps : Keeps fp m c Q halt) (h : r.Grounded m Q) {id : Nat} {e : Entry}
    (he : r.store.get? id = some e) :
    Outlook.Meets (Grounded m Q) halt (expand fp m c id e r) := by
  have hstart : Grounded m Q { r with moved := false } := ⟨h.rooted, h.kept⟩
  have hsweep : Outlook.Meets (GroundedSince m Q { r with moved := false }) halt
      (sweep (fire fp m c id e) (List.range m.actions.length) { r with moved := false }) :=
    sweep_keeps _ (fun action _ r' h' => fire_keeps keeps h' he action) hstart.since
  unfold expand
  refine hsweep.andThen fun r' h' => ?_
  simp only []
  split
  · exact keeps.stops _ _ h'.kept (by simp)
  · exact report_keeps ⟨h'.rooted, h'.kept⟩

theorem expandAll_keeps (keeps : Keeps fp m c Q halt) (around : Surroundings) (n : Nat)
    (h : r.Grounded m Q) : Outlook.Meets (Grounded m Q) halt (expandAll fp m c around n r) := by
  induction n generalizing r with
  | zero => exact keeps.stops _ _ h.kept (by simp)
  | succ n ih =>
    unfold expandAll
    cases he : r.store.get? r.expanded with
    | none =>
      simp only []
      split
      · exact keeps.stops _ _ h.kept (by simp)
      · exact h
    | some e =>
      simp only []
      cases c.interruption? around r.expanded with
      | some l => exact keeps.stops _ _ h.kept (by simp)
      | none => exact (expand_keeps keeps h he).andThen fun r' h' => ih h'

/-- What is kept whenever a state is found holds throughout the search. -/
theorem explore_keeps (keeps : Keeps fp m c Q halt) (around : Surroundings) (h : r.Grounded m Q) :
    Outlook.Meets (Grounded m Q) halt (explore fp m c around r) := by
  unfold explore
  cases hinitial : m.initialStates with
  | error err => exact keeps.fails r _ h.kept (.initial hinitial)
  | ok all =>
    cases all with
    | nil => exact keeps.fails r _ h.kept (.nothing hinitial)
    | cons s rest =>
      have hsweep : Outlook.Meets (Grounded m Q) halt
          (sweep (fun s => discover fp m c ⟨s, none, none, 0⟩) (s :: rest) r) :=
        sweep_keeps _ (fun s hs r' h' =>
          (discover_keeps keeps h' (.root ⟨_, hinitial, hs⟩)).mono fun _ h'' => h''.toGrounded) h
      exact hsweep.andThen fun r' h' => expandAll_keeps keeps around idCount h'

-- At the start of a run nothing is stored.
theorem grounded_fresh (m : Model) (progress : Progress) (empty : Q .empty) :
    (fresh m progress).Grounded m Q :=
  ⟨Store.rooted_empty, empty⟩

end Run

/-- What is kept however the search goes on or stops holds of the store that a check leaves
behind. -/
theorem Explorer.check_keeps {fp : State → Fingerprint} {Q : Store → Prop} (x : Explorer)
    (around : Surroundings)
    (keeps : Run.Keeps fp x.model x.config Q fun r _ => Q r.store) (empty : Q .empty) :
    Q (x.check fp around).2.run.store := by
  have hsearch := Run.explore_keeps keeps around
    (Run.grounded_fresh x.model x.run.progress empty)
  unfold check
  cases hr : Run.explore fp x.model x.config around (.fresh x.model x.run.progress) with
  | mk run stop =>
    rw [hr] at hsearch
    cases stop with
    | none => exact hsearch.kept
    | some stop => exact hsearch

end ActionSystem
