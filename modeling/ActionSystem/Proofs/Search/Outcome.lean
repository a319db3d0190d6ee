import ActionSystem.Proofs.Search.Exploration

/-!
# Outcomes

What the outcome of a check says about the model: an exhausted search has found the reachable
states and all distances, and the trace to a violation or to a deadlock is the shortest there is.
-/

namespace ActionSystem

variable {fp : State → Fingerprint} {m : Model} {c : Config} {r : Run}

/-! ## Exhausted searches -/

namespace Run.Finished

theorem holds_of_reachedIn (h : r.Finished fp m c) {n : Nat} {s : State} (path : m.ReachedIn n s) :
    r.Holds s n := by
  refine h.toInv.holds_of_reachedIn path (fun e he => ?_) (fun ht => ?_)
  · have hlt := Store.lt_size_of_get? he
    have hend := h.expanded_eq
    omega
  · rw [h.uncut] at ht
    cases ht

theorem mem_states_iff (h : r.Finished fp m c) {s : State} :
    s ∈ r.store.states ↔ m.Reachable s := by
  rw [Store.mem_states_iff]
  constructor
  · intro h
    obtain ⟨id, e, hid, hs⟩ := h
    exact ⟨e.depth, hs ▸ h.coherent.rooted.reachedIn hid⟩
  · intro h
    obtain ⟨n, path⟩ := h
    obtain ⟨id, e, hid, hs, -⟩ := h.holds_of_reachedIn path
    exact ⟨id, e, hid, hs⟩

theorem distance (h : r.Finished fp m c) {id : Nat} {e : Entry} (hid : r.store.get? id = some e) :
    m.Distance e.state e.depth := by
  refine ⟨h.coherent.rooted.reachedIn hid, ?_⟩
  intro n path
  obtain ⟨i, f, hi, hf, hd⟩ := h.holds_of_reachedIn path
  -- a state has one entry, so that the one at depth `n` or less is this one
  have hsame : i = id := Store.eq_of_nodup h.coherent.nodup hi hid hf
  rw [hsame, hid] at hi
  cases hi
  exact hd

theorem closed_of_mem (h : r.Finished fp m c) {s : State} (hs : s ∈ r.store.states) :
    ∃ e, e.state = s ∧ m.Satisfies s ∧ r.Closed m c e := by
  obtain ⟨id, e, hid, rfl⟩ := Store.mem_states_iff.mp hs
  have hlt := Store.lt_size_of_get? hid
  exact ⟨e, rfl, h.satisfied id e hid, h.closed id e (h.expanded_eq ▸ hlt) hid⟩

theorem isGreatest_maxDepth (h : r.Finished fp m c) (hinit : ∃ s, m.Initial s) :
    IsGreatest {d | ∃ s, m.Distance s d} r.maxDepth := by
  constructor
  · rcases h.attained with hzero | ⟨id, e, hid, hd⟩
    · obtain ⟨s, hs⟩ := hinit
      exact ⟨s, hzero ▸ ⟨.initial hs, fun _ _ => Nat.zero_le _⟩⟩
    · exact ⟨e.state, hd ▸ h.distance hid⟩
  · intro d h
    obtain ⟨s, hd⟩ := h
    obtain ⟨id, e, hid, hs, hle⟩ := h.holds_of_reachedIn hd.1
    have heq : d = e.depth := IsLeast.unique hd (hs ▸ h.distance hid)
    exact heq ▸ h.deepest id e hid

end Run.Finished

/-- A store and counters that describe all that is reachable in a model. -/
structure Exhaustive (m : Model) (c : Config) (reached : Finset State) (store : Store)
    (stats : Stats) : Prop where
  mem_reached : ∀ s, s ∈ reached ↔ m.Reachable s
  mem_states : ∀ s, s ∈ store.states ↔ m.Reachable s
  once : store.states.Nodup
  depth : ∀ id e, store.get? id = some e → m.Distance e.state e.depth
  satisfied : ∀ s ∈ reached, m.Satisfies s
  evaluated : ∀ s ∈ reached, ∀ action, ∃ next, m.successors action s = .ok next
  alive : c.checkDeadlock = true → ∀ s ∈ reached, ∃ action t, m.Step action s t
  states : stats.states = reached.card
  expanded : stats.expanded = reached.card
  maxDepth : IsGreatest {d | ∃ s, m.Distance s d} stats.maxDepth
  fired : stats.fired =
    (List.range m.actions.length).map fun a => ∑ s ∈ reached, m.successorCount a s

theorem Run.Finished.exhaustive (h : r.Finished fp m c) (hinit : ∃ s, m.Initial s) :
    Exhaustive m c r.store.states.toFinset r.store r.stats where
  mem_reached := by
    intro s
    rw [List.mem_toFinset]
    exact h.mem_states_iff
  mem_states := fun _ => h.mem_states_iff
  once := h.coherent.nodup
  depth := fun _ _ => h.distance
  satisfied := by
    intro s hs
    obtain ⟨-, -, hsat, -⟩ := h.closed_of_mem (List.mem_toFinset.mp hs)
    exact hsat
  evaluated := by
    intro s hs action
    obtain ⟨e, rfl, -, hclosed⟩ := h.closed_of_mem (List.mem_toFinset.mp hs)
    obtain ⟨next, hnext, -⟩ := hclosed.1 action
    exact ⟨next, hnext⟩
  alive := by
    intro hc s hs
    obtain ⟨e, rfl, -, hclosed⟩ := h.closed_of_mem (List.mem_toFinset.mp hs)
    exact hclosed.2 hc
  states := by
    rw [List.toFinset_card_of_nodup h.coherent.nodup, Store.length_states]
    rfl
  expanded := by
    rw [List.toFinset_card_of_nodup h.coherent.nodup, Store.length_states, ← h.expanded_eq]
    rfl
  maxDepth := h.isGreatest_maxDepth hinit
  fired := by
    have htally := h.tallied
    unfold Run.Tallied at htally
    rw [h.expanded_eq, ← Store.length_states, List.take_length] at htally
    change r.fired = _
    rw [htally]
    apply List.map_congr_left
    intro a _
    exact (List.sum_toFinset _ h.coherent.nodup).symm

/-! ## Violations -/

/-- A trace to a state in which an invariant fails, with as few actions as possible. -/
structure ShortestViolation (m : Model) (name : String) (index : Nat) (trace : List TraceStep) :
    Prop where
  replays : m.Replays trace
  fails : ∃ last ∈ trace.getLast?,
    Violation.IsFirst m.env last.state 0 m.invariants ⟨index, name, last.state⟩
  earlier : ∀ p ∈ trace.dropLast, m.Satisfies p.state
  shortest : ∀ n s, m.ReachedIn n s → m.Violates s → trace.length - 1 ≤ n

theorem Run.Refuted.shortestViolation {id : Nat} {v : Violation} (h : r.Refuted m id v) :
    ShortestViolation m v.name v.index (r.store.trace m.actionNames id) := by
  obtain ⟨e, hid, hv, hbelow⟩ := h.found
  have hlead := h.coherent.rooted.trace_leadsTo hid
  refine ⟨hlead.replays, ⟨_, hlead.getLast?_eq, Model.isFirst_of_violation? hv⟩, ?_, ?_⟩
  · intro p hp
    obtain ⟨i, f, hi, hf, hs⟩ := hlead.earlier p hp
    exact hs ▸ h.earlier i f hi hf
  · intro n s path hviolates
    rw [hlead.length_eq]
    by_contra hlt
    exact (hbelow n s (by omega) path).not_violates hviolates

/-! ## Deadlocks -/

/-- A trace to a state without successors, with as few actions as possible. As far as it goes, all
states satisfy the invariants. -/
structure ShortestDeadlock (m : Model) (trace : List TraceStep) : Prop where
  replays : m.Replays trace
  still : ∃ last ∈ trace.getLast?, m.ReachedIn (trace.length - 1) last.state ∧
    ∀ action, m.successors action last.state = .ok []
  shortest : ∀ n s, m.ReachedIn n s → (∀ action t, ¬ m.Step action s t) → trace.length - 1 ≤ n
  satisfied : ∀ n s, n ≤ trace.length - 1 → m.ReachedIn n s → m.Satisfies s

theorem Run.Stuck.shortestDeadlock {id : Nat} (h : r.Stuck m c id) :
    ShortestDeadlock m (r.store.trace m.actionNames id) := by
  obtain ⟨e, hid, hstill, hmoves, hsatisfied, -⟩ := h.found
  have hlead := h.coherent.rooted.trace_leadsTo hid
  have hlength : (r.store.trace m.actionNames id).length - 1 = e.depth := by
    rw [hlead.length_eq, Nat.add_sub_cancel]
  refine ⟨hlead.replays, ⟨_, hlead.getLast?_eq, ?_, hstill⟩, ?_, ?_⟩
  · rw [hlength, Store.stepOf_state]
    exact h.coherent.rooted.reachedIn hid
  · intro n s path hnone
    rw [hlength]
    by_contra hlt
    obtain ⟨action, t, move⟩ := hmoves n s (by omega) path
    exact hnone action t move
  · intro n s hn path
    exact hsatisfied n s (hlength ▸ hn) path

/-! ## Checks -/

namespace Explorer

/-- The outcome of a check is that of a search, the end of which is known. -/
theorem check_meets (fp : State → Fingerprint) (x : Explorer) (around : Surroundings) :
    ∃ stop, (x.check fp around).1 = (x.check fp around).2.run.outcome x.model.actionNames stop ∧
      Outlook.Meets (fun r => r.Finished fp x.model x.config ∧ ∃ s, x.model.Initial s)
        (Run.Halted x.model x.config) ((x.check fp around).2.run, stop) := by
  have hsearch := Run.explore_meets fp x.model x.config around x.run.progress
  unfold check
  cases hr : Run.explore fp x.model x.config around (.fresh x.model x.run.progress) with
  | mk run stop =>
    rw [hr] at hsearch
    exact ⟨stop, rfl, hsearch⟩

-- A search that has exhausted the model has expanded all that it found.
theorem finished_of_check {x : Explorer} {around : Surroundings} {stats : Stats}
    (h : (x.check fp around).1 = .ok (.exhausted stats)) :
    (x.check fp around).2.run.Finished fp x.model x.config ∧ ∃ s, x.model.Initial s := by
  obtain ⟨stop, hstop, hmeets⟩ := x.check_meets fp around
  rw [hstop] at h
  cases stop with
  | none => exact hmeets
  | some stop => cases stop <;> cases h

/-- Fingerprints for states without strings and composite values. -/
def scalar : State → Fingerprint := State.fingerprint fun _ _ => 0

/-- The action `x < 2 /\ x' = x + 1` -/
def countUp : Expr :=
  .logical .none .and (.binary .none .lt (.name .none "x") (.literal .none (.int 2)))
    (.binary .none .eq (.primed .none "x")
      (.binary .none .add (.name .none "x") (.literal .none (.int 1))))

/-- A variable that counts from zero to two, and may rest anywhere. -/
def counter (invariants : List Definition) : Spec where
  name := "Counter"
  vars := [⟨"x", .none⟩]
  init := .binary .none .eq (.name .none "x") (.literal .none (.int 0))
  actions := [⟨"Up", countUp, .none⟩, ⟨"Rest", .unchanged .none ["x"], .none⟩]
  invariants := invariants

def counting (invariants : List Definition) : Explorer :=
  let model := Model.ofSpec (counter invariants) []
  ⟨model, {}, .fresh model {}⟩

/-- A check that exhausts the model leaves the reachable states behind, with their distances,
whatever fingerprints states are told apart by. -/
theorem exhaustive_of_check {x : Explorer} {around : Surroundings} {stats : Stats}
    (h : (x.check fp around).1 = .ok (.exhausted stats)) :
    ∃ reached, Exhaustive x.model x.config reached (x.check fp around).2.run.store stats := by
  obtain ⟨stop, hstop, hmeets⟩ := x.check_meets fp around
  rw [hstop] at h
  cases stop with
  | none =>
    cases h
    exact ⟨_, hmeets.1.exhaustive hmeets.2⟩
  | some stop => cases stop <;> cases h

theorem exhaustive_of_check_counting :
    ((counting []).check scalar {}).1 = .ok (.exhausted ⟨3, 3, 2, 0, [2, 3]⟩) ∧
      ∃ reached, Exhaustive (counting []).model {} reached
        ((counting []).check scalar {}).2.run.store ⟨3, 3, 2, 0, [2, 3]⟩ := by
  have h : ((counting []).check scalar {}).1 = .ok (.exhausted ⟨3, 3, 2, 0, [2, 3]⟩) := by cbv
  exact ⟨h, exhaustive_of_check h⟩

/-- A reported violation comes with a shortest trace to it, whatever the fingerprints are. -/
theorem shortestViolation_of_check {x : Explorer} {around : Surroundings} {name : String}
    {index : Nat} {trace : List TraceStep} {stats : Stats}
    (h : (x.check fp around).1 = .ok (.invariantViolated name index trace stats)) :
    ShortestViolation x.model name index trace := by
  obtain ⟨stop, hstop, hmeets⟩ := x.check_meets fp around
  rw [hstop] at h
  cases stop with
  | none => cases h
  | some stop =>
    cases stop with
    | violation id v =>
      cases h
      exact Run.Refuted.shortestViolation hmeets
    | _ => cases h

-- The counter reaches two in three steps, the first of which is the initial state.
theorem shortestViolation_of_check_counting :
    let below := ⟨"Below", .binary .none .lt (.name .none "x") (.literal .none (.int 2)), .none⟩
    let trace := [⟨none, ⟨[.int 0]⟩⟩, ⟨some "Up", ⟨[.int 1]⟩⟩, ⟨some "Up", ⟨[.int 2]⟩⟩]
    ((counting [below]).check scalar {}).1 =
        .ok (.invariantViolated "Below" 0 trace ⟨3, 1, 2, 0, [2, 1]⟩) ∧
      ShortestViolation (counting [below]).model "Below" 0 trace := by
  intro below trace
  have h : ((counting [below]).check scalar {}).1 =
      .ok (.invariantViolated "Below" 0 trace ⟨3, 1, 2, 0, [2, 1]⟩) := by cbv
  exact ⟨h, shortestViolation_of_check h⟩

-- A reported deadlock is one in which the search got stuck.
theorem stuck_of_check {x : Explorer} {around : Surroundings} {trace : List TraceStep}
    {stats : Stats} (h : (x.check fp around).1 = .ok (.deadlocked trace stats)) :
    ∃ id, (x.check fp around).2.run.Stuck x.model x.config id ∧
      trace = (x.check fp around).2.run.store.trace x.model.actionNames id := by
  obtain ⟨stop, hstop, hmeets⟩ := x.check_meets fp around
  rw [hstop] at h
  cases stop with
  | none => cases h
  | some stop =>
    cases stop with
    | deadlock id =>
      cases h
      exact ⟨id, hmeets, rfl⟩
    | _ => cases h

/-- A reported deadlock comes with a shortest trace to it, whatever the fingerprints are. -/
theorem shortestDeadlock_of_check {x : Explorer} {around : Surroundings} {trace : List TraceStep}
    {stats : Stats} (h : (x.check fp around).1 = .ok (.deadlocked trace stats)) :
    ShortestDeadlock x.model trace := by
  obtain ⟨id, hstuck, rfl⟩ := stuck_of_check h
  exact hstuck.shortestDeadlock

def climbing : Explorer :=
  let model := Model.ofSpec { counter [] with actions := [⟨"Up", countUp, .none⟩] } []
  ⟨model, {}, .fresh model {}⟩

theorem shortestDeadlock_of_check_climbing :
    let trace := [⟨none, ⟨[.int 0]⟩⟩, ⟨some "Up", ⟨[.int 1]⟩⟩, ⟨some "Up", ⟨[.int 2]⟩⟩]
    (climbing.check scalar {}).1 = .ok (.deadlocked trace ⟨3, 3, 2, 0, [2]⟩) ∧
      ShortestDeadlock climbing.model trace := by
  intro trace
  have h : (climbing.check scalar {}).1 = .ok (.deadlocked trace ⟨3, 3, 2, 0, [2]⟩) := by cbv
  exact ⟨h, shortestDeadlock_of_check h⟩

end Explorer

end ActionSystem
