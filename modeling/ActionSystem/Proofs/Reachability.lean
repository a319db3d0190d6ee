import Mathlib.Data.List.Chain
import Mathlib.Data.Nat.Find
import Mathlib.Order.Bounds.Defs
import ActionSystem.Model.Invariants
import ActionSystem.Proofs.Result
import ActionSystem.Store

/-!
# Reachability

A model as a transition system: the states that paths of actions lead to, how far they are from
the initial states, what the invariants say about them, and which traces can be replayed. A search
is measured against these notions, none of which mentions an order of exploration.
-/

namespace ActionSystem

/-! ## Invariants -/

theorem Phase.run_eq_ok {α : Type} {phase : Phase} {x : Except EvalError α} {a : α} :
    phase.run x = .ok a ↔ x = .ok a := by
  cases x <;> simp [Phase.run]

namespace Violation

variable {env : Env} {s : State}

/-- All of the invariants have truth values, and `v` is the first that is false. The first of the
list is at position `start`. -/
structure IsFirst (env : Env) (s : State) (start : Nat) (ds : List Definition) (v : Violation) :
    Prop where
  state_eq : v.state = s
  start_le : start ≤ v.index
  fails : ∃ d, ds[v.index - start]? = some d ∧ d.name = v.name ∧
    d.body.holds (.ofState env s.values) = .ok false
  before : ∀ d ∈ ds.take (v.index - start), d.body.holds (.ofState env s.values) = .ok true
  evaluated : ∀ d ∈ ds, ∃ b, d.body.holds (.ofState env s.values) = .ok b

theorem firstFrom_cons_eq_ok {start : Nat} {d : Definition} {ds : List Definition}
    {found : Option Violation} :
    firstFrom env s start (d :: ds) = .ok found ↔
      ∃ later, firstFrom env s (start + 1) ds = .ok later ∧
        (d.body.holds (.ofState env s.values) = .ok true ∧ found = later ∨
          d.body.holds (.ofState env s.values) = .ok false ∧ found = some ⟨start, d.name, s⟩) := by
  simp only [firstFrom, Result.bind_eq_ok, Result.pure_eq_ok, Phase.run_eq_ok]
  constructor
  · intro h
    obtain ⟨b, hb, later, hlater, rfl⟩ := h
    refine ⟨later, hlater, ?_⟩
    cases b with
    | true => exact .inl ⟨hb, rfl⟩
    | false => exact .inr ⟨hb, rfl⟩
  · intro h
    obtain ⟨later, hlater, ⟨hb, rfl⟩ | ⟨hb, rfl⟩⟩ := h
    · exact ⟨true, hb, found, hlater, rfl⟩
    · exact ⟨false, hb, later, hlater, rfl⟩

-- The invariants evaluate if the check has a result.
theorem evaluated_of_firstFrom {start : Nat} {ds : List Definition} {found : Option Violation}
    (h : firstFrom env s start ds = .ok found) :
    ∀ d ∈ ds, ∃ b, d.body.holds (.ofState env s.values) = .ok b := by
  induction ds generalizing start found with
  | nil => simp
  | cons d ds ih =>
    obtain ⟨later, hlater, hd⟩ := firstFrom_cons_eq_ok.mp h
    rw [List.forall_mem_cons]
    refine ⟨?_, ih hlater⟩
    rcases hd with ⟨hd, -⟩ | ⟨hd, -⟩
    · exact ⟨true, hd⟩
    · exact ⟨false, hd⟩

theorem firstFrom_eq_none {start : Nat} {ds : List Definition} :
    firstFrom env s start ds = .ok none ↔
      ∀ d ∈ ds, d.body.holds (.ofState env s.values) = .ok true := by
  induction ds generalizing start with
  | nil => simp [firstFrom]
  | cons d ds ih =>
    rw [firstFrom_cons_eq_ok, List.forall_mem_cons, ← @ih (start + 1)]
    constructor
    · intro h
      obtain ⟨later, hlater, ⟨hd, rfl⟩ | ⟨-, ⟨⟩⟩⟩ := h
      exact ⟨hd, hlater⟩
    · intro h
      obtain ⟨hd, hlater⟩ := h
      exact ⟨none, hlater, .inl ⟨hd, rfl⟩⟩

/-- What is reported is the first false invariant. -/
theorem isFirst_of_firstFrom {start : Nat} {ds : List Definition} {v : Violation}
    (h : firstFrom env s start ds = .ok (some v)) : IsFirst env s start ds v := by
  induction ds generalizing start with
  | nil => cases h
  | cons d ds ih =>
    have heval := evaluated_of_firstFrom h
    obtain ⟨later, hlater, ⟨hd, rfl⟩ | ⟨hd, hv⟩⟩ := firstFrom_cons_eq_ok.mp h
    · have first := ih hlater
      have hpos : v.index - start = (v.index - (start + 1)) + 1 := by
        have := first.start_le
        omega
      refine ⟨first.state_eq, by have := first.start_le; omega, ?_, ?_, heval⟩
      · rw [hpos]
        exact first.fails
      · rw [hpos, List.take_succ_cons, List.forall_mem_cons]
        exact ⟨hd, first.before⟩
    · cases hv
      exact ⟨rfl, Nat.le_refl _, ⟨d, by simp, rfl, hd⟩, by simp, heval⟩

end Violation

namespace Model

variable {m : Model}

def Satisfies (m : Model) (s : State) : Prop :=
  ∀ d ∈ m.invariants, d.body.holds (.ofState m.env s.values) = .ok true

def Violates (m : Model) (s : State) : Prop :=
  ∃ d ∈ m.invariants, d.body.holds (.ofState m.env s.values) = .ok false

theorem Satisfies.not_violates {s : State} (h : m.Satisfies s) : ¬ m.Violates s := by
  intro h
  obtain ⟨d, hd, hfalse⟩ := h
  rw [h d hd] at hfalse
  cases hfalse

theorem violation?_eq_none {s : State} : m.violation? s = .ok none ↔ m.Satisfies s :=
  Violation.firstFrom_eq_none

theorem isFirst_of_violation? {s : State} {v : Violation} (h : m.violation? s = .ok (some v)) :
    Violation.IsFirst m.env s 0 m.invariants ⟨v.index, v.name, s⟩ := by
  have hfirst := Violation.isFirst_of_firstFrom h
  have heq : v = ⟨v.index, v.name, s⟩ := by
    rw [← hfirst.state_eq]
  exact heq ▸ hfirst

/-! ## Paths -/

def Initial (m : Model) (s : State) : Prop := ∃ all, m.initialStates = .ok all ∧ s ∈ all

def Step (m : Model) (action : Nat) (s t : State) : Prop :=
  ∃ all, m.successors action s = .ok all ∧ t ∈ all

/-- A path of so many actions leads from an initial state to the state. -/
inductive ReachedIn (m : Model) : Nat → State → Prop where
  | initial {s : State} (admitted : m.Initial s) : ReachedIn m 0 s
  | step {n action : Nat} {s t : State} (path : ReachedIn m n s) (move : m.Step action s t) :
      ReachedIn m (n + 1) t

def Reachable (m : Model) (s : State) : Prop := ∃ n, m.ReachedIn n s

def Distance (m : Model) (s : State) (d : Nat) : Prop := IsLeast {n | m.ReachedIn n s} d

-- What can be reached can be reached in the fewest actions.
theorem ReachedIn.exists_distance {n : Nat} {s : State} (path : m.ReachedIn n s) :
    ∃ d ≤ n, m.Distance s d := by
  classical
  have h : ∃ k, m.ReachedIn k s := ⟨n, path⟩
  exact ⟨Nat.find h, Nat.find_min' h path, Nat.find_spec h, fun _ hk => Nat.find_min' h hk⟩

def successorCount (m : Model) (action : Nat) (s : State) : Nat :=
  match m.successors action s with
  | .ok all => all.length
  | .error _ => 0

-- There are successors only under the actions of the model.
theorem Step.lt_length {action : Nat} {s t : State} (h : m.Step action s t) :
    action < m.actions.length := by
  obtain ⟨all, hall, ht⟩ := h
  unfold successors at hall
  cases ha : m.actions[action]? with
  | some a => exact (List.getElem?_eq_some_iff.mp ha).1
  | none =>
    rw [ha] at hall
    cases hall
    cases ht

-- A step has a name.
theorem Step.exists_name {action : Nat} {s t : State} (h : m.Step action s t) :
    ∃ name, m.actionNames[action]? = some name := by
  have hlt : action < m.actionNames.length := by
    simpa [actionNames] using h.lt_length
  exact ⟨m.actionNames[action], List.getElem?_eq_getElem hlt⟩

/-! ## Traces -/

def Follows (m : Model) (p q : TraceStep) : Prop :=
  ∃ action name, m.actionNames[action]? = some name ∧ q.action = some name ∧
    m.Step action p.state q.state

/-- A trace starts with an initial state and goes on by the actions that it names. -/
structure Replays (m : Model) (trace : List TraceStep) : Prop where
  starts : ∃ first ∈ trace.head?, first.action = none ∧ m.Initial first.state
  follows : trace.IsChain m.Follows

-- What follows a state that can be reached can be reached.
theorem Follows.reachable {p q : TraceStep} (h : m.Follows p q) (path : m.Reachable p.state) :
    m.Reachable q.state := by
  obtain ⟨action, -, -, -, move⟩ := h
  obtain ⟨n, path⟩ := path
  exact ⟨n + 1, .step path move⟩

theorem Replays.reachable {trace : List TraceStep} (h : m.Replays trace) :
    ∀ p ∈ trace, m.Reachable p.state := by
  refine h.follows.induction _ _ (fun _ _ hpq => hpq.reachable) fun hne => ?_
  obtain ⟨first, hfirst, -, admitted⟩ := h.starts
  rw [List.head?_eq_some_head hne] at hfirst
  cases hfirst
  exact ⟨0, .initial admitted⟩

theorem replays_singleton {s : State} (admitted : m.Initial s) : m.Replays [⟨none, s⟩] where
  starts := ⟨_, rfl, rfl, admitted⟩
  follows := .singleton _

-- A trace goes on with a step that follows its last one.
theorem Replays.concat {trace : List TraceStep} {last next : TraceStep} (h : m.Replays trace)
    (hlast : trace.getLast? = some last) (move : m.Follows last next) :
    m.Replays (trace ++ [next]) where
  starts := by
    obtain ⟨first, hfirst, hstart⟩ := h.starts
    have hne : trace ≠ [] := by
      intro hnil
      rw [hnil] at hlast
      cases hlast
    refine ⟨first, ?_, hstart⟩
    rw [List.head?_append_of_ne_nil _ hne]
    exact hfirst
  follows := by
    refine h.follows.append (.singleton _) ?_
    intro p hp q hq
    rw [hlast] at hp
    cases hp
    cases hq
    exact move

end Model

end ActionSystem
