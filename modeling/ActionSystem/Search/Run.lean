import ActionSystem.Model.Invariants
import ActionSystem.Search.Config
import ActionSystem.Store

/-!
# Breadth-first search

The states of a model are found level by level: the initial states first, then the successors of
each state in the order in which the states were found. Since states are expanded in that order,
those still to be expanded are the ones in the store from the number of expanded states on. A
state is checked against the invariants when it is found.
-/

namespace ActionSystem

structure Progress where
  states : Nat := 0
  depth : Nat := 0
  queue : Nat := 0
  /-- How many states have been expanded, over all runs. -/
  checked : Nat := 0
deriving DecidableEq

structure Run where
  store : Store := .empty
  /-- How many successors each action has had. -/
  fired : List Nat
  /-- How many states have been expanded. -/
  expanded : Nat := 0
  /-- The largest depth of a state that was found. -/
  maxDepth : Nat := 0
  /-- A successor was left out for its depth. -/
  truncated : Bool := false
  /-- The state that is being expanded has a successor. -/
  moved : Bool := false
  progress : Progress := {}

inductive Stop where
  | error (e : CheckError)
  | violation (id : Nat) (v : Violation)
  | deadlock (id : Nat)
  | limit (l : Limit)

/-- What a step leaves behind, and why the search ends with it if it does. -/
abbrev Outlook := Run × Option Stop

namespace Run

/-- Take steps for the items of a list in turn, until one of them stops the search. -/
def sweep {α : Type} (step : α → Run → Outlook) : List α → Run → Outlook
  | [], r => (r, none)
  | a :: as, r =>
    match step a r with
    | (r, none) => sweep step as r
    | stopped => stopped

def isFull (c : Config) (r : Run) : Bool := c.maxStates.any (· ≤ r.store.size)

section

-- States are told apart by this first, as in the store.
variable (fp : State → Fingerprint)

/-- Keep a state unless the store is full or has it already, and check its invariants. -/
def discover (m : Model) (c : Config) (e : Entry) (r : Run) : Outlook :=
  if r.isFull c then (r, some (.limit .states))
  else if r.store.contains fp e.state then (r, none)
  else
    let id := r.store.size
    let r :=
      { r with store := r.store.add fp e, maxDepth := max r.maxDepth e.depth }
    match m.violation? e.state with
    | .error e => (r, some (.error e))
    | .ok (some v) => (r, some (.violation id v))
    | .ok none => (r, none)

/-- Look at a successor of the state `id` at `depth`: one that is known is passed over, and one
that is too deep is left out. -/
def reach (m : Model) (c : Config) (id depth action : Nat) (s : State) (r : Run) : Outlook :=
  if r.store.contains fp s then (r, none)
  else if c.maxDepth.any (· ≤ depth) then ({ r with truncated := true }, none)
  else r.discover fp m c ⟨s, some id, some action, depth + 1⟩

def fire (m : Model) (c : Config) (id : Nat) (e : Entry) (action : Nat) (r : Run) : Outlook :=
  match m.successors action e.state with
  | .error err => (r, some (.error (.eval err (.action (m.actionNames.getD action "")))))
  | .ok next =>
    sweep (reach fp m c id e.depth action) next
      { r with
        fired := r.fired.modify action (· + next.length)
        moved := r.moved || !next.isEmpty }

def report (c : Config) (r : Run) : Run :=
  if c.progress then
    { r with progress :=
      { states := r.store.size
        depth := r.maxDepth
        queue := r.store.size - r.expanded
        checked := r.progress.checked + 1 } }
  else r

def expand (m : Model) (c : Config) (id : Nat) (e : Entry) (r : Run) : Outlook :=
  match sweep (fire fp m c id e) (List.range m.actions.length) { r with moved := false } with
  | (r, none) =>
    let r := { r with expanded := r.expanded + 1 }
    if c.checkDeadlock && !r.moved then (r, some (.deadlock id)) else (r.report c, none)
  | stopped => stopped

/-- Expand the states in the store that are not expanded yet, at most `n` of them. -/
def expandAll (m : Model) (c : Config) (around : Surroundings) : Nat → Run → Outlook
  | 0, r => (r, some (.limit .memory))
  | n + 1, r =>
    match r.store.get? r.expanded with
    | none => (r, if r.truncated then some (.limit .depth) else none)
    | some e =>
      match c.interruption? around r.expanded with
      | some l => (r, some (.limit l))
      | none =>
        match r.expand fp m c r.expanded e with
        | (r, none) => expandAll m c around n r
        | stopped => stopped

/-- How many states there are ids for. A search that would need more runs out of memory. -/
def idCount : Nat := UInt32.size

def explore (m : Model) (c : Config) (around : Surroundings) (r : Run) : Outlook :=
  match m.initialStates with
  | .error e => (r, some (.error (.eval e .init)))
  | .ok [] => (r, some (.error .noInitialStates))
  | .ok initial =>
    match sweep (fun s => discover fp m c ⟨s, none, none, 0⟩) initial r with
    | (r, none) => expandAll fp m c around idCount r
    | stopped => stopped

end

end Run

end ActionSystem
