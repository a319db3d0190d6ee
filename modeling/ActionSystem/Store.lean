import ActionSystem.State
import Std.Data.TreeMap

/-!
# The store of visited states

States are kept in the order in which they were found, each with the step that led to it; the
position of a state is its id. An index from fingerprints to ids finds a state again. States with
one fingerprint are kept apart by comparison, so that the index is exact whatever the fingerprints
are.
-/

namespace ActionSystem

structure TraceStep where
  action : Option String
  state : State

structure Entry where
  state : State
  /-- The id of the state before, unless the state is initial. -/
  predecessor : Option Nat
  /-- The position of the action that led here, unless the state is initial. -/
  action : Option Nat
  /-- The number of actions from an initial state. -/
  depth : Nat

structure Store where
  entries : Array Entry := #[]
  /-- The ids of the states with a fingerprint, by its word. -/
  index : Std.TreeMap UInt64 (List Nat) := ∅
  /-- How many states were new but had the fingerprint of an earlier one. -/
  collisions : Nat := 0

namespace Store

def empty : Store := {}

def size (s : Store) : Nat := s.entries.size

def get? (s : Store) (id : Nat) : Option Entry := s.entries[id]?

def states (s : Store) : List State := s.entries.toList.map (·.state)

def bucket (s : Store) (f : Fingerprint) : List Nat := s.index.getD f.word []

def holds (s : Store) (state : State) (id : Nat) : Bool :=
  match s.get? id with
  | some e => e.state = state
  | none => false

/-- The id of a state, if it has been found. States are told apart by `fp` first. -/
def lookup? (fp : State → Fingerprint) (s : Store) (state : State) : Option Nat :=
  (s.bucket (fp state)).find? (s.holds state)

def contains (fp : State → Fingerprint) (s : Store) (state : State) : Bool :=
  (s.lookup? fp state).isSome

/-- Add an entry for a state that has not been found. -/
def add (fp : State → Fingerprint) (s : Store) (e : Entry) : Store :=
  let id := s.size
  let ids := s.bucket (fp e.state)
  { entries := s.entries.push e
    index := s.index.insert (fp e.state).word (ids ++ [id])
    collisions := if ids.isEmpty then s.collisions else s.collisions + 1 }

/-- Add an entry for a new state. A state that is there already leaves the store as it is. -/
def insert? (fp : State → Fingerprint) (s : Store) (e : Entry) : Option (Nat × Store) :=
  if s.contains fp e.state then none else some (s.size, s.add fp e)

/-! ## Traces -/

def actionName (names : List String) (action : Nat) : String :=
  match names[action]? with
  | some name => name
  | none => "action_" ++ toString action

/-- Follow predecessors for at most `n` steps, and put the steps found in front of `trace`. -/
def traceOnto (s : Store) (names : List String) :
    Nat → Option Nat → List TraceStep → List TraceStep
  | n + 1, some id, trace =>
    match s.get? id with
    | some e =>
      traceOnto s names n e.predecessor (⟨e.action.map (actionName names), e.state⟩ :: trace)
    | none => trace
  | _, _, trace => trace

/-- The steps that led to a state, from an initial state on. A path without repetition has no
more steps than there are states. -/
def trace (s : Store) (names : List String) (id : Nat) : List TraceStep :=
  s.traceOnto names s.size (some id) []

end Store

end ActionSystem
