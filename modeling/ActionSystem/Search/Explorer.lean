import ActionSystem.Search.Run

/-!
# Checking

A model with settings can be checked again and again: each run starts from an empty store, and
its store and counters can be looked at afterwards, also if it ended with an error.
-/

namespace ActionSystem

structure Stats where
  /-- Distinct states found. -/
  states : Nat
  /-- States whose successors were computed. -/
  expanded : Nat
  /-- The largest depth of a state found. -/
  maxDepth : Nat
  /-- Distinct states with the fingerprint of an earlier one. -/
  collisions : Nat
  /-- Successors per action. -/
  fired : List Nat
deriving DecidableEq

inductive Outcome where
  /-- Every reachable state was found, and no invariant failed. -/
  | exhausted (stats : Stats)
  | invariantViolated (invariant : String) (index : Nat) (trace : List TraceStep) (stats : Stats)
  /-- A reachable state has no successor. -/
  | deadlocked (trace : List TraceStep) (stats : Stats)
  /-- The search stopped before its end. -/
  | limitExceeded (limit : Limit) (stats : Stats)

/-- A model with its settings and what the last run left behind. -/
structure Explorer where
  model : Model
  config : Config
  run : Run

namespace Outcome

def stats : Outcome → Stats
  | exhausted s | invariantViolated _ _ _ s | deadlocked _ s | limitExceeded _ s => s

def trace? : Outcome → Option (List TraceStep)
  | invariantViolated _ _ t _ | deadlocked t _ => some t
  | exhausted _ | limitExceeded _ _ => none

end Outcome

def Run.stats (r : Run) : Stats :=
  ⟨r.store.size, r.expanded, r.maxDepth, r.store.collisions, r.fired⟩

def Run.fresh (m : Model) (progress : Progress) : Run :=
  { fired := m.actions.map fun _ => 0, progress }

def Run.outcome (names : List String) (r : Run) : Option Stop → Except CheckError Outcome
  | none => .ok (.exhausted r.stats)
  | some (.error e) => .error e
  | some (.violation id v) =>
    .ok (.invariantViolated v.name v.index (r.store.trace names id) r.stats)
  | some (.deadlock id) => .ok (.deadlocked (r.store.trace names id) r.stats)
  | some (.limit l) => .ok (.limitExceeded l r.stats)

namespace Explorer

/-- Bind the constants of a specification. There has to be a value for each, and no more. -/
def new (spec : Spec) (constants : List Value) (config : Config) : Except CheckError Explorer :=
  match spec.constants[constants.length]? with
  | some missing => .error (.missingConstant missing.name)
  | none =>
    if spec.constants.length < constants.length then
      .error (.surplusConstants spec.constants.length constants.length)
    else
      let model := Model.ofSpec spec constants
      .ok ⟨model, config, .fresh model {}⟩

/-- Explore the model from its initial states, telling states apart by `fp` first. -/
def check (fp : State → Fingerprint) (x : Explorer) (around : Surroundings) :
    Except CheckError Outcome × Explorer :=
  let (run, stop) := Run.explore fp x.model x.config around (.fresh x.model x.run.progress)
  (run.outcome x.model.actionNames stop, { x with run })

end Explorer

end ActionSystem
