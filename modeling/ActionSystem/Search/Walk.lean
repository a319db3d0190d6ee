import ActionSystem.Search.Explorer

/-!
# Random walks

A walk starts from a chosen initial state and goes on by chosen actions, checking the invariants at
every state. How the choices are made is a parameter: a generator of random numbers that starts from
a seed, with a way of picking a position among so many items.
-/

namespace ActionSystem

/-- A source of choices, with what it remembers between them. -/
structure Chooser (γ : Type) where
  /-- What it remembers at the start. -/
  ofSeed : UInt64 → γ
  /-- Picks a number below `n`. -/
  pick : Nat → γ → Nat × γ

inductive WalkOutcome where
  /-- All the actions asked for were taken. -/
  | completed (steps : Nat) (trace : List TraceStep)
  | invariantViolated (invariant : String) (trace : List TraceStep)
  /-- No action had a successor. -/
  | deadlocked (trace : List TraceStep)

namespace WalkOutcome

def trace : WalkOutcome → List TraceStep
  | completed _ t | invariantViolated _ t | deadlocked t => t

end WalkOutcome

namespace Chooser

/-- One of the items, or nothing if there are none. Nothing is picked from an empty list. -/
def choose {γ α : Type} (c : Chooser γ) (xs : List α) (g : γ) : Option α × γ :=
  match xs with
  | [] => (none, g)
  | x :: xs =>
    let (i, g) := c.pick (xs.length + 1) g
    ((x :: xs)[i]?, g)

end Chooser

namespace Model

def stepsFrom (m : Model) (s : State) (action : Nat) :
    List Relation → Except CheckError (List TraceStep)
  | [] => .ok []
  | r :: rs => do
    let next ← (Phase.action r.name).run (m.successors action s)
    let later ← stepsFrom m s (action + 1) rs
    return next.map (⟨some r.name, ·⟩) ++ later

def steps (m : Model) (s : State) : Except CheckError (List TraceStep) :=
  m.stepsFrom s 0 m.actions

/-- Go on for `n` more steps. The steps taken so far are held in reverse, `step` is the last. -/
def walkOn {γ : Type} (m : Model) (c : Chooser γ) (taken : List TraceStep) (step : TraceStep)
    (n : Nat) (g : γ) : Except CheckError WalkOutcome := do
  let walked := step :: taken
  match ← m.violation? step.state with
  | some v => return .invariantViolated v.name walked.reverse
  | none =>
    match n with
    | 0 => return .completed taken.length walked.reverse
    | n + 1 =>
      match c.choose (← m.steps step.state) g with
      | (none, _) => return .deadlocked walked.reverse
      | (some next, g) => m.walkOn c walked next n g
termination_by structural n

def walk {γ : Type} (m : Model) (c : Chooser γ) (n : Nat) (g : γ) :
    Except CheckError WalkOutcome := do
  let initial ← Phase.init.run m.initialStates
  match c.choose initial g with
  | (none, _) => .error .noInitialStates
  | (some s, g) => m.walkOn c [] ⟨none, s⟩ n g

end Model

namespace Explorer

def simulate {γ : Type} (x : Explorer) (c : Chooser γ) (steps : Nat) (seed : UInt64) :
    Except CheckError WalkOutcome :=
  x.model.walk c steps (c.ofSeed seed)

end Explorer

end ActionSystem
