/-!
# Limits of a search

What bounds a search, what it sees of its surroundings, and how its settings are written out.
-/

namespace ActionSystem

structure Config where
  /-- A state without successors is a deadlock. -/
  checkDeadlock : Bool := true
  /-- No more states than this are kept. -/
  maxStates : Option Nat := none
  /-- No more actions than this are taken from an initial state. -/
  maxDepth : Option Nat := none
  /-- The time for one run, in milliseconds. -/
  maxTime : Option Nat := none
  /-- The memory for the process, in megabytes. -/
  memoryLimit : Option Nat := none
  /-- Progress counters are kept. -/
  progress : Bool := false
deriving DecidableEq

inductive Limit where
  | states | depth | time | memory | cancelled
deriving DecidableEq

structure Surroundings where
  /-- Someone asks it to stop. -/
  cancelled : Nat → Bool := fun _ => false
  /-- The milliseconds since its start. -/
  elapsed : Nat → Nat := fun _ => 0
  /-- The memory of the process in megabytes, if known. -/
  memory : Nat → Option Nat := fun _ => none

namespace Limit

def message : Limit → String
  | states => "state limit"
  | depth => "depth limit"
  | time => "time limit"
  | memory => "memory limit"
  | cancelled => "cancelled"

end Limit

namespace Config

/-- The limit that a search has reached from outside when it is about to expand a state. Memory is
looked at before every thousandth state. -/
def interruption? (c : Config) (around : Surroundings) (expanded : Nat) : Option Limit :=
  if around.cancelled expanded then some .cancelled
  else if c.maxTime.any (· ≤ around.elapsed expanded) then some .time
  else if expanded % 1000 == 0 &&
      c.memoryLimit.any fun limit => (around.memory expanded).any (limit ≤ ·) then some .memory
  else none

/-! ## Text -/

def renderOption {α : Type} (render : α → String) : Option α → String
  | none => "None"
  | some a => "Some(" ++ render a ++ ")"

/-- A duration in milliseconds, in the largest unit that it fills, with the decimals it needs. -/
def renderDuration (ms : Nat) : String :=
  if ms = 0 then "0ns"
  else if ms < 1000 then toString ms ++ "ms"
  else if ms % 1000 = 0 then toString (ms / 1000) ++ "s"
  else
    let digits := Nat.toDigits 10 (1000 + ms % 1000)
    let decimals := (digits.drop 1).reverse.dropWhile (· == '0')
    toString (ms / 1000) ++ "." ++ String.ofList decimals.reverse ++ "s"

def render (c : Config) : String :=
  "CheckConfig \x7b check_deadlock: " ++ toString c.checkDeadlock ++
    ", max_states: " ++ renderOption toString c.maxStates ++
    ", max_depth: " ++ renderOption toString c.maxDepth ++
    ", max_time: " ++ renderOption renderDuration c.maxTime ++
    ", memory_limit_mb: " ++ renderOption toString c.memoryLimit ++
    ", progress: " ++ (if c.progress then "Some(\"...\")" else "None") ++ " \x7d"

end Config

end ActionSystem
