import ActionSystem.Proofs.Search.Outcome
import ActionSystem.Search.Walk

/-!
# Random walks

Every walk replays in the model and ends as its outcome says, whatever choices are made on the way
(`faithful_of_walk`). A model that a search has exhausted gives the walks no way to fail: they see
none but the states of the search, and the invariants hold in all of them.
-/

namespace ActionSystem

/-! ## Choices -/

namespace Chooser

variable {γ : Type} {c : Chooser γ}

/-- One of the items is chosen if there are any, and nothing if there are none. -/
def Lawful (c : Chooser γ) : Prop :=
  ∀ (α : Type) (xs : List α) (g : γ),
    xs = [] ∧ (c.choose xs g).1 = none ∨ ∃ x ∈ xs, (c.choose xs g).1 = some x

theorem Lawful.eq_nil {α : Type} {xs : List α} {g g' : γ} (h : c.Lawful)
    (chosen : c.choose xs g = (none, g')) : xs = [] := by
  rcases h α xs g with ⟨hnil, -⟩ | ⟨x, -, hsome⟩
  · exact hnil
  · rw [chosen] at hsome
    cases hsome

theorem Lawful.mem {α : Type} {xs : List α} {x : α} {g g' : γ} (h : c.Lawful)
    (chosen : c.choose xs g = (some x, g')) : x ∈ xs := by
  rcases h α xs g with ⟨-, hnone⟩ | ⟨y, hy, hsome⟩
  · rw [chosen] at hnone
    cases hnone
  · rw [chosen] at hsome
    cases hsome
    exact hy

-- It is enough to pick a position within the list.
theorem lawful_of_pick_lt (h : ∀ n g, 0 < n → (c.pick n g).1 < n) : c.Lawful := by
  intro α xs g
  cases xs with
  | nil => exact .inl ⟨rfl, rfl⟩
  | cons x xs =>
    have hlt : (c.pick (xs.length + 1) g).1 < (x :: xs).length := h _ g (Nat.succ_pos _)
    exact .inr ⟨_, List.getElem_mem hlt, List.getElem?_eq_getElem hlt⟩

end Chooser

namespace Model

variable {m : Model} {γ : Type} {c : Chooser γ}

/-! ## Steps -/

structure StepsOf (m : Model) (s : State) (start : Nat) (all : List TraceStep) : Prop where
  follows : ∀ q ∈ all, ∀ p : TraceStep, p.state = s → m.Follows p q
  still : all = [] → ∀ action, start ≤ action → m.successors action s = .ok []

theorem getElem?_of_drop_eq_cons {start : Nat} {r : Relation} {rs : List Relation}
    (h : m.actions.drop start = r :: rs) :
    m.actions[start]? = some r ∧ m.actions.drop (start + 1) = rs := by
  constructor
  · rw [← List.head?_drop, h]
    rfl
  · rw [← List.tail_drop, h]
    rfl

theorem stepsOf_of_stepsFrom {s : State} {start : Nat} {rs : List Relation}
    {all : List TraceStep} (hrs : m.actions.drop start = rs)
    (h : m.stepsFrom s start rs = .ok all) : m.StepsOf s start all := by
  induction rs generalizing start all with
  | nil =>
    cases h
    refine ⟨by simp, fun _ action hle => Run.successors_of_length_le ?_ s⟩
    have := List.drop_eq_nil_iff.mp hrs
    omega
  | cons r rs ih =>
    simp only [stepsFrom, Result.bind_eq_ok, Result.pure_eq_ok, Phase.run_eq_ok] at h
    obtain ⟨next, hnext, later, hlater, rfl⟩ := h
    obtain ⟨hget, hdrop⟩ := getElem?_of_drop_eq_cons hrs
    have hname : m.actionNames[start]? = some r.name := by
      simp [actionNames, hget]
    have hrest := ih hdrop hlater
    constructor
    · intro q hq p hp
      rcases List.mem_append.mp hq with hq | hq
      · obtain ⟨t, ht, rfl⟩ := List.mem_map.mp hq
        exact ⟨start, r.name, hname, rfl, next, hp ▸ hnext, ht⟩
      · exact hrest.follows q hq p hp
    · intro hnil action hle
      obtain ⟨hnone, hlater⟩ := List.append_eq_nil_iff.mp hnil
      rcases Nat.eq_or_lt_of_le hle with rfl | hlt
      · rw [hnext, List.map_eq_nil_iff.mp hnone]
      · exact hrest.still hlater action hlt

theorem exists_stepsFrom {s : State}
    (evaluates : ∀ action, ∃ next, m.successors action s = .ok next)
    (start : Nat) (rs : List Relation) : ∃ all, m.stepsFrom s start rs = .ok all := by
  induction rs generalizing start with
  | nil => exact ⟨[], rfl⟩
  | cons r rs ih =>
    obtain ⟨next, hnext⟩ := evaluates start
    obtain ⟨later, hlater⟩ := ih (start + 1)
    refine ⟨next.map (⟨some r.name, ·⟩) ++ later, ?_⟩
    simp only [stepsFrom, Result.bind_eq_ok, Result.pure_eq_ok, Phase.run_eq_ok]
    exact ⟨next, hnext, later, hlater, rfl⟩

inductive WalksTo (m : Model) (c : Chooser γ) (taken : List TraceStep) (step : TraceStep) (g : γ) :
    Nat → WalkOutcome → Prop where
  | violated {n v} (found : m.violation? step.state = .ok (some v)) :
      WalksTo m c taken step g n (.invariantViolated v.name (step :: taken).reverse)
  | completed (clean : m.violation? step.state = .ok none) :
      WalksTo m c taken step g 0 (.completed taken.length (step :: taken).reverse)
  | deadlocked {n all g'} (clean : m.violation? step.state = .ok none)
      (steps : m.steps step.state = .ok all) (chosen : c.choose all g = (none, g')) :
      WalksTo m c taken step g (n + 1) (.deadlocked (step :: taken).reverse)
  | goOn {n all next g' o} (clean : m.violation? step.state = .ok none)
      (steps : m.steps step.state = .ok all) (chosen : c.choose all g = (some next, g'))
      (rest : m.walkOn c (step :: taken) next n g' = .ok o) : WalksTo m c taken step g (n + 1) o

theorem walkOn_eq_ok {taken : List TraceStep} {step : TraceStep} {n : Nat} {g : γ}
    {o : WalkOutcome} : m.walkOn c taken step n g = .ok o ↔ m.WalksTo c taken step g n o := by
  constructor
  · intro h
    unfold walkOn at h
    simp only [Result.bind_eq_ok] at h
    obtain ⟨found, hfound, h⟩ := h
    cases found with
    | some v =>
      cases h
      exact .violated hfound
    | none =>
      cases n with
      | zero =>
        cases h
        exact .completed hfound
      | succ n =>
        simp only [Result.bind_eq_ok] at h
        obtain ⟨all, hall, h⟩ := h
        cases hchosen : c.choose all g with
        | mk chosen g' =>
          rw [hchosen] at h
          cases chosen with
          | none =>
            cases h
            exact .deadlocked hfound hall hchosen
          | some next => exact .goOn hfound hall hchosen h
  · intro h
    unfold walkOn
    simp only [Result.bind_eq_ok]
    cases h with
    | violated found => exact ⟨_, found, rfl⟩
    | completed clean => exact ⟨none, clean, rfl⟩
    | @deadlocked n all g' clean steps chosen =>
      refine ⟨none, clean, ?_⟩
      simp only [Result.bind_eq_ok]
      exact ⟨all, steps, by rw [chosen]; rfl⟩
    | @goOn n all next g' o clean steps chosen rest =>
      refine ⟨none, clean, ?_⟩
      simp only [Result.bind_eq_ok]
      exact ⟨all, steps, by rw [chosen]; exact rest⟩

/-! ## What a walk tells -/

/-- A walk of at most `n` actions that replays in the model and ends as its outcome says. -/
structure Faithful (m : Model) (n : Nat) (o : WalkOutcome) : Prop where
  replays : m.Replays o.trace
  earlier : ∀ p ∈ o.trace.dropLast, m.Satisfies p.state
  completed : ∀ steps trace, o = .completed steps trace → steps = n ∧ trace.length = n + 1
  violated : ∀ name trace, o = .invariantViolated name trace → ∃ index, ∃ last ∈ trace.getLast?,
    Violation.IsFirst m.env last.state 0 m.invariants ⟨index, name, last.state⟩
  still : ∀ trace, o = .deadlocked trace →
    ∃ last ∈ trace.getLast?, ∀ action, m.successors action last.state = .ok []

structure Underway (m : Model) (taken : List TraceStep) (step : TraceStep) : Prop where
  replays : m.Replays (step :: taken).reverse
  earlier : ∀ p ∈ taken, m.Satisfies p.state

namespace Underway

variable {taken : List TraceStep} {step : TraceStep}

theorem start {s : State} (admitted : m.Initial s) : m.Underway [] ⟨none, s⟩ :=
  ⟨replays_singleton admitted, by simp⟩

theorem getLast?_eq (taken : List TraceStep) (step : TraceStep) :
    (step :: taken).reverse.getLast? = some step := by
  simp

theorem satisfies_dropLast (h : m.Underway taken step) :
    ∀ p ∈ (step :: taken).reverse.dropLast, m.Satisfies p.state := by
  rw [List.reverse_cons, List.dropLast_concat]
  simpa using h.earlier

theorem goOn (h : m.Underway taken step) (clean : m.violation? step.state = .ok none)
    {next : TraceStep} (move : m.Follows step next) : m.Underway (step :: taken) next where
  replays := by
    rw [List.reverse_cons]
    exact h.replays.concat (getLast?_eq taken step) move
  earlier := List.forall_mem_cons.mpr ⟨violation?_eq_none.mp clean, h.earlier⟩

theorem violated (h : m.Underway taken step) {v : Violation}
    (found : m.violation? step.state = .ok (some v)) (n : Nat) :
    m.Faithful n (.invariantViolated v.name (step :: taken).reverse) where
  replays := h.replays
  earlier := h.satisfies_dropLast
  completed := by simp
  violated := by
    intro name trace heq
    cases heq
    exact ⟨v.index, step, getLast?_eq taken step, isFirst_of_violation? found⟩
  still := by simp

theorem completed (h : m.Underway taken step) :
    m.Faithful taken.length (.completed taken.length (step :: taken).reverse) where
  replays := h.replays
  earlier := h.satisfies_dropLast
  completed := by
    intro steps trace heq
    cases heq
    simp
  violated := by simp
  still := by simp

theorem deadlocked (h : m.Underway taken step)
    (still : ∀ action, m.successors action step.state = .ok []) (n : Nat) :
    m.Faithful n (.deadlocked (step :: taken).reverse) where
  replays := h.replays
  earlier := h.satisfies_dropLast
  completed := by simp
  violated := by simp
  still := by
    intro trace heq
    cases heq
    exact ⟨step, getLast?_eq taken step, still⟩

-- Whatever is chosen on the way, the rest of the walk ends as its outcome says.
theorem faithful (lawful : c.Lawful) {n : Nat} {g : γ} {o : WalkOutcome}
    (h : m.Underway taken step) (hwalk : m.walkOn c taken step n g = .ok o) :
    m.Faithful (taken.length + n) o := by
  induction n generalizing taken step g with
  | zero =>
    cases walkOn_eq_ok.mp hwalk with
    | violated found => exact h.violated found _
    | completed clean => exact h.completed
  | succ n ih =>
    cases walkOn_eq_ok.mp hwalk with
    | violated found => exact h.violated found _
    | @deadlocked _ all g' clean steps chosen =>
      have hstill := (stepsOf_of_stepsFrom rfl steps).still (lawful.eq_nil chosen)
      exact h.deadlocked (fun action => hstill action (Nat.zero_le action)) _
    | @goOn _ all next g' _ clean steps chosen rest =>
      have hmove : m.Follows step next :=
        (stepsOf_of_stepsFrom rfl steps).follows next (lawful.mem chosen) step rfl
      have hrest := ih (h.goOn clean hmove) rest
      rw [List.length_cons] at hrest
      exact (show taken.length + 1 + n = taken.length + (n + 1) by omega) ▸ hrest

end Underway

theorem walk_eq_ok {n : Nat} {g : γ} {o : WalkOutcome} :
    m.walk c n g = .ok o ↔ ∃ all s g', m.initialStates = .ok all ∧
      c.choose all g = (some s, g') ∧ m.walkOn c [] ⟨none, s⟩ n g' = .ok o := by
  simp only [walk, Result.bind_eq_ok, Phase.run_eq_ok]
  constructor
  · intro h
    obtain ⟨all, hall, h⟩ := h
    cases hchosen : c.choose all g with
    | mk chosen g' =>
      rw [hchosen] at h
      cases chosen with
      | none => cases h
      | some s => exact ⟨all, s, g', hall, hchosen, h⟩
  · intro h
    obtain ⟨all, s, g', hall, hchosen, h⟩ := h
    exact ⟨all, hall, by rw [hchosen]; exact h⟩

theorem faithful_of_walk (lawful : c.Lawful) {n : Nat} {g : γ} {o : WalkOutcome}
    (h : m.walk c n g = .ok o) : m.Faithful n o := by
  obtain ⟨all, s, g', hall, hchosen, h⟩ := walk_eq_ok.mp h
  have hstart := Underway.start ⟨all, hall, lawful.mem hchosen⟩
  exact (show [].length + n = n by simp) ▸ hstart.faithful lawful h

/-! ## Walks in an exhausted model -/

structure Healthy (m : Model) : Prop where
  satisfied : ∀ s, m.Reachable s → m.Satisfies s
  evaluated : ∀ s, m.Reachable s → ∀ action, ∃ next, m.successors action s = .ok next

theorem Healthy.exists_walkOn (h : m.Healthy) (lawful : c.Lawful) (taken : List TraceStep)
    (step : TraceStep) (n : Nat) (g : γ) (path : m.Reachable step.state) :
    ∃ o, m.walkOn c taken step n g = .ok o ∧ ∀ name trace, o ≠ .invariantViolated name trace := by
  have clean : m.violation? step.state = .ok none :=
    violation?_eq_none.mpr (h.satisfied _ path)
  induction n generalizing taken step g with
  | zero => exact ⟨_, walkOn_eq_ok.mpr (.completed clean), by simp⟩
  | succ n ih =>
    obtain ⟨all, steps⟩ := exists_stepsFrom (h.evaluated _ path) 0 m.actions
    cases chosen : c.choose all g with
    | mk next g' =>
      cases next with
      | none => exact ⟨_, walkOn_eq_ok.mpr (.deadlocked clean steps chosen), by simp⟩
      | some next =>
        have hmove : m.Follows step next :=
          (stepsOf_of_stepsFrom rfl steps).follows next (lawful.mem chosen) step rfl
        have hnext := hmove.reachable path
        obtain ⟨o, ho, hclean⟩ :=
          ih _ next g' hnext (violation?_eq_none.mpr (h.satisfied _ hnext))
        exact ⟨o, walkOn_eq_ok.mpr (.goOn clean steps chosen ho), hclean⟩

theorem Healthy.exists_walk (h : m.Healthy) (lawful : c.Lawful) (n : Nat) (g : γ) {s : State}
    (admitted : m.Initial s) :
    ∃ o, m.walk c n g = .ok o ∧ ∀ name trace, o ≠ .invariantViolated name trace := by
  obtain ⟨all, hall, hs⟩ := admitted
  cases chosen : c.choose all g with
  | mk first g' =>
    cases first with
    | none =>
      rw [lawful.eq_nil chosen] at hs
      cases hs
    | some t =>
      have path : m.Reachable t := ⟨0, .initial ⟨all, hall, lawful.mem chosen⟩⟩
      obtain ⟨o, ho, hclean⟩ := h.exists_walkOn lawful [] ⟨none, t⟩ n g' path
      exact ⟨o, walk_eq_ok.mpr ⟨all, t, g', hall, chosen, ho⟩, hclean⟩

end Model

namespace Run.Finished

variable {fp : State → Fingerprint} {m : Model} {c : Config} {r : Run}

theorem healthy (h : r.Finished fp m c) : m.Healthy where
  satisfied := by
    intro s path
    obtain ⟨e, rfl, hsatisfied, -⟩ := h.closed_of_mem (h.mem_states_iff.mpr path)
    exact hsatisfied
  evaluated := by
    intro s path action
    obtain ⟨e, rfl, -, hclosed⟩ := h.closed_of_mem (h.mem_states_iff.mpr path)
    obtain ⟨next, hnext, -⟩ := hclosed.1 action
    exact ⟨next, hnext⟩

theorem moves (h : r.Finished fp m c) (hc : c.checkDeadlock = true) {s : State}
    (path : m.Reachable s) : ∃ action t, m.Step action s t := by
  obtain ⟨e, rfl, -, hclosed⟩ := h.closed_of_mem (h.mem_states_iff.mpr path)
  exact hclosed.2 hc

end Run.Finished

/-- A walk without violation through the states of a store, stuck only where that is allowed. -/
structure WalkOutcome.Harmless (config : Config) (store : Store) (o : WalkOutcome) : Prop where
  clean : ∀ name trace, o ≠ .invariantViolated name trace
  allowed : ∀ trace, o = .deadlocked trace → config.checkDeadlock = false
  stored : ∀ p ∈ o.trace, p.state ∈ store.states

theorem Run.Finished.harmless {fp : State → Fingerprint} {m : Model} {c : Config} {r : Run}
    (h : r.Finished fp m c) {n : Nat} {o : WalkOutcome} (faithful : m.Faithful n o)
    (clean : ∀ name trace, o ≠ .invariantViolated name trace) : o.Harmless c r.store where
  clean := clean
  allowed := by
    intro trace ho
    obtain ⟨last, hlast, still⟩ := faithful.still trace ho
    have htrace : o.trace = trace := by rw [ho]; rfl
    have path := faithful.replays.reachable last (htrace ▸ List.mem_of_getLast? hlast)
    by_contra hc
    obtain ⟨action, t, next, hnext, ht⟩ := h.moves (by simpa using hc) path
    rw [still action] at hnext
    cases hnext
    cases ht
  stored := fun p hp => h.mem_states_iff.mpr (faithful.replays.reachable p hp)

namespace Explorer

variable {γ : Type} {c : Chooser γ}

/-- Every walk is faithful to the model, and after a search that has exhausted the model there are
no failing walks, whatever fingerprints the search works with. -/
theorem walks_agree (x : Explorer) (lawful : c.Lawful) (n : Nat) (g : γ) :
    (∀ o, x.model.walk c n g = .ok o → x.model.Faithful n o) ∧
      ∀ (fp : State → Fingerprint) around stats,
        (x.check fp around).1 = .ok (.exhausted stats) →
          ∃ o, x.model.walk c n g = .ok o ∧
            o.Harmless x.config (x.check fp around).2.run.store := by
  refine ⟨fun o => Model.faithful_of_walk lawful, fun fp around stats h => ?_⟩
  obtain ⟨hfinished, s, admitted⟩ := finished_of_check h
  obtain ⟨o, ho, clean⟩ := hfinished.healthy.exists_walk lawful n g admitted
  exact ⟨o, ho, hfinished.harmless (Model.faithful_of_walk lawful ho) clean⟩

-- Always taking the first step there is, the counter goes up and rests at its end.
theorem walks_agree_counting :
    let first : Chooser Unit := ⟨fun _ => (), fun _ g => (0, g)⟩
    let trace := [⟨none, ⟨[.int 0]⟩⟩, ⟨some "Up", ⟨[.int 1]⟩⟩, ⟨some "Up", ⟨[.int 2]⟩⟩,
      ⟨some "Rest", ⟨[.int 2]⟩⟩]
    ((counting []).check scalar {}).1 = .ok (.exhausted ⟨3, 3, 2, 0, [2, 3]⟩) ∧
      (counting []).simulate first 3 42 = .ok (.completed 3 trace) ∧
      (counting []).model.Faithful 3 (.completed 3 trace) ∧
      ∃ o, (counting []).simulate first 3 42 = .ok o ∧
        o.Harmless {} ((counting []).check scalar {}).2.run.store := by
  intro first trace
  have hcheck : ((counting []).check scalar {}).1 = .ok (.exhausted ⟨3, 3, 2, 0, [2, 3]⟩) := by cbv
  have hwalk : (counting []).simulate first 3 42 = .ok (.completed 3 trace) := by cbv
  have lawful : first.Lawful := Chooser.lawful_of_pick_lt fun _ _ hn => hn
  have hagree := walks_agree (counting []) lawful 3 ()
  exact ⟨hcheck, hwalk, hagree.1 _ hwalk, hagree.2 scalar {} _ hcheck⟩

end Explorer

end ActionSystem
