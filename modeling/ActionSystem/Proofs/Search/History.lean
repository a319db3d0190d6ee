import ActionSystem.Proofs.Search.Outcome
import ActionSystem.Proofs.Search.Unbounded
import ActionSystem.Search.Walk

/-!
# Repeated checks

A check does not depend on what was checked before: all that an earlier run leaves behind are its
progress counters, and no search looks at these. Three of the counters describe the last run; the
number of expanded states is counted over all runs.
-/

namespace ActionSystem

namespace Run

variable {fp : State → Fingerprint} {m : Model} {c : Config} {around around' : Surroundings}
  {r : Run}

/-! ## Progress counters are not looked at -/

def withProgress (r : Run) (p : Progress) : Run := { r with progress := p }

/-- The second step does the same as the first to a run with other progress counters, except for
these. -/
def Parallel (step step' : Run → Outlook) : Prop :=
  ∀ r p, ∃ p', step' (r.withProgress p) = ((step r).1.withProgress p', (step r).2)

theorem Parallel.andThen {step step' next next' : Run → Outlook} (h : Parallel step step')
    (hnext : Parallel next next') :
    Parallel
      (fun r => match step r with
        | (r, none) => next r
        | stopped => stopped)
      (fun r => match step' r with
        | (r, none) => next' r
        | stopped => stopped) := by
  intro r p
  obtain ⟨p₁, h₁⟩ := h r p
  cases hstep : step r with
  | mk r₁ stop =>
    rw [hstep] at h₁
    cases stop with
    | none =>
      simp only [hstep, h₁]
      exact hnext r₁ p₁
    | some x =>
      simp only [hstep, h₁]
      exact ⟨p₁, rfl⟩

theorem Parallel.sweep {α : Type} {step step' : α → Run → Outlook}
    (h : ∀ a, Parallel (step a) (step' a)) (all : List α) :
    Parallel (sweep step all) (sweep step' all) := by
  induction all with
  | nil => exact fun r p => ⟨p, rfl⟩
  | cons a rest ih => exact (h a).andThen ih

theorem discover_parallel (fp : State → Fingerprint) (m : Model) (c : Config) (e : Entry) :
    Parallel (discover fp m c e) (discover fp m c e) := by
  intro r p
  refine ⟨p, ?_⟩
  unfold discover
  show (if r.isFull c then _ else if r.store.contains fp e.state then _ else _) = _
  by_cases hfull : r.isFull c
  · rw [if_pos hfull, if_pos hfull]
  rw [if_neg hfull, if_neg hfull]
  by_cases hknown : r.store.contains fp e.state
  · rw [if_pos hknown, if_pos hknown]
  rw [if_neg hknown, if_neg hknown]
  cases hv : m.violation? e.state with
  | error err => rfl
  | ok found => cases found <;> rfl

theorem reach_parallel (id depth action : Nat) (s : State) :
    Parallel (reach fp m c id depth action s) (reach fp m c id depth action s) := by
  intro r p
  unfold reach
  show ∃ p', (if r.store.contains fp s then _ else _) = _
  by_cases hknown : r.store.contains fp s
  · rw [if_pos hknown, if_pos hknown]
    exact ⟨p, rfl⟩
  rw [if_neg hknown, if_neg hknown]
  by_cases hdeep : c.maxDepth.any (· ≤ depth)
  · rw [if_pos hdeep, if_pos hdeep]
    exact ⟨p, rfl⟩
  rw [if_neg hdeep, if_neg hdeep]
  exact discover_parallel fp m c _ r p

theorem fire_parallel (fp : State → Fingerprint) (m : Model) (c : Config) (id : Nat) (e : Entry)
    (action : Nat) :
    Parallel (fire fp m c id e action) (fire fp m c id e action) := by
  intro r p
  unfold fire
  cases hnext : m.successors action e.state with
  | error err => exact ⟨p, rfl⟩
  | ok next =>
    exact Parallel.sweep (reach_parallel id e.depth action) next
      { r with
        fired := r.fired.modify action (· + next.length)
        moved := r.moved || !next.isEmpty } p

theorem report_withProgress (c : Config) (r : Run) (p : Progress) :
    ∃ p', (r.withProgress p).report c = (r.report c).withProgress p' := by
  unfold report
  by_cases hc : c.progress
  · rw [if_pos hc, if_pos hc]
    exact ⟨_, rfl⟩
  · rw [if_neg hc, if_neg hc]
    exact ⟨p, rfl⟩

theorem expand_parallel (id : Nat) (e : Entry) :
    Parallel (expand fp m c id e) (expand fp m c id e) := by
  intro r p
  have hsweep := Parallel.sweep (fire_parallel fp m c id e) (List.range m.actions.length)
  refine hsweep.andThen (fun r' p' => ?_) { r with moved := false } p
  show ∃ p'', (if c.checkDeadlock && !r'.moved then _ else _) = _
  by_cases hdead : (c.checkDeadlock && !r'.moved) = true
  · rw [if_pos hdead, if_pos hdead]
    exact ⟨p', rfl⟩
  · rw [if_neg hdead, if_neg hdead]
    obtain ⟨p'', hreport⟩ := report_withProgress c { r' with expanded := r'.expanded + 1 } p'
    exact ⟨p'', congrArg (·, none) hreport⟩

theorem expandAll_parallel (quiet : Undisturbed c around) (quiet' : Undisturbed c around')
    (n : Nat) : Parallel (expandAll fp m c around n) (expandAll fp m c around' n) := by
  induction n with
  | zero => exact fun r p => ⟨p, rfl⟩
  | succ n ih =>
    intro r p
    unfold expandAll
    rw [show (r.withProgress p).store.get? (r.withProgress p).expanded =
      r.store.get? r.expanded from rfl]
    cases he : r.store.get? r.expanded with
    | none => exact ⟨p, rfl⟩
    | some e =>
      rw [show (r.withProgress p).expanded = r.expanded from rfl]
      simp only [quiet r.expanded, quiet' r.expanded]
      exact (expand_parallel r.expanded e).andThen ih r p

/-- Two undisturbed searches from runs that differ in their progress counters only find the same.
-/
theorem explore_parallel (quiet : Undisturbed c around) (quiet' : Undisturbed c around') :
    Parallel (explore fp m c around) (explore fp m c around') := by
  intro r p
  unfold explore
  cases hall : m.initialStates with
  | error err => exact ⟨p, rfl⟩
  | ok all =>
    cases all with
    | nil => exact ⟨p, rfl⟩
    | cons s rest =>
      have hsweep :=
        Parallel.sweep (fun s => discover_parallel fp m c ⟨s, none, none, 0⟩) (s :: rest)
      exact hsweep.andThen (expandAll_parallel quiet quiet' idCount) r p

/-! ## What the progress counters tell -/

/-- The progress counters at a point between two expansions, for a search that was started with
`checked` on the counter. They are brought up to date by the first expansion. -/
structure Reported (checked : Nat) (r : Run) : Prop where
  checked : r.progress.checked = checked + r.expanded
  current : 0 < r.expanded → r.progress.states = r.store.size ∧ r.progress.depth = r.maxDepth ∧
    r.progress.queue = r.store.size - r.expanded

def SameProgress (r r' : Run) : Prop := r'.progress = r.progress ∧ r'.expanded = r.expanded

theorem discover_sameProgress (start : Run) (e : Entry) (h : start.SameProgress r) :
    Outlook.Meets start.SameProgress (fun _ _ => True) (discover fp m c e r) := by
  unfold discover
  by_cases hfull : r.isFull c
  · rw [if_pos hfull]
    trivial
  rw [if_neg hfull]
  by_cases hknown : r.store.contains fp e.state
  · rw [if_pos hknown]
    exact h
  rw [if_neg hknown]
  cases hv : m.violation? e.state with
  | error err => trivial
  | ok found =>
    cases found with
    | none => exact h
    | some v => trivial

theorem fire_sameProgress (start : Run) (id : Nat) (e : Entry) (action : Nat)
    (h : start.SameProgress r) :
    Outlook.Meets start.SameProgress (fun _ _ => True) (fire fp m c id e action r) := by
  unfold fire
  cases hnext : m.successors action e.state with
  | error err => trivial
  | ok next =>
    apply sweep_meets (reach fp m c id e.depth action) (fun _ => start.SameProgress)
    · intro _ s _ r' _ h'
      unfold reach
      by_cases hknown : r'.store.contains fp s
      · rw [if_pos hknown]
        exact h'
      rw [if_neg hknown]
      by_cases hdeep : c.maxDepth.any (· ≤ e.depth)
      · rw [if_pos hdeep]
        exact h'
      rw [if_neg hdeep]
      exact discover_sameProgress start _ h'
    · exact h

-- An expansion that goes on brings the counters up to date.
theorem expand_reported (hc : c.progress = true) {checked : Nat} (id : Nat) (e : Entry)
    (h : r.Reported checked) :
    Outlook.Meets (Reported checked) (fun _ _ => True) (expand fp m c id e r) := by
  have hsweep := sweep_meets (fire fp m c id e) (fun _ => r.SameProgress) (fun _ _ => True)
    (List.range m.actions.length) { r with moved := false }
    (fun _ action _ _ _ h' => fire_sameProgress r id e action h') ⟨rfl, rfl⟩
  unfold expand
  refine hsweep.andThen fun r' hr => ?_
  show Outlook.Meets _ _ (if c.checkDeadlock && !r'.moved then _ else _)
  by_cases hdead : (c.checkDeadlock && !r'.moved) = true
  · rw [if_pos hdead]
    trivial
  rw [if_neg hdead]
  obtain ⟨hprogress, hexpanded⟩ := hr
  show Reported checked (report c { r' with expanded := r'.expanded + 1 })
  rw [report, if_pos hc]
  refine ⟨?_, fun _ => ⟨rfl, rfl, rfl⟩⟩
  show r'.progress.checked + 1 = checked + (r'.expanded + 1)
  rw [hprogress, hexpanded, h.checked, Nat.add_assoc]

theorem expandAll_reported (hc : c.progress = true) (around : Surroundings) {checked : Nat}
    (n : Nat) (h : r.Reported checked) :
    Outlook.Meets (Reported checked) (fun _ _ => True) (expandAll fp m c around n r) := by
  induction n generalizing r with
  | zero => trivial
  | succ n ih =>
    unfold expandAll
    cases he : r.store.get? r.expanded with
    | none =>
      by_cases hcut : r.truncated = true
      · simp only [if_pos hcut]
        trivial
      · simp only [if_neg hcut]
        exact h
    | some e =>
      cases hl : c.interruption? around r.expanded with
      | some l => trivial
      | none => exact (expand_reported hc r.expanded e h).andThen fun r' hr => ih hr

theorem explore_reported (fp : State → Fingerprint) (m : Model) (hc : c.progress = true)
    (around : Surroundings) (progress : Progress) :
    Outlook.Meets (Reported progress.checked) (fun _ _ => True)
      (explore fp m c around (.fresh m progress)) := by
  unfold explore
  cases hall : m.initialStates with
  | error err => trivial
  | ok all =>
    cases all with
    | nil => trivial
    | cons s rest =>
      have hsweep := sweep_meets (fun s => discover fp m c ⟨s, none, none, 0⟩)
        (fun _ => (fresh m progress).SameProgress) (fun _ _ => True) (s :: rest)
        (.fresh m progress) (fun _ s _ _ _ h' => discover_sameProgress _ _ h') ⟨rfl, rfl⟩
      refine hsweep.andThen fun r' hr => expandAll_reported hc around idCount ⟨?_, fun hpos => ?_⟩
      · rw [hr.1, hr.2]
        rfl
      · rw [hr.2] at hpos
        exact absurd hpos (Nat.lt_irrefl 0)

end Run

namespace Explorer

/-! ## Histories -/

inductive Call where
  | check (fp : State → Fingerprint) (around : Surroundings)
  | simulate (steps : Nat) (seed : UInt64)

/-- What a call leaves behind. A walk leaves everything as it is. -/
def call (x : Explorer) : Call → Explorer
  | .check fp around => (x.check fp around).2
  | .simulate _ _ => x

def after (x : Explorer) (calls : List Call) : Explorer := calls.foldl call x

variable {x : Explorer} {fp : State → Fingerprint} {around around' : Surroundings}

-- Calls change nothing but what the last run left behind.
theorem after_eq (x : Explorer) (calls : List Call) :
    x.after calls = { x with run := (x.after calls).run } := by
  induction calls generalizing x with
  | nil => rfl
  | cons a calls ih =>
    cases a with
    | check fp around => exact ih (x.check fp around).2
    | simulate steps seed => exact ih x

theorem search_withRun (fp : State → Fingerprint) (quiet : Run.Undisturbed x.config around)
    (quiet' : Run.Undisturbed x.config around') (run : Run) :
    ∃ p, ({ x with run } : Explorer).search fp around =
      ((x.search fp around').1.withProgress p, (x.search fp around').2) :=
  Run.explore_parallel quiet' quiet (.fresh x.model x.run.progress) run.progress

-- After a check that got through everything the counters describe it. The expanded states are added
-- to those that were counted before.
theorem progress_of_check {stats : Stats} (hc : x.config.progress = true)
    (h : (x.check fp around).1 = .ok (.exhausted stats)) :
    (x.check fp around).2.run.progress =
      ⟨stats.states, stats.maxDepth, 0, x.run.progress.checked + stats.expanded⟩ := by
  have hmeets := Run.explore_meets fp x.model x.config around x.run.progress
  have hreported := Run.explore_reported fp x.model hc around x.run.progress
  rw [check_eq] at h
  show (x.search fp around).1.progress = _
  change Outlook.Meets _ _ (x.search fp around) at hmeets hreported
  cases hrun : x.search fp around with
  | mk run stop =>
    rw [hrun] at h hmeets hreported
    cases stop with
    | some stop => cases stop <;> cases h
    | none =>
      cases h
      obtain ⟨hfinished, s, hs⟩ := hmeets
      -- a search that is over has expanded an initial state at least
      have hpos : 0 < run.expanded := by
        obtain ⟨id, e, hid, -⟩ :=
          Store.mem_states_iff.mp (hfinished.mem_states_iff.mpr ⟨0, .initial hs⟩)
        have := Store.lt_size_of_get? hid
        rw [hfinished.expanded_eq]
        omega
      obtain ⟨hstates, hdepth, hqueue⟩ := hreported.current hpos
      rw [hfinished.expanded_eq, Nat.sub_self] at hqueue
      show run.progress = ⟨run.store.size, run.maxDepth, 0, _ + run.expanded⟩
      rw [← hstates, ← hdepth, ← hqueue, ← hreported.checked]

/-- Every check by an explorer gives what its first check would have given, and leaves the same
store; the progress counters then describe this check, with the expanded states added to those of
the checks before. This is so whatever fingerprints it works with. -/
theorem check_after (fp : State → Fingerprint) (calls : List Call)
    (quiet : Run.Undisturbed x.config around) (quiet' : Run.Undisturbed x.config around') :
    ((x.after calls).check fp around).1 = (x.check fp around').1 ∧
      ((x.after calls).check fp around).2.run.store = (x.check fp around').2.run.store ∧
      ∀ stats, ((x.after calls).check fp around).1 = .ok (.exhausted stats) →
        x.config.progress = true →
          ((x.after calls).check fp around).2.run.progress =
            ⟨stats.states, stats.maxDepth, 0,
              (x.after calls).run.progress.checked + stats.expanded⟩ := by
  obtain ⟨p, hsearch⟩ := search_withRun fp quiet quiet' (x.after calls).run
  rw [← after_eq] at hsearch
  have hmodel : (x.after calls).model = x.model := by
    rw [after_eq]
  have hconfig : (x.after calls).config = x.config := by
    rw [after_eq]
  refine ⟨?_, ?_, fun stats hstats hc => progress_of_check (hconfig ▸ hc) hstats⟩
  · rw [check_eq, check_eq, hsearch, hmodel]
    cases (x.search fp around').2 with
    | none => rfl
    | some stop => cases stop <;> rfl
  · show ((x.after calls).search fp around).1.store = (x.search fp around').1.store
    rw [hsearch]
    rfl

def tracked : Explorer := { counting [] with config := { progress := true } }

theorem check_after_tracked :
    let calls : List Call := [.check scalar {}, .simulate 2 0]
    ((tracked.after calls).check scalar {}).1 = .ok (.exhausted ⟨3, 3, 2, 0, [2, 3]⟩) ∧
      ((tracked.after calls).check scalar {}).1 = (tracked.check scalar {}).1 ∧
      ((tracked.after calls).check scalar {}).2.run.store =
        (tracked.check scalar {}).2.run.store ∧
      ((tracked.after calls).check scalar {}).2.run.progress = ⟨3, 2, 0, 3 + 3⟩ := by
  intro calls
  have h : ((tracked.after calls).check scalar {}).1 =
      .ok (.exhausted ⟨3, 3, 2, 0, [2, 3]⟩) := by cbv
  have hchecked : (tracked.after calls).run.progress.checked = 3 := by cbv
  have quiet : Run.Undisturbed tracked.config {} :=
    Run.undisturbed_of_eq_none rfl rfl fun _ => rfl
  obtain ⟨hresult, hstore, hprogress⟩ := check_after scalar calls quiet quiet
  have hcounters := hprogress _ h rfl
  rw [hchecked] at hcounters
  exact ⟨h, hresult, hstore, hcounters⟩

-- In the second check the counter of expanded states goes on where the first one left it.
theorem checked_ne_expanded_tracked :
    let again := (tracked.after [.check scalar {}]).check scalar {}
    ∃ stats, again.1 = .ok (.exhausted stats) ∧
      again.2.run.progress.checked ≠ stats.expanded := by
  intro again
  have hchecked : again.2.run.progress.checked = 6 := by cbv
  refine ⟨⟨3, 3, 2, 0, [2, 3]⟩, by cbv, ?_⟩
  rw [hchecked]
  decide

end Explorer

end ActionSystem
