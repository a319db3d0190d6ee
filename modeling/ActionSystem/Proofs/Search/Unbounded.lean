import ActionSystem.Proofs.Search.Outcome

/-!
# Searches without bounds

Bounds on states and depth only leave something out. A search that leaves nothing out and is not
stopped by a limit takes the same steps without them (`explore_unbounded`), and the outcomes of a
bounded check that do not hang on its bounds are those of the check without them.
-/

namespace ActionSystem

def Config.unbounded (c : Config) : Config := { c with maxStates := none, maxDepth := none }

/-- Nothing was left out for its depth, and no limit stopped the search. -/
def Outlook.Unlimited (o : Outlook) : Prop := o.1.truncated = false ∧ ∀ l, o.2 ≠ some (.limit l)

namespace Run

variable {fp : State → Fingerprint} {m : Model} {c : Config} {r : Run}

/-! ## Steps -/

/-- If the one step leaves nothing out, then nothing was left out before it, and the other step does
the same. -/
def Carries (bounded free : Run → Outlook) : Prop :=
  ∀ r, (bounded r).Unlimited → r.truncated = false ∧ free r = bounded r

-- Going on with a next step that is carried too, if the search has not stopped.
theorem Carries.andThen {bounded free next next' : Run → Outlook} (h : Carries bounded free)
    (hnext : Carries next next') :
    Carries
      (fun r => match bounded r with
        | (r, none) => next r
        | stopped => stopped)
      (fun r => match free r with
        | (r, none) => next' r
        | stopped => stopped) := by
  intro r hr
  cases hstep : bounded r with
  | mk r' stop =>
    simp only [hstep] at hr
    cases stop with
    | none =>
      obtain ⟨huncut, hrest⟩ := hnext r' hr
      obtain ⟨hstart, hfree⟩ := h r (hstep ▸ ⟨huncut, by simp⟩)
      simp only [hfree, hstep]
      exact ⟨hstart, hrest⟩
    | some x =>
      obtain ⟨hstart, hfree⟩ := h r (hstep ▸ hr)
      simp only [hfree, hstep]
      exact ⟨hstart, trivial⟩

-- What the steps for the items of a list carry, a sweep over the list carries.
theorem Carries.sweep {α : Type} {bounded free : α → Run → Outlook}
    (h : ∀ a, Carries (bounded a) (free a)) (all : List α) :
    Carries (sweep bounded all) (sweep free all) := by
  induction all with
  | nil => exact fun r hr => ⟨hr.1, rfl⟩
  | cons a rest ih => exact (h a).andThen ih

theorem isFull_unbounded (c : Config) (r : Run) : r.isFull c.unbounded = false := rfl

theorem discover_carries (fp : State → Fingerprint) (m : Model) (c : Config) (e : Entry) :
    Carries (discover fp m c e) (discover fp m c.unbounded e) := by
  intro r hr
  unfold discover at hr ⊢
  rw [isFull_unbounded]
  by_cases hfull : r.isFull c
  · rw [if_pos hfull] at hr
    exact absurd rfl (hr.2 .states)
  rw [if_neg hfull] at hr ⊢
  by_cases hknown : r.store.contains fp e.state
  · rw [if_pos hknown] at hr
    exact ⟨hr.1, rfl⟩
  rw [if_neg hknown] at hr
  refine ⟨?_, rfl⟩
  simp only [] at hr
  cases hv : m.violation? e.state with
  | error err =>
    rw [hv] at hr
    exact hr.1
  | ok found =>
    rw [hv] at hr
    cases found <;> exact hr.1

theorem reach_carries (id depth action : Nat) (s : State) :
    Carries (reach fp m c id depth action s) (reach fp m c.unbounded id depth action s) := by
  intro r hr
  unfold reach at hr ⊢
  by_cases hknown : r.store.contains fp s
  · rw [if_pos hknown] at hr ⊢
    rw [if_pos hknown]
    exact ⟨hr.1, rfl⟩
  rw [if_neg hknown] at hr ⊢
  rw [if_neg hknown]
  by_cases hdeep : c.maxDepth.any (· ≤ depth)
  · rw [if_pos hdeep] at hr
    cases hr.1
  rw [if_neg hdeep] at hr ⊢
  exact discover_carries fp m c _ r hr

theorem fire_carries (fp : State → Fingerprint) (m : Model) (c : Config) (id : Nat) (e : Entry)
    (action : Nat) :
    Carries (fire fp m c id e action) (fire fp m c.unbounded id e action) := by
  intro r hr
  unfold fire at hr ⊢
  cases hnext : m.successors action e.state with
  | error err =>
    rw [hnext] at hr
    exact ⟨hr.1, rfl⟩
  | ok next =>
    rw [hnext] at hr
    exact Carries.sweep (reach_carries id e.depth action) next _ hr

theorem truncated_report (c : Config) (r : Run) : (r.report c).truncated = r.truncated := by
  unfold report
  split <;> rfl

theorem expand_carries (id : Nat) (e : Entry) :
    Carries (expand fp m c id e) (expand fp m c.unbounded id e) := by
  intro r hr
  have hsweep := Carries.sweep (fire_carries fp m c id e) (List.range m.actions.length)
  refine hsweep.andThen (fun r' hr' => ⟨?_, rfl⟩) { r with moved := false } hr
  simp only [] at hr'
  split at hr'
  · exact hr'.1
  · exact (truncated_report _ { r' with expanded := r'.expanded + 1 }).symm.trans hr'.1

/-! ## Searches -/

def Undisturbed (c : Config) (around : Surroundings) : Prop :=
  ∀ expanded, c.interruption? around expanded = none

-- Without limits on time and memory, only someone who asks can stop a search.
theorem undisturbed_of_eq_none {around : Surroundings} (time : c.maxTime = none)
    (memory : c.memoryLimit = none) (asked : ∀ n, around.cancelled n = false) :
    Undisturbed c around := by
  intro n
  simp [Config.interruption?, asked, time, memory]

theorem expandAll_carries {around around' : Surroundings} (undisturbed : Undisturbed c around')
    (n : Nat) : Carries (expandAll fp m c around n) (expandAll fp m c.unbounded around' n) := by
  induction n with
  | zero => exact fun r hr => absurd rfl (hr.2 .memory)
  | succ n ih =>
    intro r hr
    have hquiet : c.unbounded.interruption? around' r.expanded = none := undisturbed r.expanded
    unfold expandAll at hr ⊢
    cases he : r.store.get? r.expanded with
    | none =>
      rw [he] at hr
      exact ⟨hr.1, rfl⟩
    | some e =>
      rw [he] at hr
      simp only [hquiet]
      cases hl : c.interruption? around r.expanded with
      | some l =>
        simp only [hl] at hr
        exact absurd rfl (hr.2 l)
      | none =>
        simp only [hl] at hr ⊢
        exact (expand_carries r.expanded e).andThen ih r hr

/-- A search that leaves nothing out and is not stopped by a limit is the same without bounds. -/
theorem explore_unbounded {around around' : Surroundings} (undisturbed : Undisturbed c around')
    (h : (explore fp m c around r).Unlimited) :
    explore fp m c.unbounded around' r = explore fp m c around r := by
  unfold explore at h ⊢
  cases hall : m.initialStates with
  | error err => rfl
  | ok all =>
    cases all with
    | nil => rfl
    | cons s rest =>
      rw [hall] at h
      simp only [] at h ⊢
      have hsweep := Carries.sweep (fun s => discover_carries fp m c ⟨s, none, none, 0⟩) (s :: rest)
      exact (hsweep.andThen (expandAll_carries undisturbed idCount) r h).2

end Run

/-! ## Outcomes -/

/-- The outcome does not hang on the bounds of the check: the search ended by itself, or with a
violation, or with a deadlock at a depth that is smaller than the greatest one allowed. The depth of
the last state of a trace is the number of its actions. -/
def Outcome.Conclusive (c : Config) : Outcome → Prop
  | exhausted _ | invariantViolated _ _ _ _ => True
  | deadlocked trace _ => ∀ limit, c.maxDepth = some limit → trace.length - 1 < limit
  | limitExceeded _ _ => False

namespace Explorer

variable {fp : State → Fingerprint}

def unbounded (x : Explorer) : Explorer := { x with config := x.config.unbounded }

def search (fp : State → Fingerprint) (x : Explorer) (around : Surroundings) : Outlook :=
  Run.explore fp x.model x.config around (.fresh x.model x.run.progress)

theorem check_eq (fp : State → Fingerprint) (x : Explorer) (around : Surroundings) :
    (x.check fp around).1 =
      (x.search fp around).1.outcome x.model.actionNames (x.search fp around).2 := rfl

-- A search with a conclusive outcome leaves nothing out.
theorem unlimited_of_conclusive {x : Explorer} {around : Surroundings} {o : Outcome}
    (h : (x.check fp around).1 = .ok o) (conclusive : o.Conclusive x.config) :
    (x.search fp around).Unlimited := by
  have hsearch := Run.explore_meets fp x.model x.config around x.run.progress
  rw [check_eq] at h
  change Outlook.Meets _ _ (x.search fp around) at hsearch
  cases hr : x.search fp around with
  | mk run stop =>
    rw [hr] at h hsearch
    cases stop with
    | none => exact ⟨hsearch.1.uncut, by simp⟩
    | some stop =>
      cases stop with
      | error e => cases h
      | violation id v => exact ⟨hsearch.uncut, by simp⟩
      | deadlock id =>
        cases h
        obtain ⟨e, hid, -, -, -, hcut⟩ := hsearch.found
        have hlength : (run.store.trace x.model.actionNames id).length = e.depth + 1 :=
          (hsearch.coherent.rooted.trace_leadsTo hid).length_eq
        refine ⟨?_, by simp⟩
        by_contra ht
        obtain ⟨limit, hlimit, hle⟩ := hcut (by simpa using ht)
        have hlt : (run.store.trace x.model.actionNames id).length - 1 < limit :=
          conclusive limit hlimit
        omega
      | limit l =>
        cases h
        exact conclusive.elim

/-- A conclusive outcome is that of every check without bounds, whatever the fingerprints are. -/
theorem check_unbounded {x : Explorer} {around around' : Surroundings} {o : Outcome}
    (undisturbed : Run.Undisturbed x.config around') (h : (x.check fp around).1 = .ok o)
    (conclusive : o.Conclusive x.config) : (x.unbounded.check fp around').1 = .ok o := by
  have hsearch : x.unbounded.search fp around' = x.search fp around :=
    Run.explore_unbounded undisturbed (unlimited_of_conclusive h conclusive)
  rw [check_eq] at h ⊢
  rw [hsearch]
  exact h

-- The counter fits into its bounds exactly, and the climbing one is stuck before it is cut off.
theorem check_unbounded_counting :
    let full : Explorer :=
      { counting [] with config := { maxStates := some 3, maxDepth := some 2 } }
    let stuck : Explorer :=
      { climbing with config := { maxStates := some 3, maxDepth := some 3 } }
    let trace := [⟨none, ⟨[.int 0]⟩⟩, ⟨some "Up", ⟨[.int 1]⟩⟩, ⟨some "Up", ⟨[.int 2]⟩⟩]
    (full.check scalar {}).1 = .ok (.exhausted ⟨3, 3, 2, 0, [2, 3]⟩) ∧
      (full.unbounded.check scalar {}).1 = .ok (.exhausted ⟨3, 3, 2, 0, [2, 3]⟩) ∧
      (stuck.check scalar {}).1 = .ok (.deadlocked trace ⟨3, 3, 2, 0, [2]⟩) ∧
      (stuck.unbounded.check scalar {}).1 = .ok (.deadlocked trace ⟨3, 3, 2, 0, [2]⟩) := by
  intro full stuck trace
  have hfull : (full.check scalar {}).1 = .ok (.exhausted ⟨3, 3, 2, 0, [2, 3]⟩) := by cbv
  have hstuck : (stuck.check scalar {}).1 = .ok (.deadlocked trace ⟨3, 3, 2, 0, [2]⟩) := by cbv
  have quiet (c : Config) (time : c.maxTime = none) (memory : c.memoryLimit = none) :
      Run.Undisturbed c {} := Run.undisturbed_of_eq_none time memory fun _ => rfl
  exact ⟨hfull, check_unbounded (quiet _ rfl rfl) hfull trivial,
    hstuck, check_unbounded (quiet _ rfl rfl) hstuck (by intro limit h; cases h; decide)⟩

end Explorer

end ActionSystem
