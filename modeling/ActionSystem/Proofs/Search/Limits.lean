import ActionSystem.Proofs.Search.Keeping
import ActionSystem.Proofs.Search.Outcome

/-!
# Limits on states and depth

A search never keeps more states than its limit allows. When it stops for a limit, there are states
that it has not found, and when it ends without a verdict of its own, there are none.
-/

namespace ActionSystem

variable {fp : State → Fingerprint} {m : Model} {c : Config} {r : Run}

namespace Run

/-! ## The size of the store -/

def Fits (c : Config) (r : Run) : Prop := ∀ limit, c.maxStates = some limit → r.store.size ≤ limit

abbrev MeetsFits (c : Config) : Outlook → Prop :=
  Outlook.Meets (Fits c) fun r _ => r.Fits c

theorem discover_fits (h : r.Fits c) (e : Entry) : MeetsFits c (r.discover fp m c e) := by
  unfold discover
  by_cases hfull : r.isFull c
  · rw [if_pos hfull]
    exact h
  rw [if_neg hfull]
  by_cases hknown : r.store.contains fp e.state
  · rw [if_pos hknown]
    exact h
  rw [if_neg hknown]
  have hgrow : (r.grow fp e).Fits c := by
    intro limit hlimit
    change (r.store.add fp e).size ≤ limit
    rw [Store.size_add]
    by_contra hlt
    exact hfull ((Option.any_eq_true _ _).mpr ⟨limit, hlimit, decide_eq_true (by omega)⟩)
  simp only []
  cases m.violation? e.state with
  | error err => exact hgrow
  | ok found => cases found <;> exact hgrow

theorem keeps_fits (fp : State → Fingerprint) (m : Model) (c : Config) :
    Keeps fp m c (fun s => ∀ limit, c.maxStates = some limit → s.size ≤ limit)
      fun r _ => r.Fits c where
  discover := fun _ e h _ => discover_fits h.kept e
  fails := fun _ _ h _ => h
  stops := fun _ _ h _ => h

end Run

/-! ## Checks -/

/-- The limits on states and depth are kept exactly, and an outcome tells when they counted. -/
structure KeepsLimits (m : Model) (c : Config) (store : Store)
    (outcome : Except CheckError Outcome) : Prop where
  size_le : ∀ limit, c.maxStates = some limit → store.size ≤ limit
  full : ∀ stats, outcome = .ok (.limitExceeded .states stats) →
    c.maxStates = some stats.states ∧ ∃ s, m.Reachable s ∧ s ∉ store.states
  cut : ∀ stats, outcome = .ok (.limitExceeded .depth stats) →
    ∃ limit, c.maxDepth = some limit ∧ store.CutAt m limit
  complete : ∀ stats, outcome = .ok (.exhausted stats) → ∀ s, m.Reachable s → s ∈ store.states

namespace Explorer

theorem check_fits (fp : State → Fingerprint) (x : Explorer) (around : Surroundings) :
    (x.check fp around).2.run.Fits x.config :=
  x.check_keeps around (Run.keeps_fits fp x.model x.config) fun _ _ => Nat.zero_le _

/-- Every check keeps the limits on states and depth exactly, whatever the fingerprints are. -/
theorem keepsLimits_of_check (fp : State → Fingerprint) (x : Explorer) (around : Surroundings) :
    KeepsLimits x.model x.config (x.check fp around).2.run.store (x.check fp around).1 := by
  have hfits := x.check_fits fp around
  obtain ⟨stop, hstop, hmeets⟩ := x.check_meets fp around
  rw [hstop]
  refine ⟨hfits, fun stats h => ?_, fun stats h => ?_, fun stats h => ?_⟩
  · obtain rfl : stop = some (.limit .states) := by
      rcases stop with _ | _ | _ | _ | _ <;> cases h
      rfl
    cases h
    obtain ⟨limit, hlimit, hle⟩ := hmeets.reached
    have heq : (x.check fp around).2.run.store.size = limit :=
      Nat.le_antisymm (hfits limit hlimit) hle
    exact ⟨hlimit.trans (congrArg some heq.symm), hmeets.missing⟩
  · obtain rfl : stop = some (.limit .depth) := by
      rcases stop with _ | _ | _ | _ | _ <;> cases h
      rfl
    exact hmeets
  · obtain rfl : stop = none := by
      rcases stop with _ | _ | _ | _ | _ <;> cases h
      rfl
    exact fun s => hmeets.1.mem_states_iff.mpr

-- With room for two states, or for one step, the third state of the counter is left out.
theorem keepsLimits_of_check_counting :
    let full : Explorer := { counting [] with config := { maxStates := some 2 } }
    let cut : Explorer := { counting [] with config := { maxDepth := some 1 } }
    (full.check scalar {}).1 = .ok (.limitExceeded .states ⟨2, 1, 1, 0, [2, 1]⟩) ∧
      KeepsLimits full.model full.config (full.check scalar {}).2.run.store
        (full.check scalar {}).1 ∧
      (cut.check scalar {}).1 = .ok (.limitExceeded .depth ⟨2, 2, 1, 0, [2, 2]⟩) ∧
      KeepsLimits cut.model cut.config (cut.check scalar {}).2.run.store
        (cut.check scalar {}).1 := by
  intro full cut
  have hfull : (full.check scalar {}).1 =
      .ok (.limitExceeded .states ⟨2, 1, 1, 0, [2, 1]⟩) := by cbv
  have hcut : (cut.check scalar {}).1 = .ok (.limitExceeded .depth ⟨2, 2, 1, 0, [2, 2]⟩) := by cbv
  exact ⟨hfull, keepsLimits_of_check scalar full {}, hcut,
    keepsLimits_of_check scalar cut {}⟩

end Explorer

end ActionSystem
