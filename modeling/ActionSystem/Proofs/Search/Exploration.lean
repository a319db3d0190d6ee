import Mathlib
import ActionSystem.Proofs.Search.Invariant
import ActionSystem.Proofs.Solve.Enumeration

/-!
# Whole searches

From the invariant of a single step to a whole search: what is known when all states have been
expanded, and what is known when the search stops before.
-/

namespace ActionSystem

def Model.tally (m : Model) (states : List State) : List Nat :=
  (List.range m.actions.length).map fun a => (states.map (m.successorCount a)).sum

namespace Run

variable {fp : State → Fingerprint} {m : Model} {c : Config} {r r' : Run}

/-! ## Counters -/

theorem modify_map_range (n a : Nat) (f : Nat → Nat) (g : Nat → Nat) :
    ((List.range n).map f).modify a g =
      (List.range n).map fun b => if b = a then g (f b) else f b := by
  apply List.ext_getElem?
  intro i
  rw [List.getElem?_modify]
  by_cases hi : i < n
  · simp only [List.getElem?_map, List.getElem?_range hi, Option.map_some]
    by_cases hia : a = i
    · rw [if_pos hia.symm]
      simp [hia]
    · rw [if_neg (Ne.symm hia)]
      simp [hia]
  · have hnone : (List.range n)[i]? = none := by
      rw [List.getElem?_eq_none_iff, List.length_range]
      omega
    simp [hnone]

-- The states that were expanded before are the same in a later run.
theorem Extends.take_states (h : r.Extends r') (hle : r.expanded ≤ r.store.size) :
    r'.store.states.take r.expanded = r.store.states.take r.expanded := by
  apply List.ext_getElem?
  intro i
  rw [List.getElem?_take, List.getElem?_take]
  by_cases hi : i < r.expanded
  · obtain ⟨e, he⟩ := Store.get?_eq_some_of_lt (show i < r.store.size by omega)
    rw [if_pos hi, if_pos hi, Store.states_getElem?, Store.states_getElem?, he, h.kept i e he]
  · rw [if_neg hi, if_neg hi]

def Tallied (m : Model) (r : Run) : Prop :=
  r.fired = m.tally (r.store.states.take r.expanded)

/-! ## One expansion -/

/-- The invariant within an expansion of `e`, after the actions `done`. -/
structure Expanding (fp : State → Fingerprint) (m : Model) (c : Config) (start : Run) (e : Entry)
    (done : List Nat) (r : Run) : Prop where
  inv : r.Inv fp m c
  later : start.Extends r
  covered : ∀ action ∈ done, ∃ next, m.successors action e.state = .ok next ∧
    ∀ t ∈ next, r.Covers c e.depth t
  moved : r.moved = true → ∃ action t, m.Step action e.state t
  still : r.moved = false → ∀ action ∈ done, m.successors action e.state = .ok []
  fired : r.fired = (List.range m.actions.length).map fun a =>
    ((start.store.states.take start.expanded).map (m.successorCount a)).sum +
      if a ∈ done then m.successorCount a e.state else 0

theorem Expanding.fire {start : Run} {e : Entry} {done : List Nat}
    (h : Expanding fp m c start e done r) (he : start.store.get? start.expanded = some e)
    {action : Nat} (fresh : action ∉ done) :
    Outlook.Meets (Expanding fp m c start e (done ++ [action])) (Halted m c)
      (fire fp m c start.expanded e action r) := by
  have hfire := fire_meets h.inv (h.later.expanded ▸ h.later.kept _ _ he) action
  rw [h.later.expanded] at hfire
  refine hfire.mono fun r' hr => ?_
  obtain ⟨next, hnext, hr⟩ := hr
  refine ⟨hr.inv, h.later.trans hr.later, ?_, ?_, ?_, ?_⟩
  · intro a ha
    rcases List.mem_append.mp ha with ha | ha
    · obtain ⟨before, hbefore, hall⟩ := h.covered a ha
      exact ⟨before, hbefore, fun t ht => (hall t ht).mono hr.later⟩
    · rw [List.mem_singleton] at ha
      exact ha ▸ ⟨next, hnext, hr.covered⟩
  · intro hm
    rw [hr.moved, Bool.or_eq_true] at hm
    rcases hm with hm | hm
    · exact h.moved hm
    · cases next with
      | nil => cases hm
      | cons t rest => exact ⟨action, t, _, hnext, List.mem_cons_self⟩
  · intro hm a ha
    rw [hr.moved, Bool.or_eq_false_iff, Bool.not_eq_false', List.isEmpty_iff] at hm
    rcases List.mem_append.mp ha with ha | ha
    · exact h.still hm.1 a ha
    · rw [List.mem_singleton] at ha
      rw [ha, hnext, hm.2]
  · rw [hr.fired, h.fired, modify_map_range]
    apply List.map_congr_left
    intro a _
    have hcount : m.successorCount action e.state = next.length := by
      unfold Model.successorCount
      rw [hnext]
    by_cases ha : a = action
    · subst ha
      rw [if_pos rfl, if_neg fresh, if_pos (by simp), hcount]
      omega
    · simp [ha]

theorem Inv.advance (h : r.Inv fp m c) {e : Entry} (he : r.store.get? r.expanded = some e)
    (closed : r.Closed m c e) : Inv fp m c { r with expanded := r.expanded + 1 } where
  toSound := { h.toSound with }
  seeded := h.seeded
  closed := by
    intro id f hlt hf
    change id < r.expanded + 1 at hlt
    change r.store.get? id = some f at hf
    by_cases hid : id = r.expanded
    · rw [hid, he] at hf
      cases hf
      exact closed
    · exact h.closed id f (by omega) hf
  span := by
    intro id f g hf hg
    have hle := h.coherent.sorted _ _ _ _ (Nat.le_succ r.expanded) he hf
    have hspan := h.span id e g he hg
    omega
  expanded_le := Store.lt_size_of_get? he
  within := h.within
  beyond := h.beyond
  late := by
    intro ht f hf
    obtain ⟨limit, hlimit, hle⟩ := h.late ht e he
    exact ⟨limit, hlimit, Nat.le_trans hle (h.coherent.sorted _ _ _ _ (Nat.le_succ _) he hf)⟩

theorem Inv.report (h : r.Inv fp m c) : (r.report c).Inv fp m c := by
  unfold Run.report
  split
  · exact { h with }
  · exact h

theorem report_tallied (h : r.Tallied m) : (r.report c).Tallied m := by
  unfold Run.report
  split
  · exact h
  · exact h

theorem successors_of_length_le {action : Nat} (h : m.actions.length ≤ action) (s : State) :
    m.successors action s = .ok [] := by
  unfold Model.successors
  rw [List.getElem?_eq_none h]

-- The states at smaller distances have been expanded before, and had successors.
theorem Inv.stuck (h : r.Inv fp m c) (hc : c.checkDeadlock = true) {e : Entry}
    (he : r.store.get? r.expanded = some e)
    (still : ∀ action, m.successors action e.state = .ok []) : r.Stuck m c r.expanded := by
  have hfound : ∀ n s, n ≤ e.depth → m.ReachedIn n s → r.Holds s n := by
    intro n s hn path
    refine h.holds_of_reachedIn path (fun f hf => ?_) fun _ limit hlimit => ?_
    · rw [he] at hf
      cases hf
      exact hn
    · have := h.within limit hlimit _ e he
      omega
  refine ⟨h.coherent, e, he, still, fun n s hn path => ?_, fun n s hn path => ?_,
    fun ht => h.late ht e he⟩
  · obtain ⟨id, f, hid, rfl, hd⟩ := hfound n s (by omega) path
    have hlt : id < r.expanded := by
      by_contra hge
      have := h.coherent.sorted _ _ _ _ (by omega) he hid
      omega
    exact (h.closed id f hlt hid).2 hc
  · obtain ⟨id, f, hid, rfl, -⟩ := hfound n s hn path
    exact h.satisfied id f hid

theorem expand_meets (h : r.Inv fp m c) {e : Entry} (he : r.store.get? r.expanded = some e)
    (htally : r.Tallied m) :
    Outlook.Meets (fun r' => r'.Inv fp m c ∧ r'.Tallied m) (Halted m c)
      (expand fp m c r.expanded e r) := by
  have hsweep := sweep_meets (Run.fire fp m c r.expanded e) (Expanding fp m c r e) (Halted m c)
    (List.range m.actions.length) { r with moved := false }
    (by
      intro done action rest r₁ hall h₁
      have hnodup := hall ▸ List.nodup_range (n := m.actions.length)
      exact h₁.fire he fun hmem =>
        (List.nodup_append.mp hnodup).2.2 action hmem action List.mem_cons_self rfl)
    ⟨{ h with }, ⟨fun _ _ => id, id, rfl⟩, by simp, by simp, by simp, by
      simpa [Tallied, Model.tally] using htally⟩
  unfold expand
  refine hsweep.andThen fun r' hr => ?_
  have hget : r'.store.get? r'.expanded = some e := hr.later.expanded ▸ hr.later.kept _ _ he
  simp only []
  by_cases hdead : (c.checkDeadlock && !r'.moved) = true
  · rw [if_pos hdead]
    rw [Bool.and_eq_true, Bool.not_eq_true'] at hdead
    have hstill : ∀ action, m.successors action e.state = .ok [] := by
      intro action
      by_cases ha : action < m.actions.length
      · exact hr.still hdead.2 action (List.mem_range.mpr ha)
      · exact successors_of_length_le (by omega) _
    have hstuck := hr.inv.stuck hdead.1 hget hstill
    rw [hr.later.expanded] at hstuck
    exact ⟨hstuck.coherent, hstuck.found⟩
  rw [if_neg hdead]
  have hclosed : r'.Closed m c e := by
    refine ⟨fun action => ?_, fun hc => hr.moved ?_⟩
    · by_cases ha : action < m.actions.length
      · exact hr.covered action (List.mem_range.mpr ha)
      · exact ⟨[], successors_of_length_le (by omega) _, by simp⟩
    · by_contra hm
      exact hdead (by simp [hc, hm])
  refine ⟨(hr.inv.advance hget hclosed).report, report_tallied ?_⟩
  change r'.fired = m.tally (r'.store.states.take (r'.expanded + 1))
  rw [hr.fired, hr.later.expanded, List.take_add_one, Store.states_getElem?,
    hr.later.kept _ _ he, hr.later.take_states h.expanded_le]
  apply List.map_congr_left
  intro a ha
  simp [ha]

/-! ## All expansions -/

/-- What is known when every state that was found has been expanded. -/
structure Finished (fp : State → Fingerprint) (m : Model) (c : Config) (r : Run) : Prop
    extends r.Inv fp m c where
  tallied : r.Tallied m
  expanded_eq : r.expanded = r.store.size
  uncut : r.truncated = false

-- When nothing is left to expand, everything up to the greatest depth has been found.
theorem Inv.cutAt (h : r.Inv fp m c) (hend : r.store.get? r.expanded = none)
    (hcut : r.truncated = true) :
    ∃ limit, c.maxDepth = some limit ∧ r.store.CutAt m limit := by
  obtain ⟨limit, s, hlimit, hs⟩ := h.beyond hcut
  refine ⟨limit, hlimit, ⟨s, hs⟩, fun t => ⟨fun ht => ?_, fun ht => ?_⟩, fun t ht => ?_⟩
  · obtain ⟨id, e, hid, rfl⟩ := Store.mem_states_iff.mp ht
    obtain ⟨d, hd, hdistance⟩ := (h.coherent.rooted.reachedIn hid).exists_distance
    exact ⟨d, Nat.le_trans hd (h.within limit hlimit id e hid), hdistance⟩
  · obtain ⟨d, hd, path, -⟩ := ht
    obtain ⟨id, e, hid, he, -⟩ := h.holds_of_reachedIn path
      (fun e he => by rw [hend] at he; cases he)
      (fun _ limit' hlimit' => by rw [hlimit] at hlimit'; cases hlimit'; exact hd)
    exact Store.mem_states_iff.mpr ⟨id, e, hid, he⟩
  · obtain ⟨id, e, hid, rfl⟩ := Store.mem_states_iff.mp ht
    exact h.satisfied id e hid

-- The surroundings do not impose the limits of the store.
theorem halted_of_interruption {around : Surroundings} {n : Nat} {l : Limit}
    (h : c.interruption? around n = some l) : Halted m c r (.limit l) := by
  unfold Config.interruption? at h
  split at h
  · cases h
    trivial
  · split at h
    · cases h
      trivial
    · split at h <;> cases h
      trivial

theorem expandAll_meets (around : Surroundings) (n : Nat) (h : r.Inv fp m c)
    (htally : r.Tallied m) :
    Outlook.Meets (Finished fp m c) (Halted m c) (expandAll fp m c around n r) := by
  induction n generalizing r with
  | zero => trivial
  | succ n ih =>
    unfold expandAll
    cases he : r.store.get? r.expanded with
    | none =>
      simp only []
      by_cases hcut : r.truncated = true
      · rw [if_pos hcut]
        exact h.cutAt he hcut
      · rw [if_neg hcut]
        refine ⟨h, htally, ?_, Bool.eq_false_iff.mpr hcut⟩
        by_contra hne
        have hle := h.expanded_le
        obtain ⟨e, he'⟩ := Store.get?_eq_some_of_lt (show r.expanded < r.store.size by omega)
        rw [he] at he'
        cases he'
    | some e =>
      simp only []
      cases hl : c.interruption? around r.expanded with
      | some l => exact halted_of_interruption hl
      | none =>
        exact (expand_meets h he htally).andThen fun r' hr => ih hr.1 hr.2

/-! ## From the initial states -/

structure Seeding (fp : State → Fingerprint) (m : Model) (start : Run) (done : List State)
    (r : Run) : Prop
    extends r.Sound fp m where
  shallow : ∀ id e, r.store.get? id = some e → e.depth = 0
  mem_iff : ∀ s, s ∈ r.store.states ↔ s ∈ done
  uncut : r.truncated = start.truncated
  expanded : r.expanded = start.expanded
  fired : r.fired = start.fired

theorem Seeding.discover {start : Run} {done : List State} (h : Seeding fp m start done r)
    (uncut : start.truncated = false) {s : State} (admitted : m.Initial s) (new : s ∉ done) :
    Outlook.Meets (Seeding fp m start (done ++ [s])) (Halted m c)
      (discover fp m c ⟨s, none, none, 0⟩ r) := by
  have hd := discover_meets (c := c) h.toSound (h.uncut.trans uncut)
    (fun hmem => new ((h.mem_iff s).mp hmem)) (.root admitted)
    (fun id f hf => Nat.le_of_eq (h.shallow id f hf))
    (fun n _ hn => absurd hn (Nat.not_lt_zero n))
  refine hd.mono fun r' hr => ?_
  obtain ⟨rfl, sound⟩ := hr
  refine ⟨sound, fun id f hf => ?_, fun t => ?_, h.uncut, h.expanded, h.fired⟩
  · rcases grow_get? hf with ⟨-, rfl⟩ | hf
    · rfl
    · exact h.shallow id f hf
  · change t ∈ (r.store.add fp _).states ↔ _
    rw [Store.states_add, List.mem_append, List.mem_append, h.mem_iff]

theorem Seeding.inv {progress : Progress} {all : List State}
    (h : Seeding fp m (.fresh m progress) all r) (hall : m.initialStates = .ok all) :
    r.Inv fp m c where
  toSound := h.toSound
  seeded := by
    intro s h
    obtain ⟨all', hall', hs⟩ := h
    rw [hall] at hall'
    cases hall'
    obtain ⟨id, e, hid, rfl⟩ := Store.mem_states_iff.mp ((h.mem_iff s).mpr hs)
    exact ⟨id, e, hid, rfl, Nat.le_of_eq (h.shallow id e hid)⟩
  closed := by
    intro id e hlt
    rw [h.expanded] at hlt
    exact absurd hlt (Nat.not_lt_zero id)
  span := by
    intro id e f _ hf
    rw [h.shallow id f hf]
    exact Nat.zero_le _
  expanded_le := by
    rw [h.expanded]
    exact Nat.zero_le _
  within := by
    intro limit _ id e hid
    rw [h.shallow id e hid]
    exact Nat.zero_le _
  beyond := by
    rw [h.uncut]
    exact fun hcut => by cases hcut
  late := by
    rw [h.uncut]
    exact fun hcut => by cases hcut

theorem get?_fresh (progress : Progress) (id : Nat) :
    (Run.fresh m progress).store.get? id = none := Store.get?_empty id

theorem sound_fresh (progress : Progress) : (Run.fresh m progress).Sound fp m where
  indexed := Store.indexed_empty
  coherent := .empty
  satisfied := by simp [get?_fresh]
  deepest := by simp [get?_fresh]
  attained := .inl rfl

/-- A search from nothing ends with all that there is to know, or stops with what is known then. -/
theorem explore_meets (fp : State → Fingerprint) (m : Model) (c : Config) (around : Surroundings)
    (progress : Progress) :
    Outlook.Meets (fun r => r.Finished fp m c ∧ ∃ s, m.Initial s) (Halted m c)
      (explore fp m c around (.fresh m progress)) := by
  unfold explore
  cases hall : m.initialStates with
  | error err => trivial
  | ok all =>
    cases all with
    | nil => trivial
    | cons s rest =>
      have hsweep := sweep_meets (fun s => Run.discover fp m c ⟨s, none, none, 0⟩)
        (Seeding fp m (.fresh m progress)) (Halted m c) (s :: rest) (.fresh m progress)
        (by
          intro done t later r₁ hsplit h₁
          have hnodup := hsplit ▸ Relation.nodup_states hall
          exact h₁.discover rfl ⟨_, hall, hsplit ▸ List.mem_append_right _ List.mem_cons_self⟩
            fun hmem => (List.nodup_append.mp hnodup).2.2 t hmem t List.mem_cons_self rfl)
        { sound_fresh progress with
          shallow := by simp [get?_fresh]
          mem_iff := by simp [Run.fresh, Store.states, Store.empty]
          uncut := rfl
          expanded := rfl
          fired := rfl }
      refine hsweep.andThen fun r' hr => ?_
      have htally : r'.Tallied m := by
        unfold Tallied
        rw [hr.fired, hr.expanded]
        simp [Run.fresh, Model.tally]
      have hend := expandAll_meets around idCount (hr.inv (c := c) hall) htally
      exact hend.mono fun r'' hr => ⟨hr, s, _, hall, List.mem_cons_self⟩

end Run

end ActionSystem
