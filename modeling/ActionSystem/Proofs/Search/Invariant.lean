import ActionSystem.Proofs.Search.Coherence

/-!
# The invariant of the search

Everything that holds between two expansions of a breadth-first search, and the proof that every
step keeps it. The central consequence is `Inv.holds_of_reachedIn`: up to the depth of the state
that is expanded next, every path leads to a state that is stored at no greater depth.
-/

namespace ActionSystem

/-- The states up to a distance from the initial states are stored, and there are states further
away. -/
structure Store.CutAt (m : Model) (limit : Nat) (s : Store) : Prop where
  beyond : ∃ t, m.Distance t (limit + 1)
  mem_iff : ∀ t, t ∈ s.states ↔ ∃ d ≤ limit, m.Distance t d
  satisfied : ∀ t ∈ s.states, m.Satisfies t

/-! ## Sweeps -/

/-- What holds if the search goes on, and what holds if it stops. -/
def Outlook.Meets (go : Run → Prop) (halt : Run → Stop → Prop) : Outlook → Prop
  | (r, none) => go r
  | (r, some x) => halt r x

namespace Outlook

variable {go go' : Run → Prop} {halt : Run → Stop → Prop}

theorem Meets.mono {o : Outlook} (h : Meets go halt o) (hgo : ∀ r, go r → go' r) :
    Meets go' halt o := by
  cases o with
  | mk r stop =>
    cases stop with
    | none => exact hgo r h
    | some x => exact h

-- Going on with a next step if the search has not stopped.
theorem Meets.andThen {next : Run → Outlook} {o : Outlook} :
    Meets go halt o → (∀ r, go r → Meets go' halt (next r)) →
      Meets go' halt (match o with
        | (r, none) => next r
        | stopped => stopped) := by
  intro h hnext
  cases o with
  | mk r stop =>
    cases stop with
    | none => exact hnext r h
    | some x => exact h

end Outlook

namespace Run

variable {fp : State → Fingerprint} {m : Model} {c : Config} {r r' : Run}

/-- What each step of a sweep keeps true of the items done so far, holds of all items in the end.
-/
theorem sweep_meets {α : Type} (step : α → Run → Outlook) (inv : List α → Run → Prop)
    (halt : Run → Stop → Prop) (all : List α) (r : Run)
    (hstep : ∀ done a rest r, done ++ a :: rest = all → inv done r →
      Outlook.Meets (inv (done ++ [a])) halt (step a r))
    (hstart : inv [] r) : Outlook.Meets (inv all) halt (sweep step all r) := by
  suffices h : ∀ rest done r, done ++ rest = all → inv done r →
      Outlook.Meets (inv all) halt (sweep step rest r) from h all [] r rfl hstart
  intro rest
  induction rest with
  | nil =>
    intro done r hall hinv
    rw [List.append_nil] at hall
    exact hall ▸ hinv
  | cons a rest ih =>
    intro done r hall hinv
    have hall' : (done ++ [a]) ++ rest = all := by
      rw [← hall, List.append_assoc]
      rfl
    unfold sweep
    exact (hstep done a rest r hall hinv).andThen fun r' ha => ih (done ++ [a]) r' hall' ha

/-! ## States and their depths -/

def Holds (r : Run) (t : State) (d : Nat) : Prop :=
  ∃ id e, r.store.get? id = some e ∧ e.state = t ∧ e.depth ≤ d

/-- A successor of a state at depth `d` is stored, or was left out because it is too deep. -/
def Covers (c : Config) (r : Run) (d : Nat) (t : State) : Prop :=
  r.Holds t (d + 1) ∨ r.truncated = true ∧ ∃ limit, c.maxDepth = some limit ∧ limit ≤ d

/-- All actions have been evaluated in a state, and their successors are accounted for. -/
def Closed (m : Model) (c : Config) (r : Run) (e : Entry) : Prop :=
  (∀ action, ∃ next, m.successors action e.state = .ok next ∧
    ∀ t ∈ next, r.Covers c e.depth t) ∧
  (c.checkDeadlock = true → ∃ action t, m.Step action e.state t)

structure Extends (r r' : Run) : Prop where
  kept : ∀ id e, r.store.get? id = some e → r'.store.get? id = some e
  truncated : r.truncated = true → r'.truncated = true
  expanded : r'.expanded = r.expanded

theorem Extends.refl (r : Run) : r.Extends r := ⟨fun _ _ => id, id, rfl⟩

theorem Extends.trans {r'' : Run} (h : r.Extends r') (h' : r'.Extends r'') : r.Extends r'' :=
  ⟨fun i e hi => h'.kept i e (h.kept i e hi), fun ht => h'.truncated (h.truncated ht),
    h'.expanded.trans h.expanded⟩

theorem Holds.mono {t : State} {d d' : Nat} (h : r.Holds t d) (hr : r.Extends r') (hd : d ≤ d') :
    r'.Holds t d' := by
  obtain ⟨id, e, hid, ht, hle⟩ := h
  exact ⟨id, e, hr.kept id e hid, ht, Nat.le_trans hle hd⟩

theorem Covers.mono {t : State} {d : Nat} (h : r.Covers c d t) (hr : r.Extends r') :
    r'.Covers c d t := by
  rcases h with h | ⟨ht, hcut⟩
  · exact .inl (h.mono hr (Nat.le_refl _))
  · exact .inr ⟨hr.truncated ht, hcut⟩

theorem Closed.mono {e : Entry} (h : r.Closed m c e) (hr : r.Extends r') : r'.Closed m c e := by
  refine ⟨fun action => ?_, h.2⟩
  obtain ⟨next, hnext, hcov⟩ := h.1 action
  exact ⟨next, hnext, fun t ht => (hcov t ht).mono hr⟩

/-! ## What a search keeps true -/

structure Sound (fp : State → Fingerprint) (m : Model) (r : Run) : Prop where
  indexed : r.store.Indexed fp
  coherent : r.store.Coherent m
  satisfied : ∀ id e, r.store.get? id = some e → m.Satisfies e.state
  deepest : ∀ id e, r.store.get? id = some e → e.depth ≤ r.maxDepth
  attained : r.maxDepth = 0 ∨ ∃ id e, r.store.get? id = some e ∧ e.depth = r.maxDepth

structure Inv (fp : State → Fingerprint) (m : Model) (c : Config) (r : Run) : Prop
    extends r.Sound fp m where
  seeded : ∀ s, m.Initial s → r.Holds s 0
  closed : ∀ id e, id < r.expanded → r.store.get? id = some e → r.Closed m c e
  span : ∀ id e f, r.store.get? r.expanded = some e → r.store.get? id = some f →
    f.depth ≤ e.depth + 1
  expanded_le : r.expanded ≤ r.store.size
  within : ∀ limit, c.maxDepth = some limit → ∀ id e, r.store.get? id = some e → e.depth ≤ limit
  beyond : r.truncated = true → ∃ limit s, c.maxDepth = some limit ∧ m.Distance s (limit + 1)
  late : r.truncated = true → ∀ e, r.store.get? r.expanded = some e →
    ∃ limit, c.maxDepth = some limit ∧ limit ≤ e.depth

/-- A state that violates an invariant was found by a shortest path, and no state before violates
any. -/
structure Refuted (m : Model) (r : Run) (id : Nat) (v : Violation) : Prop where
  coherent : r.store.Coherent m
  found : ∃ e, r.store.get? id = some e ∧ m.violation? e.state = .ok (some v) ∧
    ∀ n s, n < e.depth → m.ReachedIn n s → m.Satisfies s
  earlier : ∀ i f, i < id → r.store.get? i = some f → m.Satisfies f.state
  uncut : r.truncated = false

/-- A state without successors was found. Every state at a smaller distance has a successor, and
up to its distance the invariants hold. Only if it is as deep as a search may go has something
been left out. -/
structure Stuck (m : Model) (c : Config) (r : Run) (id : Nat) : Prop where
  coherent : r.store.Coherent m
  found : ∃ e, r.store.get? id = some e ∧ (∀ action, m.successors action e.state = .ok []) ∧
    (∀ n s, n < e.depth → m.ReachedIn n s → ∃ action t, m.Step action s t) ∧
    (∀ n s, n ≤ e.depth → m.ReachedIn n s → m.Satisfies s) ∧
    (r.truncated = true → ∃ limit, c.maxDepth = some limit ∧ limit ≤ e.depth)

structure Full (m : Model) (c : Config) (r : Run) : Prop where
  reached : ∃ limit, c.maxStates = some limit ∧ limit ≤ r.store.size
  missing : ∃ s, m.Reachable s ∧ s ∉ r.store.states

def Halted (m : Model) (c : Config) (r : Run) : Stop → Prop
  | .violation id v => r.Refuted m id v
  | .deadlock id => r.Stuck m c id
  | .limit .states => r.Full m c
  | .limit .depth => ∃ limit, c.maxDepth = some limit ∧ r.store.CutAt m limit
  | _ => True

theorem Inv.holds_of_reachedIn (h : r.Inv fp m c) {n : Nat} {s : State} (path : m.ReachedIn n s)
    (front : ∀ e, r.store.get? r.expanded = some e → n ≤ e.depth)
    (uncut : r.truncated = true → ∀ limit, c.maxDepth = some limit → n ≤ limit) :
    r.Holds s n := by
  induction path with
  | initial admitted => exact h.seeded _ admitted
  | @step n action s t path move ih =>
    obtain ⟨id, e, hid, rfl, hd⟩ := ih (fun e he => by have := front e he; omega)
      (fun ht limit hl => by have := uncut ht limit hl; omega)
    -- the state lies below the front, so that it has been expanded
    have hlt : id < r.expanded := by
      by_contra hge
      have hsize := Store.lt_size_of_get? hid
      obtain ⟨first, hfirst⟩ :=
        Store.get?_eq_some_of_lt (show r.expanded < r.store.size by omega)
      have hle := h.coherent.sorted _ _ _ _ (by omega) hfirst hid
      have := front first hfirst
      omega
    obtain ⟨next, hnext, hcov⟩ := (h.closed id e hlt hid).1 action
    obtain ⟨all, hall, ht⟩ := move
    rw [hnext] at hall
    cases hall
    rcases hcov t ht with hholds | ⟨htr, limit, hlimit, hcut⟩
    · exact hholds.mono (.refl r) (by omega)
    · have := uncut htr limit hlimit
      omega

/-! ## Finding a state -/

def grow (fp : State → Fingerprint) (r : Run) (e : Entry) : Run :=
  { r with store := r.store.add fp e, maxDepth := max r.maxDepth e.depth }

theorem extends_grow (fp : State → Fingerprint) (r : Run) (e : Entry) : r.Extends (r.grow fp e) :=
  ⟨fun _ _ h => Store.get?_add_of_some e h, id, rfl⟩

theorem grow_get? {e f : Entry} {id : Nat} (h : (r.grow fp e).store.get? id = some f) :
    id = r.store.size ∧ f = e ∨ r.store.get? id = some f := by
  unfold grow at h
  rw [Store.get?_add] at h
  by_cases hid : id = r.store.size
  · rw [if_pos hid] at h
    exact .inl ⟨hid, by cases h; rfl⟩
  · rw [if_neg hid] at h
    exact .inr h

theorem Sound.grow (h : r.Sound fp m) {e : Entry} (coherent : (r.grow fp e).store.Coherent m)
    (satisfied : m.Satisfies e.state)
    (deepest : ∀ id f, r.store.get? id = some f → f.depth ≤ e.depth) :
    (r.grow fp e).Sound fp m where
  indexed := h.indexed.add e
  coherent := coherent
  satisfied := by
    intro id f hf
    rcases grow_get? hf with ⟨-, rfl⟩ | hf
    · exact satisfied
    · exact h.satisfied id f hf
  deepest := by
    intro id f hf
    rcases grow_get? hf with ⟨-, rfl⟩ | hf
    · exact Nat.le_max_right _ _
    · exact Nat.le_trans (h.deepest id f hf) (Nat.le_max_left _ _)
  attained := by
    have hle : r.maxDepth ≤ e.depth := by
      rcases h.attained with hz | ⟨id, f, hf, hd⟩
      · omega
      · exact hd ▸ deepest id f hf
    exact .inr ⟨r.store.size, e, Store.get?_add_size _ _, (Nat.max_eq_right hle).symm⟩

-- A new state satisfies the invariants and is kept, or it stops the search.
theorem discover_meets (h : r.Sound fp m) (uncut : r.truncated = false) {e : Entry}
    (new : e.state ∉ r.store.states) (link : r.store.Linked m r.store.size e)
    (deepest : ∀ id f, r.store.get? id = some f → f.depth ≤ e.depth)
    (below : ∀ n s, n < e.depth → m.ReachedIn n s → m.Satisfies s) :
    Outlook.Meets (fun r' => r' = r.grow fp e ∧ (r.grow fp e).Sound fp m) (Halted m c)
      (r.discover fp m c e) := by
  unfold discover
  by_cases hfull : r.isFull c
  · rw [if_pos hfull]
    obtain ⟨limit, hlimit, hle⟩ := (Option.any_eq_true _ _).mp hfull
    exact ⟨⟨limit, hlimit, of_decide_eq_true hle⟩,
      ⟨e.state, ⟨e.depth, link.reachedIn h.coherent.rooted⟩, new⟩⟩
  rw [if_neg hfull]
  have hknown : ¬ r.store.contains fp e.state = true := fun hmem =>
    new ((Store.contains_iff h.indexed).mp hmem)
  rw [if_neg hknown]
  have hcoh : (r.grow fp e).store.Coherent m := h.coherent.add new link deepest
  simp only []
  cases hv : m.violation? e.state with
  | error err => trivial
  | ok found =>
    cases found with
    | none => exact ⟨rfl, h.grow hcoh (Model.violation?_eq_none.mp hv) deepest⟩
    | some v =>
      refine ⟨hcoh, ⟨e, Store.get?_add_size _ _, hv, below⟩, fun i f hi hf => ?_, uncut⟩
      rcases grow_get? hf with ⟨hid, -⟩ | hf
      · omega
      · exact h.satisfied i f hf

/-! ## Expansion -/

theorem Inv.grow (h : r.Inv fp m c) {e new : Entry} (he : r.store.get? r.expanded = some e)
    (sound : (r.grow fp new).Sound fp m) (depth : new.depth = e.depth + 1)
    (shallow : ∀ limit, c.maxDepth = some limit → new.depth ≤ limit) :
    (r.grow fp new).Inv fp m c where
  toSound := sound
  seeded := fun s hs => (h.seeded s hs).mono (extends_grow fp r new) (Nat.le_refl _)
  closed := by
    intro id f hlt hf
    have hsize : r.expanded < r.store.size := Store.lt_size_of_get? he
    rcases grow_get? hf with ⟨hid, -⟩ | hf
    · change id < r.expanded at hlt
      omega
    · exact (h.closed id f hlt hf).mono (extends_grow fp r new)
  span := by
    intro id f g hf hg
    have hfe : e = f := by
      have := (extends_grow fp r new).kept _ e he
      rw [show (r.grow fp new).expanded = r.expanded from rfl, this] at hf
      exact Option.some.inj hf
    subst hfe
    rcases grow_get? hg with ⟨-, rfl⟩ | hg
    · omega
    · exact h.span id e g he hg
  expanded_le := by
    change r.expanded ≤ (r.store.add fp new).size
    rw [Store.size_add]
    have := h.expanded_le
    omega
  within := by
    intro limit hlimit id f hf
    rcases grow_get? hf with ⟨-, rfl⟩ | hf
    · exact shallow limit hlimit
    · exact h.within limit hlimit id f hf
  beyond := h.beyond
  late := by
    intro ht f hf
    have hfront := (extends_grow fp r new).kept _ e he
    rw [show (r.grow fp new).expanded = r.expanded from rfl, hfront] at hf
    cases hf
    exact h.late ht e he

-- A new successor of a state at the greatest depth is one step further away.
theorem Inv.distance_succ (h : r.Inv fp m c) {e : Entry} (he : r.store.get? r.expanded = some e)
    {limit : Nat} (hlimit : c.maxDepth = some limit) (hle : limit ≤ e.depth) {action : Nat}
    {t : State} (move : m.Step action e.state t) (new : t ∉ r.store.states) :
    m.Distance t (limit + 1) := by
  have hdepth : e.depth = limit := Nat.le_antisymm (h.within limit hlimit _ e he) hle
  have path : m.ReachedIn (limit + 1) t := hdepth ▸ .step (h.coherent.rooted.reachedIn he) move
  refine ⟨path, fun n path => ?_⟩
  by_contra hn
  obtain ⟨id, f, hid, hf, -⟩ := h.holds_of_reachedIn path
    (fun f hf => by rw [he] at hf; cases hf; omega)
    (fun _ limit' hlimit' => by rw [hlimit] at hlimit'; cases hlimit'; omega)
  exact new (Store.mem_states_iff.mpr ⟨id, f, hid, hf⟩)

theorem Inv.truncate (h : r.Inv fp m c) {e : Entry} (he : r.store.get? r.expanded = some e)
    {limit : Nat} (hlimit : c.maxDepth = some limit) (hle : limit ≤ e.depth) {t : State}
    (beyond : m.Distance t (limit + 1)) : Inv fp m c { r with truncated := true } where
  toSound := { h.toSound with }
  seeded := h.seeded
  closed := fun i e hlt he => (h.closed i e hlt he).mono ⟨fun _ _ => id, fun _ => rfl, rfl⟩
  span := h.span
  expanded_le := h.expanded_le
  within := h.within
  beyond := fun _ => ⟨limit, t, hlimit, beyond⟩
  late := by
    intro _ f hf
    change r.store.get? r.expanded = some f at hf
    rw [he] at hf
    cases hf
    exact ⟨limit, hlimit, hle⟩

-- A successor of the state that is expanded is accounted for after it has been looked at.
theorem reach_meets (h : r.Inv fp m c) {e : Entry} (he : r.store.get? r.expanded = some e)
    {action : Nat} {t : State} (move : m.Step action e.state t) :
    Outlook.Meets
      (fun r' => r'.Inv fp m c ∧ r.Extends r' ∧ r'.Covers c e.depth t ∧ r'.fired = r.fired ∧
        r'.moved = r.moved)
      (Halted m c) (reach fp m c r.expanded e.depth action t r) := by
  unfold reach
  by_cases hcontains : r.store.contains fp t
  · rw [if_pos hcontains]
    obtain ⟨id, f, hid, hf⟩ :=
      Store.mem_states_iff.mp ((Store.contains_iff h.indexed).mp hcontains)
    exact ⟨h, .refl r, .inl ⟨id, f, hid, hf, h.span id e f he hid⟩, rfl, rfl⟩
  rw [if_neg hcontains]
  have hnew : t ∉ r.store.states := fun hmem =>
    hcontains ((Store.contains_iff h.indexed).mpr hmem)
  by_cases hdeep : c.maxDepth.any (· ≤ e.depth)
  · rw [if_pos hdeep]
    obtain ⟨limit, hlimit, hle⟩ := (Option.any_eq_true _ _).mp hdeep
    have hle : limit ≤ e.depth := of_decide_eq_true hle
    exact ⟨h.truncate he hlimit hle (h.distance_succ he hlimit hle move hnew),
      ⟨fun _ _ => id, fun _ => rfl, rfl⟩, .inr ⟨rfl, limit, hlimit, hle⟩, rfl, rfl⟩
  rw [if_neg hdeep]
  have hshallow : ∀ limit, c.maxDepth = some limit → e.depth + 1 ≤ limit := by
    intro limit hlimit
    by_contra hlt
    exact hdeep ((Option.any_eq_true _ _).mpr ⟨limit, hlimit, decide_eq_true (by omega)⟩)
  have hbelow : ∀ n s, n < e.depth + 1 → m.ReachedIn n s → m.Satisfies s := by
    intro n s hn path
    obtain ⟨id, f, hid, rfl, -⟩ := h.holds_of_reachedIn path
      (fun f hf => by rw [he] at hf; cases hf; omega)
      (fun _ limit hlimit => by have := hshallow limit hlimit; omega)
    exact h.satisfied id f hid
  have link : r.store.Linked m r.store.size ⟨t, some r.expanded, some action, e.depth + 1⟩ :=
    .child (Store.lt_size_of_get? he) he move
  have huncut : r.truncated = false := by
    by_contra ht
    obtain ⟨limit, hlimit, hle⟩ := h.late (by simpa using ht) e he
    have := hshallow limit hlimit
    omega
  have hd := discover_meets (c := c) h.toSound huncut hnew link
    (fun id f hf => h.span id e f he hf) hbelow
  refine hd.mono fun r' hr => ?_
  obtain ⟨rfl, sound⟩ := hr
  exact ⟨h.grow he sound rfl hshallow, extends_grow _ _ _,
    .inl ⟨r.store.size, _, Store.get?_add_size _ _, rfl, Nat.le_refl _⟩, rfl, rfl⟩

/-- The invariant while the successors `next` of the state at the front are looked at, after those
in `done`. -/
structure Firing (fp : State → Fingerprint) (m : Model) (c : Config) (start : Run) (e : Entry)
    (action : Nat) (next done : List State) (r : Run) : Prop where
  inv : r.Inv fp m c
  later : start.Extends r
  covered : ∀ t ∈ done, r.Covers c e.depth t
  fired : r.fired = start.fired.modify action (· + next.length)
  moved : r.moved = (start.moved || !next.isEmpty)

theorem Firing.reach {start : Run} {e : Entry} {action : Nat} {next done : List State}
    (h : Firing fp m c start e action next done r) (he : start.store.get? start.expanded = some e)
    {t : State} (move : m.Step action e.state t) :
    Outlook.Meets (Firing fp m c start e action next (done ++ [t])) (Halted m c)
      (reach fp m c start.expanded e.depth action t r) := by
  have hreach := reach_meets h.inv (h.later.expanded ▸ h.later.kept _ _ he) move
  rw [h.later.expanded] at hreach
  refine hreach.mono fun r' hr => ?_
  obtain ⟨hinv, hext, hcov, hfired, hmoved⟩ := hr
  refine ⟨hinv, h.later.trans hext, fun u hu => ?_, hfired.trans h.fired, hmoved.trans h.moved⟩
  rcases List.mem_append.mp hu with hu | hu
  · exact (h.covered u hu).mono hext
  · rw [List.mem_singleton] at hu
    exact hu ▸ hcov

theorem fire_meets (h : r.Inv fp m c) {e : Entry} (he : r.store.get? r.expanded = some e)
    (action : Nat) :
    Outlook.Meets
      (fun r' => ∃ next, m.successors action e.state = .ok next ∧
        Firing fp m c r e action next next r')
      (Halted m c) (fire fp m c r.expanded e action r) := by
  unfold fire
  cases hnext : m.successors action e.state with
  | error err => trivial
  | ok next =>
    have hsweep := sweep_meets (Run.reach fp m c r.expanded e.depth action)
      (Firing fp m c r e action next) (Halted m c) next
      { r with
        fired := r.fired.modify action (· + next.length)
        moved := r.moved || !next.isEmpty }
      (by
        intro done t rest r₁ hall h₁
        have ht : t ∈ next := hall ▸ List.mem_append_right _ List.mem_cons_self
        exact h₁.reach he ⟨next, hnext, ht⟩)
      ⟨{ h with }, ⟨fun _ _ => id, id, rfl⟩, by simp, rfl, rfl⟩
    exact hsweep.mono fun r' hr => ⟨next, rfl, hr⟩

end Run

end ActionSystem
