import ActionSystem.Proofs.Eval.Canonical
import ActionSystem.Proofs.Solve.Derivation
import ActionSystem.Proofs.Solve.Enumeration

/-!
# Solving for canonical values

The candidates for a variable come from values of expressions, from elements of sets and from the
current state, and they are put together by operations on sorted lists. They are canonical if the
context is, and so are the assignments that the enumeration finds among them.
-/

namespace ActionSystem

open Result (Gives)

/-! ## Candidates -/

namespace Candidates

def Canonical : Candidates → Prop
  | values vs => (Value.set vs).Canonical
  | _ => True

variable {a b : Candidates} {cs : List Candidates}

theorem Canonical.conjoin (ha : a.Canonical) (hb : b.Canonical) : (a.conjoin b).Canonical := by
  cases a with
  | disabled => trivial
  | unmentioned => cases b <;> exact hb
  | constrained => cases b <;> exact hb
  | values vs =>
    cases b with
    | disabled => trivial
    | unmentioned | constrained => exact ha
    | values ws => exact Value.Canonical.union ha hb

theorem Canonical.foldl_conjoin (ha : a.Canonical) (hcs : ∀ c ∈ cs, c.Canonical) :
    (cs.foldl Candidates.conjoin a).Canonical := by
  induction cs generalizing a with
  | nil => exact ha
  | cons c cs ih =>
    obtain ⟨hc, hcs⟩ := List.forall_mem_cons.mp hcs
    exact ih (ha.conjoin hc) hcs

theorem canonical_of_survey {vs listed : List Value} {live stutter live' stutter' : Bool}
    (h : survey vs live stutter cs = .listed listed live' stutter')
    (hvs : (Value.set vs).Canonical) (hcs : ∀ c ∈ cs, c.Canonical) :
    (Value.set listed).Canonical := by
  induction cs generalizing vs live stutter with
  | nil =>
    cases h
    exact hvs
  | cons c cs ih =>
    obtain ⟨hc, hrest⟩ := List.forall_mem_cons.mp hcs
    cases c with
    | disabled | unmentioned => exact ih h hvs hrest
    | constrained => cases h
    | values ws => exact ih h (Value.Canonical.union hvs hc) hrest

end Candidates

namespace Unknown

variable {u : Unknown} {outer c : Context} {e : Expr} {r : Candidates}

-- The values of the alternatives, and possibly the current value of the variable.
theorem gives_disjoin {cs : List Candidates} (houter : outer.Canonical)
    (hcs : ∀ c ∈ cs, c.Canonical) : Gives Candidates.Canonical (u.disjoin outer cs) := by
  unfold disjoin
  split
  · exact .pure trivial
  · exact .pure trivial
  · exact .pure trivial
  · next hs => exact .pure (Candidates.canonical_of_survey hs Value.canonical_empty hcs)
  · next hs =>
    have hvs := Candidates.canonical_of_survey hs Value.canonical_empty hcs
    split
    · exact .bind (houter.gives_lookup _ _) fun w hw => .pure (hvs.insert hw)
    · exact .pure trivial

theorem gives_fromSide {side other : Expr} {x : Except EvalError Value} (hc : c.Canonical)
    (h : u.fromSide c side other = some x) : Gives Value.Canonical x := by
  unfold fromSide at h
  split at h
  · cases h
    exact other.gives_eval hc
  · cases h

theorem gives_fromEquation (hc : c.Canonical) (l r : Expr) :
    Gives Candidates.Canonical (u.fromEquation c l r) := by
  have single : ∀ {x : Except EvalError Value}, Gives Value.Canonical x →
      Gives Candidates.Canonical (do return .values [← x]) := fun hx =>
    .bind hx fun v hv => .pure (Value.canonical_singleton hv)
  unfold fromEquation
  split
  · next x hx => exact single (gives_fromSide hc hx)
  · split
    · next x hx => exact single (gives_fromSide hc hx)
    · exact .pure trivial

theorem gives_fromMembership (hc : c.Canonical) (l r : Expr) :
    Gives Candidates.Canonical (u.fromMembership c l r) := by
  unfold fromMembership
  split
  · next x hx =>
    exact .bind (gives_fromSide hc hx) fun v hv =>
      .bind (Fault.gives_at (Value.gives_expectSet hv)) fun vs hvs => .pure hvs
  · exact .pure trivial

/-- What is inferred from canonical values is canonical. -/
theorem Infers.canonical (h : u.Infers outer e c r) (houter : outer.Canonical)
    (hc : c.Canonical) : r.Canonical := by
  induction h with
  | truth _ _ => next b _ _ => cases b <;> trivial
  | unmentioned | constrained | leftDisabled | vacuous | oneDisabled => trivial
  | equation _ read => exact gives_fromEquation hc _ _ _ read
  | membership _ read => exact gives_fromMembership hc _ _ _ read
  | frame _ _ _ kept => exact Value.canonical_singleton (houter.gives_lookup _ _ _ kept)
  | both _ _ _ left right => exact (left hc).conjoin (right hc)
  | either _ _ _ joined left right =>
    exact gives_disjoin houter (by simpa using ⟨left hc, right hc⟩) _ joined
  | conclusion _ _ _ _ right => exact right hc
  | branch _ _ _ _ taken => exact taken hc
  | branches _ _ _ joined yes no =>
    exact gives_disjoin houter (by simpa using ⟨yes hc, no hc⟩) _ joined
  | any _ _ ranges _ joined each =>
    have items := Expr.gives_domain _ hc _ ranges
    exact gives_disjoin houter
      (List.forall_mem_map.mpr fun v hv => each v hv (hc.bind _ (items v hv))) _ joined
  | all _ _ ranges _ each =>
    have items := Expr.gives_domain _ hc _ ranges
    exact Candidates.Canonical.foldl_conjoin trivial
      (List.forall_mem_map.mpr fun v hv => each v hv (hc.bind _ (items v hv)))
  | definition _ _ known _ inner => exact inner (hc.bind _ (Expr.gives_eval _ hc _ known))

end Unknown

/-! ## Assignments -/

def State.Canonical (s : State) : Prop := ∀ v ∈ s.values, v.Canonical

namespace Relation

variable {r : Relation} {env : Env} {current : List Value} {slots : List (Option Value)}

theorem canonical_total {values : List Value} (h : ∀ v ∈ values, v.Canonical) :
    (Slots.total values).Canonical := fun _ v hv => h v (List.mem_of_getElem? hv)

theorem canonical_absent : Slots.absent.Canonical := fun _ _ hv => by cases hv

theorem canonical_partialContext (henv : env.Canonical) (hcurrent : ∀ v ∈ current, v.Canonical)
    (hslots : (Slots.solving slots).Canonical) :
    (r.partialContext env current slots).Canonical := by
  unfold partialContext
  cases r.form with
  | primed => exact ⟨henv, canonical_total hcurrent, hslots, by simp⟩
  | unprimed => exact ⟨henv, hslots, canonical_absent, by simp⟩

theorem canonical_set {p : Nat} {o : Option Value} (h : (Slots.solving slots).Canonical)
    (ho : ∀ v, o = some v → v.Canonical) : (Slots.solving (slots.set p o)).Canonical := by
  intro i w hw
  change (slots.set p o)[i]?.join = some w at hw
  by_cases hp : p = i
  · rw [← hp, List.getElem?_set_self', Option.join_eq_some_iff] at hw
    obtain ⟨_, _, heq⟩ := Option.map_eq_some_iff.mp hw
    exact ho w heq
  · rw [List.getElem?_set_ne hp] at hw
    exact h i w hw

theorem gives_choices (henv : env.Canonical) (hcurrent : ∀ v ∈ current, v.Canonical)
    (hslots : (Slots.solving slots).Canonical) (p : Nat) :
    Gives (fun vs => (Value.set vs).Canonical) (r.choices env current slots p) := by
  have hc := canonical_partialContext (r := r) henv hcurrent hslots
  have hcandidates : Gives Candidates.Canonical
      (r.body.candidates (r.partialContext env current slots) p r.form) := by
    unfold Expr.candidates
    split
    · exact fun a ha => (Unknown.infers_of_infer ha).canonical hc hc
    · exact .error
  refine .bind hcandidates fun a ha => ?_
  cases a with
  | disabled => exact .pure Value.canonical_empty
  | values vs => exact .pure ha
  | constrained => exact .error
  | unmentioned =>
    dsimp only
    split
    · cases hv : current[p]? with
      | none => exact .pure Value.canonical_empty
      | some v => exact .pure (Value.canonical_singleton (hcurrent v (List.mem_of_getElem? hv)))
    · exact .error

structure Cursor.Canonical (c : Cursor) : Prop where
  slots : (Slots.solving c.slots).Canonical
  untried : ∀ level ∈ c.levels, ∀ v ∈ level.untried, v.Canonical

theorem canonical_start (env : Env) : (start env).Canonical := by
  refine ⟨fun i v hv => ?_, by simp [start]⟩
  change (List.replicate env.vars.length (none : Option Value))[i]?.join = some v at hv
  rw [List.getElem?_replicate] at hv
  split at hv <;> cases hv

def Turn.Canonical : Turn → Prop
  | .ended | .failed _ => True
  | .moved after => after.Canonical
  | .found values after => (∀ v ∈ values, v.Canonical) ∧ after.Canonical

theorem Cursor.Canonical.turn {c : Cursor} (hc : c.Canonical) (henv : env.Canonical)
    (hcurrent : ∀ v ∈ current, v.Canonical) : (r.turn env current c).Canonical := by
  obtain ⟨slots, levels, descends⟩ := c
  obtain ⟨hslots, huntried⟩ := hc
  cases descends with
  | true =>
    cases hposition : r.order[levels.length]? with
    | none =>
      rw [turn_of_none hposition]
      split
      · trivial
      · exact ⟨hslots, huntried⟩
      · next values haccept =>
        obtain ⟨rfl, -⟩ := accept_eq_some.mp haccept
        refine ⟨fun v hv => ?_, hslots, huntried⟩
        obtain ⟨i, hi⟩ := List.mem_iff_getElem?.mp hv
        exact hslots i v (by simp [Slots.get?, hi])
    | some p =>
      rw [turn_of_some hposition]
      split
      · trivial
      · next vs hvs =>
        exact ⟨hslots, List.forall_mem_cons.mpr
          ⟨(gives_choices henv hcurrent hslots p vs hvs).elements, huntried⟩⟩
  | false =>
    cases levels with
    | nil => trivial
    | cons level below =>
      obtain ⟨p, untried⟩ := level
      obtain ⟨hlevel, hbelow⟩ := List.forall_mem_cons.mp huntried
      cases untried with
      | nil => exact ⟨canonical_set hslots (by simp), hbelow⟩
      | cons v vs =>
        obtain ⟨hv, hvs⟩ := List.forall_mem_cons.mp hlevel
        exact ⟨canonical_set hslots (by simpa using hv), List.forall_mem_cons.mpr ⟨hvs, hbelow⟩⟩

theorem canonical_of_mem_answers (henv : env.Canonical) (hcurrent : ∀ v ∈ current, v.Canonical)
    {c : Cursor} (hc : c.Canonical) :
    ∀ values ∈ (r.answers env current c).toList.1, ∀ v ∈ values, v.Canonical := by
  induction c using (r.wellFounded_follows env current).induction with
  | _ c ih =>
    have hturn := hc.turn (r := r) henv hcurrent
    rw [answers_eq]
    cases h : r.turn env current c with
    | ended => simp [Answers.toList]
    | failed e => simp [Answers.toList]
    | moved after =>
      rw [h] at hturn
      exact ih after (.moved h) hturn
    | found values after =>
      rw [h] at hturn
      exact List.forall_mem_cons.mpr ⟨hturn.1, ih after (.found h) hturn.2⟩

theorem gives_states (henv : env.Canonical) (hcurrent : ∀ v ∈ current, v.Canonical) :
    Gives (∀ s ∈ ·, s.Canonical) (r.states env current) := by
  intro states h s hs
  obtain ⟨found, hfound, rfl⟩ := states_eq_ok h
  obtain ⟨values, hvalues, rfl⟩ := List.mem_map.mp (Sorted.mem_of_mem_ofList hs)
  have hlist := Answers.collect_eq_ok.mp hfound
  have hmem : values ∈ (r.answers env current (start env)).toList.1 := by
    rw [assignments] at hlist
    rwa [hlist]
  exact canonical_of_mem_answers henv hcurrent (canonical_start env) values hmem

end Relation

end ActionSystem
