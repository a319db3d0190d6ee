import Mathlib
import ActionSystem.Model.Basic
import ActionSystem.Proofs.Solve.Admission
import ActionSystem.Proofs.Solve.Enumeration

/-!
# Solutions

The initial states are all that satisfy the initial predicate. The successors under a framed
action are all next states that satisfy it and leave the variables that it does not mention as they
are.
-/

namespace ActionSystem

-- A declared name stands for the position of its only declaration.
theorem Env.variableIndex?_of_getElem? {env : Env} (nodup : env.vars.Nodup) {i : Nat} {x : String}
    (h : env.vars[i]? = some x) : env.variableIndex? x = some i := by
  obtain ⟨hlt, hx⟩ := List.getElem?_eq_some_iff.mp h
  rw [variableIndex?, List.findIdx?_eq_some_iff_getElem]
  refine ⟨hlt, by simp [hx], fun j hj heq => ?_⟩
  have hj' : env.vars[j]? = env.vars[i]? := by
    rw [h, List.getElem?_eq_getElem (by omega)]
    simpa using heq
  have hij : j = i := (List.getElem?_inj (by omega) nodup).mp hj'
  omega

theorem Env.isSome_variableIndex? {env : Env} {i : Nat} {x : String}
    (h : env.vars[i]? = some x) : (env.variableIndex? x).isSome := by
  rw [variableIndex?, List.findIdx?_isSome, List.any_eq_true]
  exact ⟨x, List.mem_of_getElem? h, beq_self_eq_true x⟩

theorem Env.getElem?_of_variableIndex? {env : Env} {i : Nat} {x : String}
    (h : env.variableIndex? x = some i) : env.vars[i]? = some x := by
  obtain ⟨hlt, hx, -⟩ := List.findIdx?_eq_some_iff_getElem.mp h
  rw [List.getElem?_eq_getElem hlt, eq_of_beq hx]

namespace Relation

variable {r : Relation} {env : Env} {current values : List Value} {slots : List (Option Value)}
  {p : Nat} {x : String} {vs : List Value}

-- A complete assignment fills in what is known at some point of the search.
theorem filledBy_totalContext (r : Relation) (env : Env) (current : List Value)
    (fill : (Slots.solving slots).FilledBy (.total values)) :
    (r.partialContext env current slots).FilledBy (r.totalContext env current values) := by
  unfold partialContext totalContext
  cases r.form with
  | primed => exact ⟨rfl, .refl _, fill, rfl⟩
  | unprimed => exact ⟨rfl, fill, .refl _, rfl⟩

-- In a complete assignment the unknown has the value at its position.
theorem valueIn_totalContext (r : Relation) (current values : List Value)
    (hx : env.variableIndex? x = some p) :
    (Unknown.mk x r.form).valueIn (r.totalContext env current values) = values[p]? := by
  unfold Unknown.valueIn totalContext
  cases r.form with
  | primed =>
    change (env.variableIndex? x).bind _ = _
    rw [hx]
    rfl
  | unprimed =>
    change (env.variableIndex? x).bind _ = _
    rw [hx]
    rfl

-- The choices for a variable are its candidates, or the default for a next state.
theorem infer_of_choices (hx : env.vars[p]? = some x)
    (h : r.choices env current slots p = .ok vs) :
    ∃ a, (Unknown.mk x r.form).infer (r.partialContext env current slots) r.body
        (r.partialContext env current slots) = .ok a ∧
      (a = .disabled ∧ vs = [] ∨ a = .values vs ∨
        a = .unmentioned ∧ r.form = .primed ∧ vs = current[p]?.toList) := by
  unfold choices at h
  rw [Result.bind_eq_ok] at h
  obtain ⟨a, ha, h⟩ := h
  rw [Expr.candidates, env_partialContext, hx] at ha
  refine ⟨a, ha, ?_⟩
  cases a with
  | disabled =>
    cases h
    exact .inl ⟨rfl, rfl⟩
  | constrained => cases h
  | values ws =>
    cases h
    exact .inr (.inl rfl)
  | unmentioned =>
    cases hform : r.form with
    | primed =>
      simp only [hform] at h
      cases h
      exact .inr (.inr ⟨rfl, rfl, rfl⟩)
    | unprimed =>
      simp only [hform] at h
      cases h

theorem choices_eq_ok (hx : env.vars[p]? = some x)
    (h : r.choices env current slots p = .ok vs) :
    ∃ a, (Unknown.mk x r.form).Infers (r.partialContext env current slots) r.body
        (r.partialContext env current slots) a ∧
      (a = .disabled ∧ vs = [] ∨ a = .values vs ∨
        a = .unmentioned ∧ r.form = .primed ∧ vs = current[p]?.toList) := by
  obtain ⟨a, ha, hcases⟩ := infer_of_choices hx h
  exact ⟨a, Unknown.infers_of_infer ha, hcases⟩

-- The candidates for a variable admit its value in a solution.
theorem admits_of_infers (nodup : env.vars.Nodup) (hx : env.vars[p]? = some x)
    (fill : (Slots.solving slots).FilledBy (.total values))
    (means : r.body.Means (r.totalContext env current values))
    (even : r.form = .primed → (Unknown.mk x r.form).Even (r.partialContext env current slots)
      (r.partialContext env current slots) (r.totalContext env current values) r.body)
    {a : Candidates} (ha : (Unknown.mk x r.form).Infers (r.partialContext env current slots) r.body
      (r.partialContext env current slots) a) : a.Admits True values[p]? := by
  have hindex := Env.variableIndex?_of_getElem? nodup hx
  rw [← valueIn_totalContext r current values hindex]
  refine ha.admits (filledBy_totalContext r env current fill) ?_ means fun _ => even
  rw [env_partialContext, hindex]
  rfl

-- A solution is offered, provided that the default for a next state is right where it is used.
theorem offered_of_admits (nodup : env.vars.Nodup) (length_eq : values.length = env.vars.length)
    (means : r.body.Means (r.totalContext env current values))
    (even : r.form = .primed → ∀ (slots : List (Option Value)) (p : Nat) x,
      env.vars[p]? = some x → slots[p]? = some none →
      (Unknown.mk x r.form).Even (r.partialContext env current slots)
        (r.partialContext env current slots) (r.totalContext env current values) r.body)
    (default : r.form = .primed → ∀ (slots : List (Option Value)) (p : Nat) x,
      env.vars[p]? = some x → slots[p]? = some none →
      (Slots.solving slots).FilledBy (.total values) →
      (Unknown.mk x r.form).Infers (r.partialContext env current slots) r.body
        (r.partialContext env current slots) .unmentioned →
      ∃ v ∈ current[p]?.toList, values[p]? = some v) : r.Offered env current values := by
  intro slots p vs hlength fill hpending hvs
  have hlt : p < env.vars.length := by
    have := (List.getElem?_eq_some_iff.mp hpending).1
    omega
  have hx : env.vars[p]? = some env.vars[p] := List.getElem?_eq_getElem hlt
  obtain ⟨a, ha, hcases⟩ := choices_eq_ok hx hvs
  have hadmits := admits_of_infers nodup hx fill means
    (fun hprimed => even hprimed slots p _ hx hpending) ha
  rcases hcases with ⟨rfl, -⟩ | rfl | ⟨rfl, hprimed, rfl⟩
  · exact hadmits.elim
  · exact hadmits trivial
  · exact default hprimed slots p _ hx hpending fill ha

theorem offered_of_unprimed (hform : r.form = .unprimed) (nodup : env.vars.Nodup)
    (length_eq : values.length = env.vars.length)
    (holds : r.body.holds (r.totalContext env current values) = .ok true) :
    r.Offered env current values := by
  have hnot : r.form ≠ .primed := by
    rw [hform]
    decide
  exact offered_of_admits nodup length_eq (Expr.meaning_of_holds holds) (absurd · hnot)
    (absurd · hnot)

/-! ## Next states -/

theorem partialContext_of_primed (hform : r.form = .primed) :
    r.partialContext env current slots = ⟨env, .total current, .solving slots, []⟩ := by
  unfold partialContext
  rw [hform]

theorem totalContext_of_primed (hform : r.form = .primed) :
    r.totalContext env current values = .ofStep env current values := by
  unfold totalContext
  rw [hform]

theorem isMentioned_eq_false {e : Expr} {c : Context} (hfree : x ∉ e.vars .primed) :
    (Unknown.mk x .primed).isMentioned c e = false := by
  rw [← Bool.not_eq_true, Unknown.isMentioned_iff rfl]
  exact fun hmem => hfree (Expr.mem_vars.mpr hmem)

-- An answer leaves a variable that the action does not mention as it is.
theorem Solves.kept {order : List Nat} (h : r.Solves env current order slots values)
    (hform : r.form = .primed) (hp : p ∈ order) (hlt : p < slots.length)
    (hx : env.vars[p]? = some x) (hfree : x ∉ r.body.vars .primed) :
    values[p]? = current[p]? := by
  obtain ⟨slots', vs, v, -, -, hvs, hv, hvalue⟩ := h.chosen p hp hlt
  obtain ⟨a, ha, hcases⟩ := choices_eq_ok hx hvs
  rw [hform] at ha
  have hdefault := ha.eq_of_not_mentioned (isMentioned_eq_false hfree)
  rcases hcases with ⟨-, rfl⟩ | rfl | ⟨-, -, rfl⟩
  · cases hv
  · rcases hdefault with hv' | hv' <;> cases hv'
  · rw [hvalue]
    exact (Option.mem_toList.mp hv).symm

theorem pendingIn_partialContext (hform : r.form = .primed) (nodup : env.vars.Nodup)
    (hx : env.vars[p]? = some x) (hpending : slots[p]? = some none) :
    (r.partialContext env current slots).pendingIn (r.partialContext env current slots).next x =
      true := by
  have hindex := Env.variableIndex?_of_getElem? nodup hx
  rw [partialContext_of_primed hform]
  simp [Context.pendingIn, hindex, Slots.isPending, hpending]

theorem even_of_uniform (hform : r.form = .primed) (nodup : env.vars.Nodup)
    (uniform : r.body.Uniform env.vars) (hx : env.vars[p]? = some x)
    (hpending : slots[p]? = some none) :
    (Unknown.mk x r.form).Even (r.partialContext env current slots)
      (r.partialContext env current slots) (r.totalContext env current values) r.body where
  pending := pendingIn_partialContext hform nodup hx hpending
  kept := by
    rw [partialContext_of_primed hform, totalContext_of_primed hform]
    rfl
  fresh := uniform.fresh x (List.mem_of_getElem? hx)
  balanced := uniform.balanced x (List.mem_of_getElem? hx)

-- A next state is offered under a uniform action, provided that the default is right where it is
-- used.
theorem offered_of_uniform (hform : r.form = .primed) (nodup : env.vars.Nodup)
    (uniform : r.body.Uniform env.vars) (length_eq : values.length = env.vars.length)
    (holds : r.body.holds (r.totalContext env current values) = .ok true)
    (default : ∀ (slots : List (Option Value)) (p : Nat) x, env.vars[p]? = some x →
      slots[p]? = some none → (Slots.solving slots).FilledBy (.total values) →
      (Unknown.mk x r.form).Infers (r.partialContext env current slots) r.body
        (r.partialContext env current slots) .unmentioned →
      ∃ v ∈ current[p]?.toList, values[p]? = some v) : r.Offered env current values :=
  offered_of_admits nodup length_eq (Expr.meaning_of_holds holds)
    (fun _ _ _ _ hx hpending => even_of_uniform hform nodup uniform hx hpending)
    (fun _ => default)

-- The values of a next state are offered if the action is framed.
theorem offered_of_framed (hform : r.form = .primed) (nodup : env.vars.Nodup)
    (framed : r.body.Framed env.vars) (full : current.length = env.vars.length)
    (length_eq : values.length = env.vars.length)
    (holds : r.body.holds (r.totalContext env current values) = .ok true)
    (kept : ∀ (i : Nat) x, env.vars[i]? = some x → x ∉ r.body.vars .primed →
      values[i]? = current[i]?) : r.Offered env current values := by
  refine offered_of_uniform hform nodup framed.uniform length_eq holds ?_
  intro slots p x hx hpending _ hdefault
  -- what is mentioned is settled, and what is settled does not get the default
  have hfree : x ∉ r.body.vars .primed := fun hmentioned =>
    hdefault.ne_unmentioned hform (pendingIn_partialContext hform nodup hx hpending)
      (framed.settled x (List.mem_of_getElem? hx) hmentioned) rfl
  have hlt : p < current.length := by
    rw [full]
    exact (List.getElem?_eq_some_iff.mp hx).1
  have hcurrent : current[p]? = some current[p] := List.getElem?_eq_getElem hlt
  refine ⟨current[p], by rw [hcurrent]; simp, ?_⟩
  rw [kept p x hx hfree, hcurrent]

end Relation

namespace Model

variable {spec : Spec} {constants : List Value} {states : List State}

theorem length_vars (spec : Spec) (constants : List Value) :
    (ofSpec spec constants).env.vars.length = spec.vars.length := List.length_map _

-- The successors under an action of a specification are the states that its relation gives.
theorem successors_eq {action : Nat} {d : Definition} (hd : spec.actions[action]? = some d)
    (s : State) : (ofSpec spec constants).successors action s =
      (Relation.action d.name d.body spec.variableNames).states (ofSpec spec constants).env
        s.values := by
  have hrelation : (ofSpec spec constants).actions[action]? =
      some (.action d.name d.body spec.variableNames) := by
    simp [ofSpec, hd]
  rw [successors, hrelation]

-- With another body, the same relation is solved otherwise.
theorem successors_set_eq {action : Nat} {d : Definition} (hd : spec.actions[action]? = some d)
    (body : Expr) (s : State) :
    (ofSpec { spec with actions := spec.actions.set action { d with body } }
      constants).successors action s =
      (Relation.action d.name body spec.variableNames).states (ofSpec spec constants).env
        s.values := by
  have hd' : (spec.actions.set action { d with body })[action]? = some { d with body } :=
    List.getElem?_set_self (List.getElem?_eq_some_iff.mp hd).1
  exact @successors_eq { spec with actions := spec.actions.set action { d with body } } constants
    action _ hd' s

/-- The predicate `x \in 0..1 /\ (y = x \/ y = 2) /\ z = 0` -/
def start : Expr :=
  .logical .none .and
    (.binary .none .mem (.name .none "x")
      (.range .none (.literal .none (.int 0)) (.literal .none (.int 1))))
    (.logical .none .and
      (.logical .none .or (.binary .none .eq (.name .none "y") (.name .none "x"))
        (.binary .none .eq (.name .none "y") (.literal .none (.int 2))))
      (.binary .none .eq (.name .none "z") (.literal .none (.int 0))))

/-- The action `(\E k \in 1..2 : x' = k) /\ (y' = x \/ y' = 0)` -/
def draw : Expr :=
  .logical .none .and
    (.bind .none .any "k"
      (.range .none (.literal .none (.int 1)) (.literal .none (.int 2)))
      (.binary .none .eq (.primed .none "x") (.name .none "k")))
    (.logical .none .or (.binary .none .eq (.primed .none "y") (.name .none "x"))
      (.binary .none .eq (.primed .none "y") (.literal .none (.int 0))))

/-- Three variables, one of which the only action does not mention. -/
def drawing : Spec where
  name := "Drawing"
  vars := [⟨"x", .none⟩, ⟨"y", .none⟩, ⟨"z", .none⟩]
  init := start
  actions := [⟨"Draw", draw, .none⟩]

/-- The initial states are the assignments of all variables that satisfy the initial predicate. -/
theorem mem_initialStates_iff (nodup : spec.variableNames.Nodup)
    (h : (ofSpec spec constants).initialStates = .ok states) :
    states.Nodup ∧ ∀ s : State, s ∈ states ↔ s.values.length = spec.vars.length ∧
      spec.init.holds (.ofState (ofSpec spec constants).env s.values) = .ok true := by
  have ordered : (ofSpec spec constants).initial.IsOrdered (ofSpec spec constants).env :=
    Expr.solvingOrder_perm _ _ _
  have hwidth : (ofSpec spec constants).env.vars.length = spec.vars.length := List.length_map _
  refine ⟨Relation.nodup_states h, fun s => ⟨fun hs => ?_, fun hs => ?_⟩⟩
  · have hsolves := Relation.solves_of_mem_states ordered h hs
    refine ⟨?_, hsolves.holds⟩
    rw [hsolves.length_eq, List.length_replicate, hwidth]
  · obtain ⟨hlength, hholds⟩ := hs
    have hlength' := hlength.trans hwidth.symm
    exact Relation.mem_states ordered h hlength' hholds
      (Relation.offered_of_unprimed rfl nodup hlength' hholds)

theorem mem_initialStates_iff_drawing :
    let states : List State := [⟨[.int 0, .int 0, .int 0]⟩, ⟨[.int 0, .int 2, .int 0]⟩,
      ⟨[.int 1, .int 1, .int 0]⟩, ⟨[.int 1, .int 2, .int 0]⟩]
    (ofSpec drawing []).initialStates = .ok states ∧ states.Nodup ∧
      ∀ s : State, s ∈ states ↔ s.values.length = 3 ∧
        start.holds (.ofState (ofSpec drawing []).env s.values) = .ok true := by
  intro states
  have h : (ofSpec drawing []).initialStates = .ok states := by cbv
  exact ⟨h, mem_initialStates_iff (by decide) h⟩

/-- The successors under a framed action are the next states that satisfy it and leave alone what
it does not mention. -/
theorem mem_successors_iff (nodup : spec.variableNames.Nodup) {action : Nat} {d : Definition}
    (hd : spec.actions[action]? = some d) (framed : d.body.Framed spec.variableNames) {s : State}
    (full : s.values.length = spec.vars.length)
    (h : (ofSpec spec constants).successors action s = .ok states) :
    states.Nodup ∧ ∀ t : State, t ∈ states ↔ t.values.length = spec.vars.length ∧
      d.body.holds (.ofStep (ofSpec spec constants).env s.values t.values) = .ok true ∧
      ∀ (i : Nat) x, spec.variableNames[i]? = some x → x ∉ d.body.vars .primed →
        t.values[i]? = s.values[i]? := by
  have hrelation : (ofSpec spec constants).actions[action]? =
      some (.action d.name d.body spec.variableNames) := by
    simp [ofSpec, hd]
  rw [successors, hrelation] at h
  change Relation.states _ _ _ = _ at h
  have ordered : (Relation.action d.name d.body spec.variableNames).IsOrdered
      (ofSpec spec constants).env := Expr.solvingOrder_perm _ _ _
  have hwidth : (ofSpec spec constants).env.vars.length = spec.vars.length := List.length_map _
  refine ⟨Relation.nodup_states h, fun t => ⟨fun ht => ?_, fun ht => ?_⟩⟩
  · have hsolves := Relation.solves_of_mem_states ordered h ht
    refine ⟨?_, hsolves.holds, fun i x hx hfree => ?_⟩
    · rw [hsolves.length_eq, List.length_replicate, hwidth]
    · have hi : i < spec.variableNames.length := (List.getElem?_eq_some_iff.mp hx).1
      exact hsolves.kept rfl (Expr.mem_solvingOrder.mpr hi)
        (by rw [List.length_replicate]; exact hi) hx hfree
  · obtain ⟨hlength, hholds, hkept⟩ := ht
    have hlength' := hlength.trans hwidth.symm
    exact Relation.mem_states ordered h hlength' hholds
      (Relation.offered_of_framed rfl nodup framed (full.trans hwidth.symm) hlength' hholds hkept)

theorem framed_draw : draw.Framed drawing.variableNames where
  fresh := by decide
  settled := by
    simp only [Expr.mem_vars]
    decide
  balanced := by decide

theorem mem_successors_iff_drawing :
    let s : State := ⟨[.int 1, .int 1, .int 0]⟩
    let states : List State := [⟨[.int 1, .int 0, .int 0]⟩, ⟨[.int 1, .int 1, .int 0]⟩,
      ⟨[.int 2, .int 0, .int 0]⟩, ⟨[.int 2, .int 1, .int 0]⟩]
    (ofSpec drawing []).successors 0 s = .ok states ∧ states.Nodup ∧
      ∀ t : State, t ∈ states ↔ t.values.length = 3 ∧
        draw.holds (.ofStep (ofSpec drawing []).env s.values t.values) = .ok true ∧
        ∀ (i : Nat) x, drawing.variableNames[i]? = some x → x ∉ draw.vars .primed →
          t.values[i]? = s.values[i]? := by
  intro s states
  have h : (ofSpec drawing []).successors 0 s = .ok states := by cbv
  have hd : drawing.actions[0]? = some ⟨"Draw", draw, .none⟩ := rfl
  exact ⟨h, mem_successors_iff (by decide) hd framed_draw rfl h⟩

/-! ## Actions of any shape -/

-- Nothing is asked of the action: binders may take the names of variables, and alternatives may
-- differ in what they settle.
/-- A successor has a value for every variable, satisfies the action together with the current
state, and agrees with the current state on what the action does not mention. -/
theorem sound_of_mem_successors {action : Nat} {s t : State}
    (h : (ofSpec spec constants).successors action s = .ok states) (ht : t ∈ states) :
    ∃ d, spec.actions[action]? = some d ∧ t.values.length = spec.vars.length ∧
      d.body.holds (.ofStep (ofSpec spec constants).env s.values t.values) = .ok true ∧
      ∀ (i : Nat) x, spec.variableNames[i]? = some x → x ∉ d.body.vars .primed →
        t.values[i]? = s.values[i]? := by
  cases hd : spec.actions[action]? with
  | none =>
    have hnone : (ofSpec spec constants).actions[action]? = none := by
      simp [ofSpec, hd]
    rw [successors, hnone] at h
    cases h
    exact absurd ht List.not_mem_nil
  | some d =>
    rw [successors_eq hd] at h
    have hsolves := Relation.solves_of_mem_states
      (Relation.isOrdered_action d.name d.body (ofSpec spec constants).env) h ht
    refine ⟨d, rfl, ?_, hsolves.holds, ?_⟩
    · rw [hsolves.length_eq, List.length_replicate]
      exact length_vars spec constants
    · intro i x hx hfree
      have hi : i < spec.variableNames.length := (List.getElem?_eq_some_iff.mp hx).1
      apply hsolves.kept rfl (Expr.mem_solvingOrder.mpr hi) _ hx hfree
      rw [List.length_replicate]
      exact hi

/-- The action `(\E y \in 1..2 : x' = y) /\ (x' = 1 \/ y' = 4)` -/
def stray : Expr :=
  .logical .none .and
    (.bind .none .any "y"
      (.range .none (.literal .none (.int 1)) (.literal .none (.int 2)))
      (.binary .none .eq (.primed .none "x") (.name .none "y")))
    (.logical .none .or (.binary .none .eq (.primed .none "x") (.literal .none (.int 1)))
      (.binary .none .eq (.primed .none "y") (.literal .none (.int 4))))

-- A binder takes the name of a variable that only one alternative settles.
theorem sound_of_mem_successors_stray :
    let spec : Spec := { drawing with actions := [⟨"Stray", stray, .none⟩] }
    let s : State := ⟨[.int 7, .int 8, .int 9]⟩
    let t : State := ⟨[.int 2, .int 4, .int 9]⟩
    (ofSpec spec []).successors 0 s =
        .ok [⟨[.int 1, .int 4, .int 9]⟩, ⟨[.int 1, .int 8, .int 9]⟩, t] ∧
      ∃ d, spec.actions[0]? = some d ∧ t.values.length = 3 ∧
        d.body.holds (.ofStep (ofSpec spec []).env s.values t.values) = .ok true ∧
        ∀ (i : Nat) x, spec.variableNames[i]? = some x → x ∉ d.body.vars .primed →
          t.values[i]? = s.values[i]? := by
  intro spec s t
  have h : (ofSpec spec []).successors 0 s =
      .ok [⟨[.int 1, .int 4, .int 9]⟩, ⟨[.int 1, .int 8, .int 9]⟩, t] := by cbv
  exact ⟨h, sound_of_mem_successors h (by simp)⟩

end Model

end ActionSystem
