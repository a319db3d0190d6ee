import Mathlib.Data.List.Nodup
import ActionSystem.Proofs.Solve.Commitment

/-!
# Order of declarations

The order in which variables are declared decides in which order they are solved for. For an action
that treats every variable alike in all alternatives of a choice this makes no difference: the
successors are the same, up to the order of the values in a state. It may make a difference where
only one alternative of a choice says what becomes of a variable.
-/

namespace ActionSystem

/-! ## Values by name -/

namespace State

variable {vars vars' : List String} {s t : State} {i : Nat} {x : String}

def valueOf? (vars : List String) (s : State) (x : String) : Option Value :=
  (vars.findIdx? (· == x)).bind s.get?

def reorder (vars vars' : List String) (s : State) : State := ⟨vars'.filterMap (s.valueOf? vars)⟩

theorem valueOf?_of_getElem? (nodup : vars.Nodup) (h : vars[i]? = some x) (s : State) :
    s.valueOf? vars x = s.values[i]? := by
  have hindex : vars.findIdx? (· == x) = some i :=
    @Env.variableIndex?_of_getElem? ⟨vars, [], []⟩ nodup i x h
  rw [valueOf?, hindex]
  rfl

theorem valueOf?_of_not_mem (h : x ∉ vars) (s : State) : s.valueOf? vars x = none := by
  have hindex : vars.findIdx? (· == x) = none := by
    rw [List.findIdx?_eq_none_iff]
    intro y hy
    exact beq_false_of_ne fun heq => h (heq ▸ hy)
  rw [valueOf?, hindex]
  rfl

-- A state with a value for each variable is given by the values of the variables.
theorem eq_of_valueOf?_eq (nodup : vars.Nodup) (hs : s.values.length = vars.length)
    (ht : t.values.length = vars.length) (h : ∀ x, s.valueOf? vars x = t.valueOf? vars x) :
    s = t := by
  refine congrArg State.mk (List.ext_getElem? fun i => ?_)
  by_cases hi : i < vars.length
  · have hx : vars[i]? = some vars[i] := List.getElem?_eq_getElem hi
    rw [← valueOf?_of_getElem? nodup hx, ← valueOf?_of_getElem? nodup hx, h]
  · rw [List.getElem?_eq_none (by omega), List.getElem?_eq_none (by omega)]

theorem map_values_reorder (nodup : vars.Nodup) (full : s.values.length = vars.length)
    (declared : vars' ⊆ vars) :
    (s.reorder vars vars').values.map some = vars'.map (s.valueOf? vars) := by
  change (vars'.filterMap (s.valueOf? vars)).map some = _
  induction vars' with
  | nil => rfl
  | cons x xs ih =>
    obtain ⟨hx, hxs⟩ := List.cons_subset.mp declared
    obtain ⟨i, hi⟩ := List.mem_iff_getElem?.mp hx
    have hlt : i < s.values.length := full ▸ (List.getElem?_eq_some_iff.mp hi).1
    have hvalue : s.valueOf? vars x = some s.values[i] := by
      rw [valueOf?_of_getElem? nodup hi, List.getElem?_eq_getElem hlt]
    rw [List.filterMap_cons_some hvalue, List.map_cons, List.map_cons, ih hxs, hvalue]

theorem length_reorder (nodup : vars.Nodup) (full : s.values.length = vars.length)
    (declared : vars' ⊆ vars) : (s.reorder vars vars').values.length = vars'.length := by
  rw [← List.length_map (f := some), map_values_reorder nodup full declared, List.length_map]

/-- Every variable keeps its value when the values are put into another order. -/
theorem valueOf?_reorder (nodup : vars.Nodup) (full : s.values.length = vars.length)
    (perm : vars'.Perm vars) (x : String) :
    (s.reorder vars vars').valueOf? vars' x = s.valueOf? vars x := by
  by_cases hx : x ∈ vars'
  · obtain ⟨i, hi⟩ := List.mem_iff_getElem?.mp hx
    have hvalues := congrArg (·[i]?) (map_values_reorder nodup full perm.subset)
    simp only [List.getElem?_map, hi, Option.map_some] at hvalues
    rw [valueOf?_of_getElem? (perm.nodup_iff.mpr nodup) hi]
    obtain ⟨v, hv, heq⟩ := Option.map_eq_some_iff.mp hvalues
    rw [hv, heq]
  · rw [valueOf?_of_not_mem hx, valueOf?_of_not_mem fun h => hx (perm.mem_iff.mpr h)]

end State

/-! ## Two orders -/

structure Env.Rearranged (env env' : Env) : Prop where
  perm : env'.vars.Perm env.vars
  constant? : ∀ x, env.constant? x = env'.constant? x

namespace Env.Rearranged

variable {env env' : Env} {s s' t t' : State} {x : String}

theorem symm (h : env.Rearranged env') : env'.Rearranged env :=
  ⟨h.perm.symm, fun x => (h.constant? x).symm⟩

-- A step looks the same in both environments.
theorem same (h : env.Rearranged env')
    (hs : ∀ x, s.valueOf? env.vars x = s'.valueOf? env'.vars x)
    (ht : ∀ x, t.valueOf? env.vars x = t'.valueOf? env'.vars x) :
    (Context.ofStep env s.values t.values).Same (Context.ofStep env' s'.values t'.values) := by
  refine fun x => ⟨?_, ht x⟩
  have hvalue := hs x
  change (env.variableIndex? x).bind s.get? = (env'.variableIndex? x).bind s'.get? at hvalue
  have hnone : env.variableIndex? x = none ↔ env'.variableIndex? x = none := by
    simp only [Env.variableIndex?, List.findIdx?_eq_none_iff, h.perm.mem_iff]
  unfold Context.value? Context.local? Context.ofStep
  simp only [List.lookup_nil]
  cases hi : env.variableIndex? x with
  | none =>
    rw [hnone.mp hi]
    exact h.constant? x
  | some i =>
    cases hj : env'.variableIndex? x with
    | none =>
      rw [hnone.mpr hj] at hi
      cases hi
    | some j =>
      rw [hi, hj] at hvalue
      exact hvalue

end Env.Rearranged

namespace Relation

variable {env env' : Env} {name : String} {body : Expr} {s s' t t' : State}
  {states states' : List State}

/-- What is found in one order of the variables is found in any other. -/
theorem mem_states_of_rearranged (h : env.Rearranged env') (nodup : env.vars.Nodup)
    (uniform : body.Uniform env.vars)
    (hs : ∀ x, s.valueOf? env.vars x = s'.valueOf? env'.vars x)
    (hstates : (action name body env.vars).states env s.values = .ok states)
    (hstates' : (action name body env'.vars).states env' s'.values = .ok states')
    (ht : ∀ x, t.valueOf? env.vars x = t'.valueOf? env'.vars x)
    (length_eq : t'.values.length = env'.vars.length) (hmem : t ∈ states) : t' ∈ states' := by
  have hform : (action name body env.vars).form = (action name body env'.vars).form := rfl
  have same := h.same hs ht
  exact mem_states_of_commits hform h.perm nodup (fun _ => uniform)
    (fun _ => uniform.subset h.perm.subset) (isOrdered_action name body env)
    (isOrdered_action name body env') hstates hstates' length_eq same (Expr.meaning_of_same same)
    (fun _ => (Expr.commits_of_same same).mp) hmem

/-- The states that are found in two orders differ in the order of the values only. -/
theorem states_perm_of_rearranged (h : env.Rearranged env') (nodup : env.vars.Nodup)
    (uniform : body.Uniform env.vars)
    (hs : ∀ x, s.valueOf? env.vars x = s'.valueOf? env'.vars x)
    (hstates : (action name body env.vars).states env s.values = .ok states)
    (hstates' : (action name body env'.vars).states env' s'.values = .ok states') :
    states'.Perm (states.map (·.reorder env.vars env'.vars)) := by
  have nodup' : env'.vars.Nodup := h.perm.nodup_iff.mpr nodup
  have uniform' : body.Uniform env'.vars := uniform.subset h.perm.subset
  have full : ∀ t ∈ states, t.values.length = env.vars.length := fun t =>
    length_of_mem_states (isOrdered_action name body env) hstates
  have full' : ∀ t ∈ states', t.values.length = env'.vars.length := fun t =>
    length_of_mem_states (isOrdered_action name body env') hstates'
  have hmap : (states.map (·.reorder env.vars env'.vars)).Nodup := by
    refine (nodup_states hstates).map_on fun t ht u hu heq => ?_
    refine State.eq_of_valueOf?_eq nodup (full t ht) (full u hu) fun x => ?_
    rw [← State.valueOf?_reorder nodup (full t ht) h.perm, heq,
      State.valueOf?_reorder nodup (full u hu) h.perm]
  rw [List.perm_ext_iff_of_nodup (nodup_states hstates') hmap]
  intro t'
  rw [List.mem_map]
  constructor
  · intro ht'
    have hlength := State.length_reorder nodup' (full' t' ht') h.perm.symm.subset
    have hback := State.valueOf?_reorder nodup' (full' t' ht') h.perm.symm
    refine ⟨t'.reorder env'.vars env.vars, ?_, ?_⟩
    · exact mem_states_of_rearranged h.symm nodup' uniform' (fun x => (hs x).symm) hstates'
        hstates (fun x => (hback x).symm) hlength ht'
    · refine State.eq_of_valueOf?_eq nodup' ?_ (full' t' ht') fun x => ?_
      · exact State.length_reorder nodup hlength h.perm.subset
      · rw [State.valueOf?_reorder nodup hlength h.perm, hback]
  · rintro ⟨t, ht, rfl⟩
    exact mem_states_of_rearranged h nodup uniform hs hstates hstates'
      (fun x => (State.valueOf?_reorder nodup (full t ht) h.perm x).symm)
      (State.length_reorder nodup (full t ht) h.perm.subset) ht

end Relation

namespace Model

variable {spec : Spec} {constants : List Value} {states states' : List State} {s s' : State}

/-- If the variables are declared in another order, then a state has the same successors, up to the
order of the values. -/
theorem perm_successors_of_perm (nodup : spec.variableNames.Nodup) {vars' : List Declaration}
    (perm : vars'.Perm spec.vars) {action : Nat} {d : Definition}
    (hd : spec.actions[action]? = some d) (uniform : d.body.Uniform spec.variableNames)
    (hs : ∀ x, s.valueOf? spec.variableNames x = s'.valueOf? (vars'.map (·.name)) x)
    (h : (ofSpec spec constants).successors action s = .ok states)
    (h' : (ofSpec { spec with vars := vars' } constants).successors action s' = .ok states') :
    states'.Perm (states.map (·.reorder spec.variableNames (vars'.map (·.name)))) := by
  have rearranged : (ofSpec spec constants).env.Rearranged
      (ofSpec { spec with vars := vars' } constants).env := ⟨perm.map _, fun _ => rfl⟩
  rw [successors_eq hd] at h
  rw [@successors_eq { spec with vars := vars' } constants action d hd] at h'
  exact Relation.states_perm_of_rearranged rearranged nodup uniform hs h h'

-- The first declared variable of the other order is one that the action leaves alone.
theorem perm_successors_of_perm_drawing :
    let vars' : List Declaration := [⟨"z", .none⟩, ⟨"y", .none⟩, ⟨"x", .none⟩]
    let s : State := ⟨[.int 1, .int 1, .int 0]⟩
    let s' : State := ⟨[.int 0, .int 1, .int 1]⟩
    let states : List State := [⟨[.int 1, .int 0, .int 0]⟩, ⟨[.int 1, .int 1, .int 0]⟩,
      ⟨[.int 2, .int 0, .int 0]⟩, ⟨[.int 2, .int 1, .int 0]⟩]
    let states' : List State := [⟨[.int 0, .int 0, .int 1]⟩, ⟨[.int 0, .int 0, .int 2]⟩,
      ⟨[.int 0, .int 1, .int 1]⟩, ⟨[.int 0, .int 1, .int 2]⟩]
    (ofSpec drawing []).successors 0 s = .ok states ∧
      (ofSpec { drawing with vars := vars' } []).successors 0 s' = .ok states' ∧
      states'.Perm (states.map (·.reorder ["x", "y", "z"] ["z", "y", "x"])) := by
  intro vars' s s' states states'
  have h : (ofSpec drawing []).successors 0 s = .ok states := by cbv
  have h' : (ofSpec { drawing with vars := vars' } []).successors 0 s' = .ok states' := by cbv
  have hd : drawing.actions[0]? = some ⟨"Draw", draw, .none⟩ := rfl
  have perm : vars'.Perm drawing.vars := List.reverse_perm drawing.vars
  have hs : s' = s.reorder ["x", "y", "z"] ["z", "y", "x"] := by decide
  refine ⟨h, h', perm_successors_of_perm (by decide) perm hd framed_draw.uniform ?_ h h'⟩
  rw [hs]
  exact fun x => (State.valueOf?_reorder (by decide) rfl (perm.map _) x).symm

/-- The action `(x' = 0 /\ y' = 1) \/ x' = 1` -/
def lopsided : Expr :=
  .logical .none .or
    (.logical .none .and (.binary .none .eq (.primed .none "x") (.literal .none (.int 0)))
      (.binary .none .eq (.primed .none "y") (.literal .none (.int 1))))
    (.binary .none .eq (.primed .none "x") (.literal .none (.int 1)))

/-- Two variables, one of which the action leaves alone in one of its alternatives. -/
def leaning : Spec where
  name := "Leaning"
  vars := [⟨"x", .none⟩, ⟨"y", .none⟩]
  actions := [⟨"Lean", lopsided, .none⟩]

-- With `x` solved for first, `y` gets a new value in the first alternative only. With `y` first, it
-- may have the new value also where the second alternative is taken.
theorem not_perm_successors_leaning :
    let vars' : List Declaration := [⟨"y", .none⟩, ⟨"x", .none⟩]
    let s : State := ⟨[.int 5, .int 7]⟩
    let states : List State := [⟨[.int 0, .int 1]⟩, ⟨[.int 1, .int 7]⟩]
    let states' : List State := [⟨[.int 1, .int 0]⟩, ⟨[.int 1, .int 1]⟩, ⟨[.int 7, .int 1]⟩]
    (ofSpec leaning []).successors 0 s = .ok states ∧
      (ofSpec { leaning with vars := vars' } []).successors 0 (s.reorder ["x", "y"] ["y", "x"]) =
        .ok states' ∧
      ¬ states'.Perm (states.map (·.reorder ["x", "y"] ["y", "x"])) := by
  intro vars' s states states'
  have h : (ofSpec leaning []).successors 0 s = .ok states := by cbv
  have h' : (ofSpec { leaning with vars := vars' } []).successors 0
      (s.reorder ["x", "y"] ["y", "x"]) = .ok states' := by cbv
  refine ⟨h, h', fun perm => ?_⟩
  have hlength := perm.length_eq
  rw [List.length_map] at hlength
  cases hlength

end Model

end ActionSystem
