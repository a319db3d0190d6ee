import ActionSystem.Proofs.Search.Outcome
import ActionSystem.Proofs.Solve.Relevance
import ActionSystem.Proofs.Solve.Solutions

/-!
# Enabled actions

Whether some action is enabled is found out by asking for one answer of each action in turn, until
there is one or an error comes. That agrees with a full enumeration as far as this succeeds.

An action is decisive if it treats every variable alike in all alternatives of a choice, and no
condition of an `IF` asks for a variable in the next state that the action does not settle. A
decisive action without successors is not enabled: no next state satisfies it, so that a deadlock
is reported only of a state that no decisive action can leave. The condition of an `IF` matters,
since its alternatives are solved without regard to it.
-/

namespace ActionSystem

/-! ## Asking for one answer -/

namespace Answers

variable {ε α : Type} {s : Answers ε α} {e : ε}

theorem hasAny_eq_ok_true : s.hasAny = .ok true ↔ ∃ a rest, s = .yield a rest := by
  cases s <;> simp [hasAny]

theorem hasAny_eq_ok_false : s.hasAny = .ok false ↔ s = .done := by
  cases s <;> simp [hasAny]

theorem hasAny_eq_error : s.hasAny = .error e ↔ s = .fail e := by
  cases s <;> simp [hasAny]

theorem collect_eq_ok_nil : s.collect = .ok [] ↔ s = .done := by
  rw [collect_eq_ok]
  cases s <;> simp [toList]

end Answers

namespace Relation

variable {r : Relation} {env : Env} {current : List Value} {e : EvalError}

-- There are no states exactly when the enumeration ends at once.
theorem states_eq_ok_nil :
    r.states env current = .ok [] ↔ r.assignments env current = .done := by
  rw [← Answers.collect_eq_ok_nil]
  constructor
  · intro h
    obtain ⟨found, hfound, hsorted⟩ := states_eq_ok h
    have hnone : ∀ values, values ∉ found := by
      intro values hvalues
      have hmem : State.mk values ∈ Sorted.ofList State.cmp (found.map .mk) :=
        Sorted.mem_ofList.mpr (List.mem_map_of_mem hvalues)
      rw [← hsorted] at hmem
      cases hmem
    rw [hfound, List.eq_nil_iff_forall_not_mem.mpr hnone]
  · intro h
    rw [states, h]
    rfl

theorem states_of_fail (h : r.assignments env current = .fail e) :
    r.states env current = .error e := by
  rw [states, h]
  rfl

end Relation

namespace Model

variable {m : Model} {s : State} {i : Nat} {a : Relation}

theorem successors_of_action (h : m.actions[i]? = some a) :
    m.successors i s = a.states m.env s.values := by
  rw [successors, h]

-- An action that is not there has no successors.
theorem successors_eq_ok_nil : m.successors i s = .ok [] ↔
    ∀ a, m.actions[i]? = some a → (a.assignments m.env s.values).hasAny = .ok false := by
  cases ha : m.actions[i]? with
  | none => simp [successors, ha]
  | some a =>
    rw [successors_of_action ha, Relation.states_eq_ok_nil, ← Answers.hasAny_eq_ok_false]
    simp

def SilentBefore (m : Model) (s : State) (i : Nat) : Prop := ∀ j < i, m.successors j s = .ok []

-- The first action that is not without successors decides.
theorem anyEnabled_eq_iff {r : Except EvalError Bool} (ends : r ≠ .ok false) :
    m.anyEnabled s = r ↔ ∃ i a, m.actions[i]? = some a ∧ m.SilentBefore s i ∧
      (a.assignments m.env s.values).hasAny = r := by
  rw [anyEnabled, Result.anyM_eq_iff ends]
  refine exists₂_congr fun i a => and_congr_right fun _ => and_congr_left fun _ => ?_
  simp only [SilentBefore, successors_eq_ok_nil]
  exact forall_congr' fun j => ⟨fun h hj b => h b hj, fun h b hj => h hj b⟩

theorem anyEnabled_eq_ok_false :
    m.anyEnabled s = .ok false ↔ ∀ i, m.successors i s = .ok [] := by
  simp only [successors_eq_ok_nil]
  constructor
  · intro h i a ha
    exact Result.forall_of_anyM h a (List.mem_of_getElem? ha)
  · intro h
    have hnone : ∀ a ∈ m.actions, (a.assignments m.env s.values).hasAny = .ok false := by
      intro a ha
      obtain ⟨i, hi⟩ := List.mem_iff_getElem?.mp ha
      exact h i a hi
    rw [anyEnabled, Result.anyM_of_forall (q := fun _ => false) hnone]
    simp

/-- Asking each action for one answer agrees with enumerating all successors, as far as the
enumeration succeeds: an error that comes after the first answer of an action is not met. -/
theorem anyEnabled_agrees (m : Model) (s : State) :
    (m.anyEnabled s = .ok true ↔ ∃ i a, m.actions[i]? = some a ∧ m.SilentBefore s i ∧
      ∃ values rest, a.assignments m.env s.values = .yield values rest) ∧
    (m.anyEnabled s = .ok false ↔ ∀ i, m.successors i s = .ok []) ∧
    (∀ e, m.anyEnabled s = .error e ↔ ∃ i a, m.actions[i]? = some a ∧ m.SilentBefore s i ∧
      a.assignments m.env s.values = .fail e ∧ m.successors i s = .error e) ∧
    ((∀ i, ∃ all, m.successors i s = .ok all) →
      (m.anyEnabled s = .ok true ↔ ∃ i t all, m.successors i s = .ok (t :: all))) := by
  have yes : m.anyEnabled s = .ok true ↔ ∃ i a, m.actions[i]? = some a ∧ m.SilentBefore s i ∧
      ∃ values rest, a.assignments m.env s.values = .yield values rest := by
    rw [anyEnabled_eq_iff (by simp)]
    simp only [Answers.hasAny_eq_ok_true]
  have fails : ∀ e, m.anyEnabled s = .error e ↔ ∃ i a, m.actions[i]? = some a ∧
      m.SilentBefore s i ∧ a.assignments m.env s.values = .fail e ∧
      m.successors i s = .error e := by
    intro e
    rw [anyEnabled_eq_iff (by simp)]
    refine exists₂_congr fun i a => and_congr_right fun ha => and_congr_right fun _ => ?_
    rw [Answers.hasAny_eq_error, successors_of_action ha]
    exact ⟨fun h => ⟨h, Relation.states_of_fail h⟩, fun h => h.1⟩
  refine ⟨yes, anyEnabled_eq_ok_false, fails, fun total => ?_⟩
  constructor
  · intro h
    obtain ⟨i, a, ha, -, values, rest, hyield⟩ := yes.mp h
    obtain ⟨all, hall⟩ := total i
    cases all with
    | cons t all => exact ⟨i, t, all, hall⟩
    | nil =>
      rw [successors_of_action ha, Relation.states_eq_ok_nil, hyield] at hall
      cases hall
  · rintro ⟨i, t, all, hall⟩
    cases hany : m.anyEnabled s with
    | error e =>
      obtain ⟨j, -, -, -, -, hj⟩ := (fails e).mp hany
      obtain ⟨all, hall⟩ := total j
      cases hall.symm.trans hj
    | ok b =>
      cases b with
      | true => rfl
      | false =>
        cases (anyEnabled_eq_ok_false.mp hany i).symm.trans hall

/-- The action `x' \in {}` and the action `x' \in {1, 2} /\ 1 \div (2 - x') = 1`. -/
def halting : Spec where
  name := "Halting"
  vars := [⟨"x", .none⟩]
  init := .binary .none .eq (.name .none "x") (.literal .none (.int 0))
  actions := [⟨"Rest", .binary .none .mem (.primed .none "x") (.set .none []), .none⟩,
    ⟨"Split", .logical .none .and
      (.binary .none .mem (.primed .none "x")
        (.set .none [.literal .none (.int 1), .literal .none (.int 2)]))
      (.binary .none .eq
        (.binary .none .div (.literal .none (.int 1))
          (.binary .none .sub (.literal .none (.int 2)) (.primed .none "x")))
        (.literal .none (.int 1))), .none⟩]

-- The second action has an answer before it divides by zero, and the first one has none.
theorem anyEnabled_agrees_halting :
    let m := ofSpec halting []
    let s : State := ⟨[.int 0]⟩
    m.successors 0 s = .ok [] ∧ m.successors 1 s = .error ⟨.none, .fault .divisionByZero⟩ ∧
      m.anyEnabled s = .ok true ∧ ∃ i a, m.actions[i]? = some a ∧ m.SilentBefore s i ∧
        ∃ values rest, a.assignments m.env s.values = .yield values rest := by
  intro m s
  have hrest : m.successors 0 s = .ok [] := by cbv
  have hsplit : m.successors 1 s = .error ⟨.none, .fault .divisionByZero⟩ := by cbv
  have hany : m.anyEnabled s = .ok true := by cbv
  obtain ⟨yes, -⟩ := anyEnabled_agrees m s
  exact ⟨hrest, hsplit, hany, yes.mp hany⟩

end Model

/-! ## Decisive actions -/

namespace Expr

/-- Every choice treats each of the variables alike in all alternatives, and a condition of an `IF`
mentions a variable in the next state only if the expression settles the variable. -/
structure Decisive (vars : List String) (e : Expr) : Prop extends e.Uniform vars where
  asked : ∀ x ∈ vars, e.asksNext x = true → e.settlesNext x = true

def Blocked (e : Expr) (env : Env) (s : State) : Prop :=
  ∀ t : State, t.values.length = env.vars.length →
    e.holds (.ofStep env s.values t.values) ≠ .ok true

end Expr

namespace Relation

variable {r : Relation} {env : Env} {current values : List Value} {p : Nat} {x : String}

/-- A solution of a decisive action remains one when it is changed to agree with the choices: either
its value is among them, or the action does not depend on the variable. -/
theorem sustains_of_decisive (hform : r.form = .primed) (nodup : env.vars.Nodup)
    (decisive : r.body.Decisive env.vars) (full : current.length = env.vars.length) :
    r.Sustains env current fun values => values.length = env.vars.length ∧
      r.body.holds (r.totalContext env current values) = .ok true := by
  intro values slots p vs hP hlength fill hpending hvs
  obtain ⟨hwidth, hholds⟩ := hP
  have hlt : p < env.vars.length := by
    have := (List.getElem?_eq_some_iff.mp hpending).1
    omega
  have hx : env.vars[p]? = some env.vars[p] := List.getElem?_eq_getElem hlt
  have hmem : env.vars[p] ∈ env.vars := List.getElem_mem hlt
  have heven : (Unknown.mk env.vars[p] r.form).Even (r.partialContext env current slots)
      (r.partialContext env current slots) (r.totalContext env current values) r.body :=
    even_of_uniform hform nodup decisive.toUniform hx hpending
  obtain ⟨a, ha, hcases⟩ := choices_eq_ok hx hvs
  have hadmits := admits_of_infers nodup hx fill (Expr.meaning_of_holds hholds) (fun _ => heven) ha
  rcases hcases with ⟨rfl, -⟩ | rfl | ⟨rfl, -, rfl⟩
  · exact hadmits.elim
  · obtain ⟨v, hv, hvalue⟩ := hadmits trivial
    rw [← set_eq_self hvalue] at hwidth hholds
    exact ⟨v, hv, hwidth, hholds⟩
  · -- the default is taken, and the action is true of it as it was of the value before
    have hunasked : r.body.asksNext env.vars[p] = false := by
      rw [← Bool.not_eq_true]
      exact fun hasks => ha.ne_unmentioned hform heven.pending (decisive.asked _ hmem hasks) rfl
    have hcurrent : current[p]? = some current[p] := List.getElem?_eq_getElem (full ▸ hlt)
    obtain ⟨fill', -⟩ := filledBy_set (v := current[p]) hlength fill hpending
    have hsame : (r.totalContext env current values).SameBut env.vars[p]
        (r.totalContext env current (values.set p current[p])) := by
      rw [totalContext_of_primed hform, totalContext_of_primed hform]
      exact Context.sameBut_ofStep hx fun i hi => (List.getElem?_set_ne hi.symm).symm
    have heval := ha.eval_eq_of_unmentioned rfl hform heven.pending ⟨heven.balanced, hunasked⟩
      (filledBy_totalContext r env current fill) (filledBy_totalContext r env current fill') hsame
    refine ⟨current[p], by rw [hcurrent]; simp, by rw [List.length_set, hwidth], ?_⟩
    unfold Expr.holds
    rw [← heval]
    exact hholds

theorem blocked_of_states_eq_nil (hform : r.form = .primed) (ordered : r.IsOrdered env)
    (nodup : env.vars.Nodup) (decisive : r.body.Decisive env.vars) {s : State}
    (full : s.values.length = env.vars.length) (h : r.states env s.values = .ok []) :
    r.body.Blocked env s := by
  intro t hwidth hholds
  rw [← totalContext_of_primed hform] at hholds
  obtain ⟨found, hfound, -⟩ := exists_mem_states ordered h hwidth (fun _ hP => by simp [hP.2])
    (sustains_of_decisive hform nodup decisive full) ⟨hwidth, hholds⟩
  cases hfound

end Relation

namespace Model

variable {spec : Spec} {constants : List Value}

-- A state that can be reached has a value for each variable.
theorem ReachedIn.length_eq {n : Nat} {s : State} (path : (ofSpec spec constants).ReachedIn n s) :
    s.values.length = spec.vars.length := by
  rw [← length_vars spec constants]
  cases path with
  | initial admitted =>
    obtain ⟨all, hall, hs⟩ := admitted
    exact Relation.length_of_mem_states (Relation.isOrdered_initial _ _) hall hs
  | @step _ action _ _ path move =>
    obtain ⟨all, hall, hs⟩ := move
    cases hd : spec.actions[action]? with
    | some d =>
      rw [successors_eq hd] at hall
      exact Relation.length_of_mem_states (Relation.isOrdered_action _ _ _) hall hs
    | none =>
      have hnone : (ofSpec spec constants).actions[action]? = none := by
        simp [ofSpec, List.getElem?_eq_none_iff.mp hd]
      rw [successors, hnone] at hall
      cases hall
      cases hs

/-- A decisive action without successors is not enabled, and no decisive action is enabled in a
state of which a deadlock is reported, whatever fingerprints the check works with. -/
theorem blocked_of_successors_eq_nil (nodup : spec.variableNames.Nodup) {action : Nat}
    {d : Definition} (hd : spec.actions[action]? = some d)
    (decisive : d.body.Decisive spec.variableNames) :
    (∀ s : State, s.values.length = spec.vars.length →
      (ofSpec spec constants).successors action s = .ok [] →
      d.body.Blocked (ofSpec spec constants).env s) ∧
    ∀ (fp : State → Fingerprint) (x : Explorer) around trace stats,
      x.model = ofSpec spec constants →
      (x.check fp around).1 = .ok (.deadlocked trace stats) →
      ∃ last ∈ trace.getLast?, d.body.Blocked (ofSpec spec constants).env last.state := by
  have blocked : ∀ s : State, s.values.length = spec.vars.length →
      (ofSpec spec constants).successors action s = .ok [] →
      d.body.Blocked (ofSpec spec constants).env s := by
    intro s full h
    rw [successors_eq hd] at h
    exact Relation.blocked_of_states_eq_nil rfl (Relation.isOrdered_action _ _ _) nodup decisive
      (full.trans (length_vars spec constants).symm) h
  refine ⟨blocked, fun fp x around trace stats hmodel h => ?_⟩
  obtain ⟨id, hstuck, rfl⟩ := Explorer.stuck_of_check h
  obtain ⟨last, hlast, path, hstill⟩ := hstuck.shortestDeadlock.still
  rw [hmodel] at path hstill
  exact ⟨last, hlast, blocked last.state path.length_eq (hstill action)⟩

/-- The action `IF x' < 3 THEN x' = x + 1 ELSE x' \in {}` -/
def boundedUp : Expr :=
  .ite .none (.binary .none .lt (.primed .none "x") (.literal .none (.int 3)))
    (.binary .none .eq (.primed .none "x")
      (.binary .none .add (.name .none "x") (.literal .none (.int 1))))
    (.binary .none .mem (.primed .none "x") (.set .none []))

def single (body : Expr) : Spec where
  name := "Single"
  vars := [⟨"x", .none⟩]
  init := .binary .none .eq (.name .none "x") (.literal .none (.int 0))
  actions := [⟨"Act", body, .none⟩]

theorem decisive_boundedUp : boundedUp.Decisive (single boundedUp).variableNames where
  fresh := by decide
  balanced := by decide
  asked := by decide

theorem blocked_of_successors_eq_nil_boundedUp :
    let m := ofSpec (single boundedUp) []
    let trace := [⟨none, ⟨[.int 0]⟩⟩, ⟨some "Act", ⟨[.int 1]⟩⟩, ⟨some "Act", ⟨[.int 2]⟩⟩]
    m.successors 0 ⟨[.int 2]⟩ = .ok [] ∧ boundedUp.Blocked m.env ⟨[.int 2]⟩ ∧
      ((Explorer.mk m {} (.fresh m {})).check Explorer.scalar {}).1 =
        .ok (.deadlocked trace ⟨3, 3, 2, 0, [2]⟩) ∧
      ∃ last ∈ trace.getLast?, boundedUp.Blocked m.env last.state := by
  intro m trace
  have hd : (single boundedUp).actions[0]? = some ⟨"Act", boundedUp, .none⟩ := rfl
  have h : m.successors 0 ⟨[.int 2]⟩ = .ok [] := by cbv
  have hcheck : ((Explorer.mk m {} (.fresh m {})).check Explorer.scalar {}).1 =
      .ok (.deadlocked trace ⟨3, 3, 2, 0, [2]⟩) := by cbv
  obtain ⟨hblocked, hdeadlock⟩ :=
    @blocked_of_successors_eq_nil (single boundedUp) [] (by decide) 0 _ hd decisive_boundedUp
  exact ⟨h, hblocked ⟨[.int 2]⟩ rfl h, hcheck, hdeadlock _ _ _ _ _ rfl hcheck⟩

/-- The action `IF x' > 0 THEN TRUE ELSE FALSE` -/
def raise : Expr :=
  .ite .none (.binary .none .gt (.primed .none "x") (.literal .none (.int 0)))
    (.truth true) (.truth false)

-- The condition asks for a variable that neither alternative mentions. The variable gets its value
-- by default, of which the condition is false.
theorem enabled_raise :
    let m := ofSpec (single raise) []
    m.successors 0 ⟨[.int 0]⟩ = .ok [] ∧
      ((Explorer.mk m {} (.fresh m {})).check Explorer.scalar {}).1 =
        .ok (.deadlocked [⟨none, ⟨[.int 0]⟩⟩] ⟨1, 1, 0, 0, [0]⟩) ∧
      raise.holds (.ofStep m.env [.int 0] [.int 1]) = .ok true ∧
      ¬ raise.Blocked m.env ⟨[.int 0]⟩ := by
  intro m
  have h : m.successors 0 ⟨[.int 0]⟩ = .ok [] := by cbv
  have hcheck : ((Explorer.mk m {} (.fresh m {})).check Explorer.scalar {}).1 =
      .ok (.deadlocked [⟨none, ⟨[.int 0]⟩⟩] ⟨1, 1, 0, 0, [0]⟩) := by cbv
  have hholds : raise.holds (.ofStep m.env [.int 0] [.int 1]) = .ok true := by cbv
  exact ⟨h, hcheck, hholds, fun hblocked => hblocked ⟨[.int 1]⟩ rfl hholds⟩

end Model

end ActionSystem
