import ActionSystem.Proofs.Eval.Unrolling
import ActionSystem.Proofs.Solve.Dependence
import ActionSystem.Proofs.Solve.Lockstep
import ActionSystem.Proofs.Solve.Replacement
import ActionSystem.Proofs.Solve.Sources

/-!
# Solutions of unrolled relations

A quantifier over a set that is written out may be unrolled in place. If the elements of the set do
not refer to what is solved for, the relation has the same solutions as before.
-/

namespace ActionSystem

open Result (Matches)

/-! ## Elements that are settled -/

namespace Expr

variable {vars bound : List String} {form : Form} {d : Expr} {x : String}

/-- Below binders of the names `bound`, the expression refers to no variable of the next state, and
to no variable at all if it is the current state that is solved for. -/
structure Settled (vars : List String) (form : Form) (bound : List String) (e : Expr) : Prop where
  next : e.targetsIn vars .primed bound = []
  current : form = .unprimed → e.targetsIn vars .unprimed bound = []

theorem Settled.targetsIn_eq (h : d.Settled vars form bound) :
    d.targetsIn vars form bound = [] := by
  cases form with
  | primed => exact h.next
  | unprimed => exact h.current rfl

theorem position?_eq_none (h : d.targetsIn vars form bound = []) (hx : x ∈ d.namesIn form bound) :
    position? vars x = none := List.filterMap_eq_nil_iff.mp h x hx

end Expr

namespace Unknown

variable {u : Unknown} {outer c : Context} {bound : List String} {d : Expr}

-- What is settled refers to names that are no variables, except where these are not solved for.
theorem settles_of_settled (hd : d.Settled outer.env.vars u.form bound) (hc : outer.Below bound c)
    (given : ∀ i, (u.form.given outer).isPending i = false) {r : Reference}
    (hr : r ∈ d.references []) : c.settles r = true := by
  have undeclared : ∀ {form x}, d.targetsIn outer.env.vars form bound = [] →
      x ∈ d.namesIn form bound → ∀ slots, c.pendingIn slots x = false := by
    intro form x hnone hx slots
    have hindex : c.env.variableIndex? x = none := hc.env ▸ Expr.position?_eq_none hnone hx
    rw [Context.pendingIn, hindex]
  have next : ∀ x ∈ r.names .primed, ∀ slots, c.pendingIn slots x = false := fun x hx =>
    undeclared hd.next (Expr.mem_namesIn_primed (Expr.mem_namesIn.mpr ⟨r, hr, hx⟩) bound)
  cases r with
  | primed x => simp [Context.settles, next x (List.mem_singleton_self x)]
  | frame xs taken =>
    rw [Context.settles, List.all_eq_true]
    intro x hx
    simp [next x hx]
  | name x =>
    by_cases hb : x ∈ bound
    · simp [Context.settles, hc.taken, hb]
    · have hcurrent : c.pendingIn c.current x = false := by
        cases hform : u.form with
        | primed =>
          rw [hform] at given
          exact Context.pendingIn_eq_false fun i _ => hc.current ▸ given i
        | unprimed =>
          have hfree : .name x ∈ d.references bound :=
            Expr.name_mem_references.mpr ⟨hr, hb⟩
          exact undeclared (hd.current hform)
            (Expr.mem_namesIn.mpr ⟨_, hfree, List.mem_singleton_self x⟩) _
      simp [Context.settles, hcurrent]

theorem resolves_of_settled (hd : d.Settled outer.env.vars u.form bound)
    (hc : outer.Below bound c) (given : ∀ i, (u.form.given outer).isPending i = false) :
    c.resolves d [] = true :=
  List.all_eq_true.mpr fun _ hr => settles_of_settled hd hc given hr

-- What is settled does not refer to the unknown.
theorem not_among_of_settled (hd : d.Settled outer.env.vars u.form bound)
    (hc : outer.Below bound c) (declared : outer.env.variableIndex? u.name ≠ none) {r : Reference}
    (hr : r ∈ d.references []) : ¬ u.isAmong c r = true := by
  intro among
  have next : u.name ∉ r.names .primed := fun hx => declared (Expr.position?_eq_none hd.next
    (Expr.mem_namesIn_primed (Expr.mem_namesIn.mpr ⟨r, hr, hx⟩) bound))
  cases r with
  | primed x =>
    simp only [isAmong, Bool.and_eq_true, decide_eq_true_eq] at among
    exact next (among.2 ▸ List.mem_singleton_self x)
  | frame xs taken => exact next (List.contains_iff_mem.mp among)
  | name x =>
    simp only [isAmong, Bool.and_eq_true, decide_eq_true_eq, Bool.not_eq_true'] at among
    obtain ⟨⟨hform, rfl⟩, hlocal⟩ := among
    have hb : u.name ∉ bound := by simpa [hc.taken] using hlocal
    have hfree : .name u.name ∈ d.references bound := Expr.name_mem_references.mpr ⟨hr, hb⟩
    exact declared (Expr.position?_eq_none (hd.current hform)
      (Expr.mem_namesIn.mpr ⟨_, hfree, List.mem_singleton_self _⟩))

/-! ## Candidates -/

section

variable {s t : Span} {q : Binder} {op : Connective} {k : String} {body e' : Expr}
  {es : List Expr} {ws : List Value} {r : Candidates}

-- What is open in the body is open in each expression that it is a part of.
theorem open_of_unrolled (h : Expr.Unrolled op k body es e')
    (pending : ∃ r ∈ body.references [k], c.settles r = false)
    (among : ∃ r ∈ body.references [k], u.isAmong c r = true) : u.Open c e' := by
  obtain ⟨r, hr, hpending⟩ := pending
  obtain ⟨r', hr', hamong⟩ := among
  exact ⟨Context.resolves_eq_false_iff.mpr ⟨r, h.mem_references.mpr (.inr hr), hpending⟩,
    List.any_eq_true.mpr ⟨r', h.mem_references.mpr (.inr hr'), hamong⟩⟩

-- An unrolled `\E` goes through the alternatives one by one.
theorem joinsAll_of_unrolled (h : Expr.Unrolled .or k body es e')
    (pending : ∃ r ∈ body.references [k], c.settles r = false)
    (among : ∃ r ∈ body.references [k], u.isAmong c r = true)
    (resolved : ∀ e ∈ es, c.resolves e [] = true) (hws : Expr.evalAll es c = .ok ws)
    (hr : u.infer outer e' c = .ok r) :
    Candidates.JoinsAll (fun v => u.infer outer body (c.bind k v)) u.form
      (outer.value? u.name) ws r := by
  induction h generalizing ws r with
  | one =>
    obtain ⟨w, hw, rfl⟩ := Expr.evalAll_singleton_eq_ok.mp hws
    rw [infer_letIn (open_of_unrolled (@Expr.Unrolled.one .or ..) pending among),
      if_pos (resolved _ (List.mem_singleton_self _)), hw] at hr
    exact Candidates.joinsAll_singleton hr
  | more left right ihl ihr =>
    obtain ⟨hleft, hright⟩ := List.forall_mem_append.mp resolved
    obtain ⟨us, vs, hus, hvs, rfl⟩ := Expr.evalAll_append_eq_ok.mp hws
    rw [infer_or (open_of_unrolled (.more left right) pending among)] at hr
    simp only [Result.bind_eq_ok] at hr
    obtain ⟨a, ha, b, hb, joined⟩ := hr
    exact (ihl hleft hus ha).append (ihr hright hvs hb) (joins_of_disjoin joined)

-- An unrolled `\A` goes through the conditions one by one, until one is disabled.
theorem meetsAll_of_unrolled (h : Expr.Unrolled .and k body es e')
    (pending : ∃ r ∈ body.references [k], c.settles r = false)
    (among : ∃ r ∈ body.references [k], u.isAmong c r = true)
    (resolved : ∀ e ∈ es, c.resolves e [] = true) (hws : Expr.evalAll es c = .ok ws)
    (hr : u.infer outer e' c = .ok r) :
    Candidates.MeetsAll (fun v => u.infer outer body (c.bind k v)) ws r := by
  induction h generalizing ws r with
  | one =>
    obtain ⟨w, hw, rfl⟩ := Expr.evalAll_singleton_eq_ok.mp hws
    rw [infer_letIn (open_of_unrolled (@Expr.Unrolled.one .and ..) pending among),
      if_pos (resolved _ (List.mem_singleton_self _)), hw] at hr
    exact Candidates.meetsAll_singleton hr
  | more left right ihl ihr =>
    obtain ⟨hleft, hright⟩ := List.forall_mem_append.mp resolved
    obtain ⟨us, vs, hus, hvs, rfl⟩ := Expr.evalAll_append_eq_ok.mp hws
    rw [infer_and (open_of_unrolled (.more left right) pending among), Result.bind_eq_ok] at hr
    obtain ⟨a, ha, hr⟩ := hr
    by_cases hdis : a = .disabled
    · rw [if_pos hdis, Result.pure_eq_ok] at hr
      obtain ⟨v, hv, hresult⟩ := (hdis ▸ ihl hleft hus ha).exists_disabled
      exact hr ▸ .disabled (List.mem_append_left _ hv) hresult
    · rw [if_neg hdis, Result.bind_eq_ok] at hr
      obtain ⟨b, hb, hr⟩ := hr
      cases hr
      exact (ihl hleft hus ha).append (ihr hright hvs hb)

theorem joinsAll_of_infer_any (hopen : u.Open c (.bind s .any k d body))
    (resolved : c.resolves d [] = true) (h : u.infer outer (.bind s .any k d body) c = .ok r) :
    ∃ items, d.domain c = .ok items ∧ Candidates.JoinsAll
      (fun v => u.infer outer body (c.bind k v)) u.form (outer.value? u.name) items r := by
  rw [infer_any hopen, if_pos resolved] at h
  simp only [Result.bind_eq_ok] at h
  obtain ⟨items, hitems, cs, hcs, joined⟩ := h
  have : Nonempty Candidates := ⟨.constrained⟩
  obtain ⟨g, hg, rfl⟩ := Result.exists_map_of_mapM hcs
  have hsaid : ∀ v ∈ items,
      Candidates.said (fun v => u.infer outer body (c.bind k v)) v = g v := fun v hv =>
    Candidates.said_of_ok (hg v hv)
  refine ⟨items, hitems, fun v hv => (hg v hv).trans (hsaid v hv ▸ rfl), ?_⟩
  rw [List.map_congr_left hsaid]
  exact joins_of_disjoin joined

theorem meetsAll_of_infer_all (hopen : u.Open c (.bind s .all k d body))
    (resolved : c.resolves d [] = true) (h : u.infer outer (.bind s .all k d body) c = .ok r) :
    ∃ items, d.domain c = .ok items ∧
      Candidates.MeetsAll (fun v => u.infer outer body (c.bind k v)) items r := by
  rw [infer_all hopen, if_pos resolved, Result.bind_eq_ok] at h
  obtain ⟨items, hitems, h⟩ := h
  refine ⟨items, hitems, ?_⟩
  rcases conjoinAll_eq_ok h with ⟨rfl, v, hv, hresult⟩ | ⟨g, hg, rfl⟩
  · exact .disabled hv hresult
  · have hsaid : ∀ v ∈ items,
        Candidates.said (fun v => u.infer outer body (c.bind k v)) v = g v := fun v hv =>
      Candidates.said_of_ok (hg v hv)
    refine .meets (fun v hv => (hg v hv).trans (hsaid v hv ▸ rfl)) ?_
    rw [List.map_congr_left hsaid]
    exact Candidates.meets_foldl Candidates.meets_nil (items.map g)

theorem alike_of_unrolled (h : Expr.Unrolled op k body es e')
    (hq : Expr.connective? q = some op) :
    u.Alike False outer (.bind s q k (.set t es) body) e' := by
  have same : ∀ bound r, r ∈ (Expr.bind s q k (.set t es) body).references bound ↔
      r ∈ e'.references bound := by
    intro bound r
    rw [h.mem_references, Expr.references, Expr.references, List.mem_append]
  exact {
    side := fun c => by cases h <;> rfl
    pending := fun c bound _ => by simp only [same]
    among := fun c bound _ => by simp only [same]
    eval := fun c => h.matches_eval hq }

/-- The candidates under a quantifier say what those under its unrolling say. -/
theorem infersSame_of_unrolled (h : Expr.Unrolled op k body es e')
    (hq : Expr.connective? q = some op)
    (settled : (Expr.set t es).Settled outer.env.vars u.form bound)
    (given : ∀ i, (u.form.given outer).isPending i = false)
    (declared : outer.env.variableIndex? u.name ≠ none) :
    u.InfersSame False outer bound (.bind s q k (.set t es) body) e' := by
  refine .of_open (alike_of_unrolled h hq) fun c hc hopen hopen' => .of_forall fun a a' ha ha' => ?_
  have resolved := resolves_of_settled settled hc given
  -- the elements do not bring in what is open
  have pending : ∃ r ∈ body.references [k], c.settles r = false := by
    obtain ⟨r, hr, hpending⟩ := Context.resolves_eq_false_iff.mp hopen.unresolved
    rcases List.mem_append.mp hr with hr | hr
    · rw [settles_of_settled settled hc given hr] at hpending
      cases hpending
    · exact ⟨r, hr, hpending⟩
  have among : ∃ r ∈ body.references [k], u.isAmong c r = true := by
    obtain ⟨r, hr, hamong⟩ := List.any_eq_true.mp hopen.mentioned
    rcases List.mem_append.mp hr with hr | hr
    · exact absurd hamong (not_among_of_settled settled hc declared hr)
    · exact ⟨r, hr, hamong⟩
  have each : ∀ e ∈ es, c.resolves e [] = true := fun e he =>
    List.all_eq_true.mpr fun r hr => List.all_eq_true.mp resolved r
      (Expr.mem_referencesAll.mpr ⟨e, he, hr⟩)
  cases q with
  | any =>
    cases hq
    obtain ⟨items, hitems, hjoins⟩ := joinsAll_of_infer_any hopen resolved ha
    obtain ⟨ws, hws, hmem⟩ := Expr.domain_set hitems
    exact hjoins.same (joinsAll_of_unrolled h pending among each hws ha') fun v => (hmem v).symm
  | all =>
    cases hq
    obtain ⟨items, hitems, hmeets⟩ := meetsAll_of_infer_all hopen resolved ha
    obtain ⟨ws, hws, hmem⟩ := Expr.domain_set hitems
    exact hmeets.same (meetsAll_of_unrolled h pending among each hws ha') fun v => (hmem v).symm
  | _ => cases hq

end

end Unknown

/-! ## Unrolling in place -/

namespace Expr

variable {vars bound context : List String} {form : Form} {e e' p : Expr} {x : String}

theorem Unrolled.dependencies {op : Connective} {k : String} {body : Expr} {es : List Expr}
    {context : List Nat} (h : Unrolled op k body es e')
    (hes : ∀ e ∈ es, e.targetsIn vars form bound = []) :
    SameMembers (body.dependencies vars form (k :: bound) context)
      (e'.dependencies vars form bound context) := by
  induction h with
  | one =>
    rw [Expr.dependencies, hes _ (List.mem_singleton_self _)]
    exact fun _ => .rfl
  | more left right ihl ihr =>
    obtain ⟨hleft, hright⟩ := List.forall_mem_append.mp hes
    intro d
    rw [Expr.dependencies, List.mem_append, ← ihl hleft d, ← ihr hright d, or_self]

/-- In one place below binders of the names `bound`, a quantifier over a set that is written out is
replaced by its unrolling. The elements of the set are settled. -/
inductive Unrolls (vars : List String) (form : Form) : List String → Expr → Expr → Prop where
  | quantifier {bound : List String} {s t : Span} {q : Binder} {op : Connective} {k : String}
      {body e' : Expr} {es : List Expr} (repeats : connective? q = some op)
      (unrolled : Unrolled op k body es e') (settled : (set t es).Settled vars form bound) :
      Unrolls vars form bound (bind s q k (set t es) body) e'
  | inside {bound : List String} {e p q : Expr} {i : Nat} (part : e.parts[i]? = some p)
      (unrolls : Unrolls vars form (e.taken i ++ bound) p q) :
      Unrolls vars form bound e (e.withParts (e.parts.set i q))

/-- Unrolling does not change what hangs on what. -/
theorem Unrolls.dependAlike (h : Unrolls vars form bound e e') :
    DependAlike vars form bound e e' := by
  induction h with
  | inside part _ ih => exact .withParts (paired_set part (fun _ => .refl) ih)
  | @quantifier bound s t q op k body e' es repeats unrolled settled =>
    have hset := settled.targetsIn_eq
    have hes : ∀ e ∈ es, e.targetsIn vars form bound = [] := by
      intro e he
      rw [List.eq_nil_iff_forall_not_mem] at hset ⊢
      intro v hv
      obtain ⟨r, hr, hx⟩ := mem_targetsIn.mp hv
      exact hset v (mem_targetsIn.mpr ⟨r, mem_referencesAll.mpr ⟨e, he, hr⟩, hx⟩)
    have hbind : ∀ context, (bind s q k (set t es) body).dependencies vars form bound context =
        body.dependencies vars form (k :: bound) context := by
      intro context
      cases q with
      | any | all => rw [dependencies, hset, List.nil_append]
      | _ => cases repeats
    constructor
    · cases unrolled <;> rfl
    · intro v
      simp only [mem_targetsIn, unrolled.mem_references, references, List.mem_append]
    · intro context context' hcontext d
      rw [hbind, (DependAlike.refl body).deps hcontext d, unrolled.dependencies hes d]

end Expr

namespace Unknown

variable {u : Unknown} {outer : Context} {vars bound : List String} {form : Form} {e e' : Expr}

theorem alike_of_unrolls (h : Expr.Unrolls vars form bound e e') : u.Alike False outer e e' := by
  induction h with
  | quantifier repeats unrolled _ => exact alike_of_unrolled unrolled repeats
  | inside part _ ih => exact .withParts (Expr.paired_set part (fun _ => .refl) ih)

/-- Unrolling does not change what is said about the unknown. -/
theorem infersSame_of_unrolls (h : Expr.Unrolls outer.env.vars u.form bound e e')
    (given : ∀ i, (u.form.given outer).isPending i = false)
    (declared : outer.env.variableIndex? u.name ≠ none) : u.InfersSame False outer bound e e' := by
  induction h with
  | quantifier repeats unrolled settled =>
    exact infersSame_of_unrolled unrolled repeats settled given declared
  | inside part unrolls ih =>
    exact .withParts (Expr.paired_set part (fun _ => .refl) (alike_of_unrolls unrolls))
      (Expr.paired_set part (fun _ => .refl) ih)

end Unknown

namespace Relation

variable {r : Relation} {body : Expr} {env : Env} {current : List Value}
  {slots : List (Option Value)} {states states' : List State}

/-- A relation has the same solutions with a quantifier unrolled. -/
theorem states_eq_of_unrolls (h : Expr.Unrolls env.vars r.form [] r.body body)
    (ordered : r.IsOrdered env) (hs : r.states env current = .ok states)
    (hs' : { r with body }.states env current = .ok states') : states = states' := by
  have inStep : InStep False r body env current fun _ => True := {
    eval := fun c =>
      have alike : (Unknown.mk "" r.form).Alike False (r.partialContext env current []) r.body
          body := Unknown.alike_of_unrolls h
      alike.eval c
    choices := fun {slots p} _ _ => matches_choices fun x hx => by
      have henv : (r.partialContext env current slots).env = env := env_partialContext
      have declared : env.variableIndex? x ≠ none := by
        simpa [Env.variableIndex?] using List.mem_of_getElem? hx
      refine Unknown.infersSame_of_unrolls ?_ given_partialContext ?_ _
        (Context.below_self isLocal_partialContext)
      · rw [henv]
        exact h
      · rw [henv]
        exact declared
    start := trivial
    step := fun _ _ _ _ => trivial }
  exact (inStep.matches_states ordered).rel hs hs'

end Relation

namespace Model

variable {spec : Spec} {constants : List Value}

/-- The initial states are the same if a quantifier in the initial predicate is unrolled, and so are
the successors if one in the action is. -/
theorem states_eq_of_unrolled_body :
    (∀ init states states', Expr.Unrolls spec.variableNames .unprimed [] spec.init init →
      (ofSpec spec constants).initialStates = .ok states →
      (ofSpec { spec with init } constants).initialStates = .ok states' → states = states') ∧
    ∀ (action : Nat) d body (s : State) states states', spec.actions[action]? = some d →
      Expr.Unrolls spec.variableNames .primed [] d.body body →
      (ofSpec spec constants).successors action s = .ok states →
      (ofSpec { spec with actions := spec.actions.set action { d with body } }
        constants).successors action s = .ok states' → states = states' := by
  let env := (ofSpec spec constants).env
  constructor
  · intro init states states' unrolls h h'
    change (Relation.initial init spec.variableNames).states env [] = .ok states' at h'
    rw [Relation.initial_eq unrolls.dependAlike.solvingOrder_eq] at h'
    exact Relation.states_eq_of_unrolls (r := .initial spec.init env.vars) unrolls
      (Relation.isOrdered_initial spec.init env) h h'
  · intro action d body s states states' hd unrolls h h'
    rw [successors_eq hd] at h
    rw [successors_set_eq hd, Relation.action_eq unrolls.dependAlike.solvingOrder_eq] at h'
    exact Relation.states_eq_of_unrolls (r := .action d.name d.body env.vars) unrolls
      (Relation.isOrdered_action d.name d.body env) h h'

/-- The condition `x = k /\ y = k` -/
def twin : Expr :=
  .logical .none .and (.binary .none .eq (.name .none "x") (.name .none "k"))
    (.binary .none .eq (.name .none "y") (.name .none "k"))

/-- The condition `x' = k \/ y' = k` -/
def offer : Expr :=
  .logical .none .or (.binary .none .eq (.primed .none "x") (.name .none "k"))
    (.binary .none .eq (.primed .none "y") (.name .none "k"))

/-- Two variables that start as twins, either of which is offered the value of `y` or another one.
The initial predicate is `\E k \in {1, 0, 1} : x = k /\ y = k`, and the action is
`\E k \in {y, 2} : x' = k \/ y' = k`. -/
def offering : Spec where
  name := "Offering"
  vars := [⟨"x", .none⟩, ⟨"y", .none⟩]
  init := .bind .none .any "k" (.set .none [.literal .none (.int 1), .literal .none (.int 0),
    .literal .none (.int 1)]) twin
  actions := [⟨"Offer", .bind .none .any "k" (.set .none [.name .none "y",
    .literal .none (.int 2)]) offer, .none⟩]

theorem states_eq_of_unrolled_body_offering :
    let s : State := ⟨[.int 0, .int 1]⟩
    let init := Expr.unroll .or "k" twin (.literal .none (.int 1))
      [.literal .none (.int 0), .literal .none (.int 1)]
    let body := Expr.unroll .or "k" offer (.name .none "y") [.literal .none (.int 2)]
    let init' : Spec := { offering with init }
    let next' : Spec := { offering with actions := [⟨"Offer", body, .none⟩] }
    ∃ starts starts' nexts nexts',
      Expr.Unrolls offering.variableNames .unprimed [] offering.init init ∧
      (ofSpec offering []).initialStates = .ok starts ∧
      (ofSpec init' []).initialStates = .ok starts' ∧ starts = starts' ∧ starts.length = 2 ∧
      (ofSpec offering []).successors 0 s = .ok nexts ∧
      (ofSpec next' []).successors 0 s = .ok nexts' ∧ nexts = nexts' ∧ nexts.length = 6 := by
  intro s init body init' next'
  let starts : List State := [⟨[.int 0, .int 0]⟩, ⟨[.int 1, .int 1]⟩]
  let nexts : List State := [⟨[.int 0, .int 1]⟩, ⟨[.int 0, .int 2]⟩, ⟨[.int 1, .int 1]⟩,
    ⟨[.int 1, .int 2]⟩, ⟨[.int 2, .int 1]⟩, ⟨[.int 2, .int 2]⟩]
  have hs : (ofSpec offering []).initialStates = .ok starts := by cbv
  have hs' : (ofSpec init' []).initialStates = .ok starts := by cbv
  have hn : (ofSpec offering []).successors 0 s = .ok nexts := by cbv
  have hn' : (ofSpec next' []).successors 0 s = .ok nexts := by cbv
  have hinit : Expr.Unrolls offering.variableNames .unprimed [] offering.init init :=
    .quantifier rfl (Expr.unrolled_unroll ..) ⟨rfl, fun _ => rfl⟩
  have hbody : Expr.Unrolls offering.variableNames .primed [] (.bind .none .any "k"
      (.set .none [.name .none "y", .literal .none (.int 2)]) offer) body :=
    .quantifier rfl (Expr.unrolled_unroll ..) ⟨rfl, by simp⟩
  obtain ⟨initial, step⟩ := @states_eq_of_unrolled_body offering []
  exact ⟨starts, starts, nexts, nexts, hinit, hs, hs', initial _ _ _ hinit hs hs', rfl, hn, hn',
    step 0 _ _ s _ _ rfl hbody hn hn', rfl⟩

end Model

end ActionSystem
