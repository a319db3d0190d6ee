import ActionSystem.Proofs.Solve.Solutions

/-!
# Commitment to a variable

An action commits itself to a variable in a solution if what is true in the solution says what
becomes of the variable. This depends on the solution only, and not on the order in which its
values are found: candidates are listed for a variable only if the action commits itself to it, and
then the variable is never left to the default.
-/

namespace ActionSystem

namespace Expr

variable {x : String} {e : Expr} {c : Context}

/-- What is true of the expression in the context says what becomes of the variable. A choice says
it if all alternatives do, or if it is known which one is taken. -/
def Commits (x : String) : Expr → Context → Prop
  | logical _ .and l r, c => Commits x l c ∨ Commits x r c
  | logical _ .implies l r, c => l.Means c ∧ Commits x r c
  | ite s p y n, c =>
    (ite s p y n).settlesNext x = true ∨ p.Means c ∧ Commits x y c ∨
      p.meaning c = some (.bool false) ∧ Commits x n c
  | bind _ .all y d body, c =>
    ∃ items, d.items? c = some items ∧ ∃ v ∈ items, Commits x body (c.bind y v)
  | letIn _ y v body, c => ∃ w, v.meaning c = some w ∧ Commits x body (c.bind y w)
  | e, _ => e.settlesNext x = true
termination_by structural e => e

-- An expression does not say what becomes of a variable that it does not mention.
theorem Commits.mem_namesIn (h : e.Commits x c) : x ∈ e.namesIn .primed [] := by
  induction e using of_parts generalizing c with
  | step e ih =>
    have part : ∀ p ∈ e.parts, ∀ c, p.Commits x c → x ∈ e.namesIn .primed [] :=
      fun p hp c hc => mem_namesIn_of_part hp (ih p hp hc)
    unfold Commits at h
    split at h
    · exact h.elim (part _ (by simp [parts]) _) (part _ (by simp [parts]) _)
    · exact part _ (by simp [parts]) _ h.2
    · rcases h with h | ⟨-, h⟩ | ⟨-, h⟩
      · exact mem_namesIn_of_settlesNext h
      · exact part _ (by simp [parts]) _ h
      · exact part _ (by simp [parts]) _ h
    · obtain ⟨items, -, v, -, h⟩ := h
      exact part _ (by simp [parts]) _ h
    · obtain ⟨w, -, h⟩ := h
      exact part _ (by simp [parts]) _ h
    · exact mem_namesIn_of_settlesNext h

theorem commits_of_same {c' : Context} (h : c.Same c') : e.Commits x c ↔ e.Commits x c' := by
  induction e using of_parts generalizing c c' with
  | step e ih =>
    have part : ∀ p ∈ e.parts, p.Commits x c ↔ p.Commits x c' := fun p hp => ih p hp h
    have body : ∀ p ∈ e.parts, ∀ y v, p.Commits x (c.bind y v) ↔ p.Commits x (c'.bind y v) :=
      fun p hp y v => ih p hp (h.bind y v)
    cases e with
    | logical s op l r =>
      cases op with
      | and => simp only [Commits, part l (by simp [parts]), part r (by simp [parts])]
      | or => rfl
      | implies => simp only [Commits, Means, meaning_of_same h, part r (by simp [parts])]
    | bind s b y d e =>
      cases b with
      | all => simp only [Commits, items?, meaning_of_same h, body e (by simp [parts])]
      | _ => rfl
    | letIn s y v e => simp only [Commits, meaning_of_same h, body e (by simp [parts])]
    | ite s p y n =>
      simp only [Commits, Means, meaning_of_same h, part y (by simp [parts]),
        part n (by simp [parts])]
    | _ => rfl

end Expr

namespace Unknown

variable {u : Unknown} {outer c c' : Context} {e : Expr} {r : Candidates}

-- A list of values is read off something that mentions the unknown.
theorem Infers.mem_of_values {vs : List Value} (h : u.Infers outer e c (.values vs))
    (hform : u.form = .primed) : u.name ∈ e.namesIn .primed [] := by
  rw [← isMentioned_iff (c := c) hform, ← Bool.not_eq_false]
  intro free
  rcases h.eq_of_not_mentioned free with heq | heq <;> cases heq

-- A choice in which some alternative lists values settles the unknown.
theorem FromAlternatives.settlesNext {cs : List Candidates} {vs : List Value}
    (h : u.FromAlternatives outer c e cs) (joined : u.disjoin outer cs = .ok (.values vs))
    (hform : u.form = .primed) (balanced : e.isBalanced u.name = true) :
    e.settlesNext u.name = true := by
  obtain ⟨ws, hws⟩ := exists_values_of_disjoin joined
  obtain ⟨p, hp, b, -, -, hinfers⟩ := h _ hws
  exact Expr.settlesNext_of_mentioned balanced hp (hinfers.mem_of_values hform)

theorem isNext_of_isSide (hform : u.form = .primed) (h : u.isSide c e = true) :
    e.isNext u.name = true := by
  unfold isSide at h
  split at h
  · exact ((Bool.and_eq_true _ _).mp h).2
  · simp [hform] at h
  · cases h

theorem settlesNext_of_fromEquation {s : Span} {l m : Expr} {vs : List Value}
    (h : u.fromEquation c l m = .ok (.values vs)) (hform : u.form = .primed) :
    (Expr.binary s .eq l m).settlesNext u.name = true := by
  rw [Expr.settlesNext, Bool.or_eq_true]
  unfold fromEquation at h
  split at h
  · rename_i found hfound
    exact .inl (isNext_of_isSide hform (fromSide_eq_some hfound).1)
  · split at h
    · rename_i found hfound
      exact .inr (isNext_of_isSide hform (fromSide_eq_some hfound).1)
    · cases h

theorem settlesNext_of_fromMembership {s : Span} {l m : Expr} {vs : List Value}
    (h : u.fromMembership c l m = .ok (.values vs)) (hform : u.form = .primed) :
    (Expr.binary s .mem l m).settlesNext u.name = true := by
  rw [Expr.settlesNext]
  unfold fromMembership at h
  split at h
  · rename_i found hfound
    exact isNext_of_isSide hform (fromSide_eq_some hfound).1
  · cases h

/-- Values are listed for a variable only if the action commits itself to it. -/
theorem Infers.commits (h : u.Infers outer e c r) (hr : ∃ vs, r = .values vs)
    (hform : u.form = .primed) (balanced : e.isBalanced u.name = true) (fill : c.FilledBy c') :
    e.Commits u.name c' := by
  induction h generalizing c' with
  | @truth e c b resolved known =>
    obtain ⟨vs, hr⟩ := hr
    cases b <;> cases hr
  | unmentioned free => obtain ⟨vs, ⟨⟩⟩ := hr
  | constrained unsettled => obtain ⟨vs, ⟨⟩⟩ := hr
  | leftDisabled unsettled left ihl => obtain ⟨vs, ⟨⟩⟩ := hr
  | vacuous unsettled resolved known => obtain ⟨vs, ⟨⟩⟩ := hr
  | oneDisabled unsettled resolved ranges mem one ih => obtain ⟨vs, ⟨⟩⟩ := hr
  | equation unsettled read =>
    obtain ⟨vs, rfl⟩ := hr
    exact settlesNext_of_fromEquation read hform
  | membership unsettled read =>
    obtain ⟨vs, rfl⟩ := hr
    exact settlesNext_of_fromMembership read hform
  | @frame s xs c v unsettled primed listed kept =>
    show xs.contains u.name = true
    simpa using listed
  | @either s l m c a b _ unsettled left right joined ihl ihr =>
    obtain ⟨vs, rfl⟩ := hr
    have hcs : u.FromAlternatives outer c (.logical s .or l m) [a, b] :=
      fromAlternatives_pair left right rfl
    exact hcs.settlesNext joined hform balanced
  | @branches s p y n c a b _ unsettled yes no joined ihy ihn =>
    obtain ⟨vs, rfl⟩ := hr
    have hcs : u.FromAlternatives outer c (.ite s p y n) [a, b] :=
      fromAlternatives_pair yes no rfl
    exact .inl (hcs.settlesNext joined hform balanced)
  | @any s x dom body c items f a unsettled resolved ranges each joined ih =>
    obtain ⟨vs, rfl⟩ := hr
    have hcs : u.FromAlternatives outer c (.bind s .any x dom body) (items.map f) :=
      fromAlternatives_map each
    exact hcs.settlesNext joined hform balanced
  | both unsettled left right ihl ihr =>
    obtain ⟨vs, hvs⟩ := hr
    rcases Candidates.conjoin_eq_values hvs with hl | hr
    · exact .inl (ihl hl (Expr.isBalanced_of_branch (by simp [Expr.branches]) balanced) fill)
    · exact .inr (ihr hr (Expr.isBalanced_of_branch (by simp [Expr.branches]) balanced) fill)
  | conclusion unsettled resolved known right ih =>
    exact ⟨fill.meaning_of_holds resolved known,
      ih hr (Expr.isBalanced_of_branch (by simp [Expr.branches]) balanced) fill⟩
  | @branch s p y n c a b unsettled resolved known taken ih =>
    have hp := fill.meaning_of_holds resolved known
    have hmem : (if b then y else n) ∈ (Expr.ite s p y n).branches := by
      cases b <;> simp [Expr.branches]
    have htaken := ih hr (Expr.isBalanced_of_branch hmem balanced) fill
    right
    cases b with
    | true => exact .inl ⟨hp, htaken⟩
    | false => exact .inr ⟨hp, htaken⟩
  | @all s x dom body c items f unsettled resolved ranges each ih =>
    obtain ⟨vs, hvs⟩ := hr
    rcases Candidates.foldl_conjoin_eq_values hvs with ⟨ws, ⟨⟩⟩ | ⟨b, hb, hws⟩
    obtain ⟨v, hv, rfl⟩ := List.mem_map.mp hb
    exact ⟨items, fill.items?_of_domain resolved ranges, v, hv, ih v hv hws
      (Expr.isBalanced_of_branch (by simp [Expr.branches]) balanced) (fill.bind x v)⟩
  | @definition s x v body c w a unsettled resolved known inner ih =>
    exact ⟨w, fill.meaning_of_eval resolved known, ih hr
      (Expr.isBalanced_of_branch (by simp [Expr.branches]) balanced) (fill.bind x w)⟩

/-- A variable that the action commits itself to is not left to the default. -/
theorem Infers.ne_unmentioned_of_commits (h : u.Infers outer e c r)
    (commits : e.Commits u.name c') (hform : u.form = .primed)
    (pending : c.pendingIn c.next u.name = true) (balanced : e.isBalanced u.name = true)
    (fill : c.FilledBy c') : r ≠ .unmentioned := by
  induction h generalizing c' with
  | truth resolved known =>
    rw [resolves_eq_false commits.mem_namesIn pending] at resolved
    cases resolved
  | unmentioned free =>
    rw [(isMentioned_iff hform).mpr commits.mem_namesIn] at free
    cases free
  | constrained unsettled => simp
  | equation unsettled read => exact fromEquation_ne_unmentioned read
  | membership unsettled read => exact fromMembership_ne_unmentioned read
  | frame unsettled primed listed kept => simp
  | leftDisabled unsettled left ihl => simp
  | oneDisabled unsettled resolved ranges mem one ih => simp
  | both unsettled left right ihl ihr =>
    intro heq
    obtain ⟨ha, hb⟩ := Candidates.conjoin_eq_unmentioned heq
    rcases commits with hl | hr
    · exact ihl hl pending (Expr.isBalanced_of_branch (by simp [Expr.branches]) balanced) fill ha
    · exact ihr hr pending (Expr.isBalanced_of_branch (by simp [Expr.branches]) balanced) fill hb
  | either unsettled left right joined ihl ihr =>
    exact (Infers.either unsettled left right joined).ne_unmentioned hform pending commits
  | any unsettled resolved ranges each joined ih =>
    exact (Infers.any unsettled resolved ranges each joined).ne_unmentioned hform pending commits
  | conclusion unsettled resolved known right ih =>
    exact ih commits.2 pending (Expr.isBalanced_of_branch (by simp [Expr.branches]) balanced) fill
  | vacuous unsettled resolved known =>
    have hfalse := fill.meaning_of_holds resolved known
    rw [commits.1] at hfalse
    cases hfalse
  | @branch s p y n c a b unsettled resolved known taken ih =>
    have hp := fill.meaning_of_holds resolved known
    rcases commits with hsettled | ⟨hyes, hy⟩ | ⟨hno, hn⟩
    · exact (Infers.branch unsettled resolved known taken).ne_unmentioned hform pending hsettled
    · rw [hyes] at hp
      cases hp
      exact ih hy pending (Expr.isBalanced_of_branch (by simp [Expr.branches]) balanced) fill
    · rw [hno] at hp
      cases hp
      exact ih hn pending (Expr.isBalanced_of_branch (by simp [Expr.branches]) balanced) fill
  | @branches s p y n c a b d unsettled yes no joined ihy ihn =>
    -- the branch that is taken says it, and then the other does too
    have settled : (Expr.ite s p y n).settlesNext u.name = true := by
      rcases commits with hsettled | ⟨-, hy⟩ | ⟨-, hn⟩
      · exact hsettled
      · exact Expr.settlesNext_of_mentioned balanced (by simp [Expr.alternatives]) hy.mem_namesIn
      · exact Expr.settlesNext_of_mentioned balanced (by simp [Expr.alternatives]) hn.mem_namesIn
    exact (Infers.branches unsettled yes no joined).ne_unmentioned hform pending settled
  | @all s x dom body c items f unsettled resolved ranges each ih =>
    obtain ⟨items', hitems, v, hv, hbody⟩ := commits
    rw [fill.items?_of_domain resolved ranges] at hitems
    cases hitems
    intro heq
    obtain ⟨-, hnone⟩ := Candidates.foldl_conjoin_eq_unmentioned heq
    exact ih v hv hbody pending (Expr.isBalanced_of_branch (by simp [Expr.branches]) balanced)
      (fill.bind x v) (hnone _ (List.mem_map_of_mem hv))
  | @definition s x v body c w a unsettled resolved known inner ih =>
    obtain ⟨w', hw, hbody⟩ := commits
    rw [fill.meaning_of_eval resolved known] at hw
    cases hw
    exact ih hbody pending (Expr.isBalanced_of_branch (by simp [Expr.branches]) balanced)
      (fill.bind x _)

end Unknown

/-! ## Solutions of two relations -/

namespace Context

variable {env : Env} {current next : List Value} {x : String} {p : Nat}

theorem value?_ofStep (hx : env.variableIndex? x = some p) :
    (ofStep env current next).value? x = current[p]? := by
  simp only [value?, local?, ofStep, List.lookup_nil, hx]
  rfl

theorem nextValue?_ofStep (hx : env.variableIndex? x = some p) :
    (ofStep env current next).nextValue? x = next[p]? := by
  simp only [nextValue?, ofStep, hx]
  rfl

end Context

namespace Relation

variable {r r' : Relation} {env env' : Env} {current current' : List Value} {t t' : State}
  {states states' : List State}

/-- A solution of one relation is found for another, if the relations mean the same in it and the
other commits itself to the variables that the first does. The variables may be declared in another
order there. -/
theorem mem_states_of_commits (hform : r.form = r'.form) (perm : env'.vars.Perm env.vars)
    (nodup : env.vars.Nodup) (uniform : r.form = .primed → r.body.Uniform env.vars)
    (uniform' : r'.form = .primed → r'.body.Uniform env'.vars)
    (ordered : r.IsOrdered env) (ordered' : r'.IsOrdered env')
    (h : r.states env current = .ok states) (h' : r'.states env' current' = .ok states')
    (length_eq : t'.values.length = env'.vars.length)
    (same : (r.totalContext env current t.values).Same (r'.totalContext env' current' t'.values))
    (meaning : r.body.meaning (r.totalContext env current t.values) =
      r'.body.meaning (r'.totalContext env' current' t'.values))
    (commits : ∀ x, r.body.Commits x (r.totalContext env current t.values) →
      r'.body.Commits x (r'.totalContext env' current' t'.values))
    (ht : t ∈ states) : t' ∈ states' := by
  have nodup' : env'.vars.Nodup := perm.nodup_iff.mpr nodup
  have hsolves := solves_of_mem_states ordered h ht
  have means : r'.body.Means (r'.totalContext env' current' t'.values) := by
    rw [Expr.Means, ← meaning]
    exact Expr.meaning_of_holds hsolves.holds
  refine mem_states_of_ne_false ordered' h' length_eq means.holds_ne_false
    (offered_of_admits nodup' length_eq means ?_ ?_)
  · intro hprimed slots p x hx hpending
    exact even_of_uniform hprimed nodup' (uniform' hprimed) hx hpending
  · intro hprimed' slots' p' x hx' hpending' fill' hdefault
    have hprimed : r.form = .primed := hform.trans hprimed'
    have hmem' := List.mem_of_getElem? hx'
    have hmem := perm.mem_iff.mp hmem'
    obtain ⟨p, hx⟩ := List.mem_iff_getElem?.mp hmem
    have hlt : p < env.vars.length := (List.getElem?_eq_some_iff.mp hx).1
    -- the value that the variable has here comes from the choices for it
    obtain ⟨slots, vs, v, hpending, fill, hvs, hv, hvalue⟩ := hsolves.chosen p
      (ordered.mem_iff.mpr (List.mem_range.mpr hlt)) (by rw [List.length_replicate]; exact hlt)
    obtain ⟨a, ha, hcases⟩ := choices_eq_ok hx hvs
    rcases hcases with ⟨-, rfl⟩ | rfl | ⟨-, -, rfl⟩
    · cases hv
    · -- where values are listed, the relations commit themselves to the variable
      have hcommits := commits x (ha.commits ⟨vs, rfl⟩ hprimed
        ((uniform hprimed).balanced x hmem) (filledBy_totalContext r env current fill))
      exact absurd rfl (hdefault.ne_unmentioned_of_commits hcommits hprimed'
        (pendingIn_partialContext hprimed' nodup' hx' hpending')
        ((uniform' hprimed').balanced x hmem') (filledBy_totalContext r' env' current' fill'))
    · rw [totalContext_of_primed hprimed, totalContext_of_primed hprimed'] at same
      have hindex := Env.variableIndex?_of_getElem? nodup hx
      have hindex' := Env.variableIndex?_of_getElem? nodup' hx'
      have hcurrent := (same x).1
      have hnext := (same x).2
      rw [Context.value?_ofStep hindex, Context.value?_ofStep hindex'] at hcurrent
      rw [Context.nextValue?_ofStep hindex, Context.nextValue?_ofStep hindex'] at hnext
      exact ⟨v, hcurrent ▸ hv, hnext ▸ hvalue⟩

end Relation

end ActionSystem
