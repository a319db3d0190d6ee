import ActionSystem.Proofs.Solve.Admission
import ActionSystem.Proofs.Solve.Prospect

/-!
# Foresight

Inference answers what the prospects of a variable foresee (`Unknown.foreseen`). What is
known of the context is that the variable is pending in it and that nothing is pending in the state
that is not solved for.
-/

namespace ActionSystem

/-! ## Pending variables and references -/

namespace Form

def solved (form : Form) (c : Context) : Slots :=
  match form with
  | .primed => c.next
  | .unprimed => c.current

def given (form : Form) (c : Context) : Slots :=
  match form with
  | .primed => c.current
  | .unprimed => c.next

end Form

namespace Env

variable {env : Env} {x y : String} {i : Nat}

theorem eq_of_variableIndex? (hx : env.variableIndex? x = some i)
    (hy : env.variableIndex? y = some i) : x = y := by
  obtain ⟨_, hx, -⟩ := List.findIdx?_eq_some_iff_getElem.mp hx
  obtain ⟨_, hy, -⟩ := List.findIdx?_eq_some_iff_getElem.mp hy
  exact (eq_of_beq hx).symm.trans (eq_of_beq hy)

end Env

namespace Unknown

variable {u : Unknown} {outer c : Context} {p : Nat} {bound : List String} {e : Expr}

/-- The variable declared at `p` is pending below binders of the names `bound`, and nothing is
pending in the state that is given. -/
structure Faces (u : Unknown) (p : Nat) (bound : List String) (c : Context) : Prop where
  index : c.env.variableIndex? u.name = some p
  taken : ∀ y, c.isLocal y = bound.contains y
  pending : (u.form.solved c).isPending p = true
  given : ∀ i, (u.form.given c).isPending i = false

theorem Faces.bind (h : u.Faces p bound c) (x : String) (v : Value) :
    u.Faces p (x :: bound) (c.bind x v) where
  index := h.index
  taken := by
    intro y
    rw [Context.isLocal_bind, h.taken, List.contains_cons]
  pending := by
    have hp := h.pending
    unfold Form.solved at hp ⊢
    split at hp <;> exact hp
  given := by
    have hg := h.given
    unfold Form.given at hg ⊢
    split at hg <;> exact hg

theorem solved_bind (form : Form) (c : Context) (x : String) (v : Value) :
    form.solved (c.bind x v) = form.solved c := by
  cases form <;> rfl

theorem Faces.pendingIn_given (h : u.Faces p bound c) (y : String) :
    c.pendingIn (u.form.given c) y = false := Context.pendingIn_eq_false fun i _ => h.given i

theorem Faces.pendingIn_solved (h : u.Faces p bound c) :
    c.pendingIn (u.form.solved c) u.name = true := by
  unfold Context.pendingIn
  rw [h.index]
  exact h.pending

theorem Faces.seeks_iff (h : u.Faces p bound c) :
    e.seeks c.env.vars u.form p bound = true ↔
      ∃ r ∈ e.references bound, u.name ∈ r.sought u.form := by
  rw [Expr.seeks_iff, Expr.soughtIn, List.mem_filterMap]
  simp only [List.mem_flatMap]
  constructor
  · intro hex
    obtain ⟨y, hy, hp⟩ := hex
    exact Env.eq_of_variableIndex? hp h.index ▸ hy
  · intro hmem
    exact ⟨u.name, hmem, h.index⟩

theorem Faces.isVariable_eq (h : u.Faces p bound c) :
    e.isVariable c.env.vars u.form p bound = u.isSide c e := by
  have hposition : ∀ y, Expr.position? c.env.vars y = some p ↔ y = u.name := fun y =>
    ⟨fun hy => Env.eq_of_variableIndex? hy h.index, fun hy => hy ▸ h.index⟩
  unfold Expr.isVariable
  cases e with
  | primed s y =>
    show decide ((if u.form = .primed then Expr.position? c.env.vars y else none) = some p) =
      (decide (u.form = .primed) && decide (y = u.name))
    by_cases hform : u.form = .primed
    · simp [hform, hposition]
    · simp [hform]
  | name s y =>
    show decide ((if _ then Expr.position? c.env.vars y else none) = some p) =
      (decide (u.form = .unprimed) && decide (y = u.name) && !c.isLocal y)
    rw [h.taken]
    by_cases hform : u.form = .unprimed
    · by_cases hb : y ∈ bound
      · simp [hb]
      · simp [hform, hb, hposition]
    · simp [hform]
  | _ => rfl

theorem Faces.isLocal_of_mem (h : u.Faces p bound c) : ∀ y ∈ bound, c.isLocal y = true := by
  intro y hy
  rw [h.taken]
  exact List.contains_iff_mem.mpr hy

theorem Faces.settles (h : u.Faces p bound c) {r : Reference}
    (settled : ∀ y ∈ r.sought u.form, c.pendingIn (u.form.solved c) y = false) :
    c.settles r = true := by
  have given := h.pendingIn_given
  cases hform : u.form with
  | primed =>
    rw [hform] at settled given
    have hcurrent : ∀ y, c.pendingIn c.current y = false := given
    have hnext : ∀ y ∈ r.sought .primed, c.pendingIn c.next y = false := settled
    cases r with
    | name y => simp [Context.settles, hcurrent]
    | primed y => simp [Context.settles, hnext y (List.mem_singleton_self y)]
    | frame xs taken =>
      rw [Context.settles, List.all_eq_true]
      intro y hy
      simp [hcurrent, hnext y hy]
  | unprimed =>
    rw [hform] at settled given
    have hcurrent : ∀ y ∈ r.sought .unprimed, c.pendingIn c.current y = false := settled
    have hnext : ∀ y, c.pendingIn c.next y = false := given
    cases r with
    | name y => simp [Context.settles, hcurrent y (List.mem_singleton_self y)]
    | primed y => simp [Context.settles, hnext]
    | frame xs taken =>
      rw [Context.settles, List.all_eq_true]
      intro y hy
      simp [hcurrent y hy, hnext]

/-- An expression in which no variable is pending can be evaluated. -/
theorem Faces.resolves (h : u.Faces p bound c)
    (settled : ∀ i ∈ e.soughtIn c.env.vars u.form bound, (u.form.solved c).isPending i = false) :
    c.resolves e [] = true := by
  rw [← Context.resolves_append h.isLocal_of_mem, Context.resolves, List.all_eq_true]
  intro r hr
  refine h.settles fun y hy => Context.pendingIn_eq_false fun i hi => ?_
  exact settled i (List.mem_filterMap.mpr ⟨y, List.mem_flatMap.mpr ⟨r, hr, hy⟩, hi⟩)

-- What an expression refers to by name is not taken by the binders around it.
theorem Faces.isLocal_of_name_mem (h : u.Faces p bound c) {y : String}
    (hy : .name y ∈ e.references bound) : c.isLocal y = false := by
  rw [h.taken]
  simpa using Expr.not_mem_of_name_mem hy

theorem Faces.isAmong_iff (h : u.Faces p bound c) {r : Reference} (hr : r ∈ e.references bound) :
    u.isAmong c r = true ↔ u.name ∈ r.sought u.form := by
  cases r with
  | name y =>
    have hlocal := h.isLocal_of_name_mem hr
    cases hform : u.form <;> simp [isAmong, Reference.sought, hform, hlocal, eq_comm]
  | primed y => cases hform : u.form <;> simp [isAmong, Reference.sought, hform, eq_comm]
  | frame xs taken => cases hform : u.form <;> simp [isAmong, Reference.sought]

theorem Faces.isMentioned_eq (h : u.Faces p bound c) :
    u.isMentioned c e = e.seeks c.env.vars u.form p bound := by
  rw [Bool.eq_iff_iff, ← isMentioned_append h.isLocal_of_mem, h.seeks_iff, List.any_eq_true]
  exact exists_congr fun r => and_congr_right fun hr => h.isAmong_iff hr

theorem Faces.resolves_eq_false (h : u.Faces p bound c)
    (seeks : e.seeks c.env.vars u.form p bound = true) : c.resolves e [] = false := by
  obtain ⟨r, hr, hmem⟩ := h.seeks_iff.mp seeks
  have pending := h.pendingIn_solved
  rw [← Context.resolves_append h.isLocal_of_mem, Context.resolves_eq_false_iff]
  refine ⟨r, hr, ?_⟩
  cases hform : u.form with
  | primed =>
    rw [hform] at hmem pending
    have hnext : c.pendingIn c.next u.name = true := pending
    cases r with
    | name y => cases hmem
    | primed y =>
      rw [← List.mem_singleton.mp hmem]
      simp [Context.settles, hnext]
    | frame xs taken =>
      rw [Context.settles, List.all_eq_false]
      exact ⟨u.name, hmem, by simp [hnext]⟩
  | unprimed =>
    rw [hform] at hmem pending
    have hcurrent : c.pendingIn c.current u.name = true := pending
    cases r with
    | name y =>
      have hlocal := h.isLocal_of_name_mem hr
      rw [← List.mem_singleton.mp hmem] at hlocal ⊢
      simp [Context.settles, hlocal, hcurrent]
    | primed y => cases hmem
    | frame xs taken =>
      rw [Context.settles, List.all_eq_false]
      exact ⟨u.name, hmem, by simp [hcurrent]⟩

/-! ## What is known -/

def Known (u : Unknown) (p : Nat) (needs : List Dependency) (c : Context) : Prop :=
  ∀ w, Expr.DependsOn needs p w → (u.form.solved c).isPending w = false

variable {deps : List Dependency} {context : List Nat}

theorem known_bind (x : String) (v : Value) : u.Known p deps (c.bind x v) ↔ u.Known p deps c := by
  unfold Known
  rw [solved_bind]

-- What is referred to besides the variable itself can be evaluated once it is known.
theorem Faces.resolves_of_known (h : u.Faces p bound c)
    (free : e.seeks c.env.vars u.form p bound = false)
    (needed : ∀ w ∈ e.soughtIn c.env.vars u.form bound, (p, w) ∈ deps)
    (known : u.Known p deps c) : c.resolves e [] = true := by
  refine h.resolves fun w hw => known w ⟨needed w hw, fun heq => ?_⟩
  rw [← Bool.not_eq_true, Expr.seeks_iff] at free
  exact free (heq ▸ hw)

-- A side that cannot be read off is not foreseen to be a source.
theorem Faces.isSource_eq_false (h : u.Faces p bound c) {side other : Expr}
    (sub : Expr.neededBy c.env.vars u.form bound context side other ⊆ deps)
    (known : u.Known p deps c) (unread : u.fromSide c side other = none) :
    side.isSource c.env.vars u.form p bound other = false := by
  by_contra hsource
  rw [Bool.not_eq_false, Expr.isSource, Bool.and_eq_true, Bool.not_eq_true'] at hsource
  obtain ⟨hvariable, hfree⟩ := hsource
  have hresolves : c.resolves other [] = true :=
    h.resolves_of_known hfree (fun w hw => sub (Expr.mem_neededBy hvariable (.inl hw))) known
  have hside : u.isSide c side = true := h.isVariable_eq ▸ hvariable
  rw [fromSide, if_pos ((Bool.and_eq_true _ _).mpr ⟨hside, hresolves⟩)] at unread
  cases unread

theorem Faces.isSource_of_fromSide (h : u.Faces p bound c) {side other : Expr}
    {found : Except EvalError Value} (read : u.fromSide c side other = some found) :
    side.isSource c.env.vars u.form p bound other = true := by
  obtain ⟨hside, hresolves, -⟩ := fromSide_eq_some read
  have hfree : other.seeks c.env.vars u.form p bound = false := by
    rw [← Bool.not_eq_true]
    intro hseeks
    rw [h.resolves_eq_false hseeks] at hresolves
    cases hresolves
  rw [Expr.isSource, h.isVariable_eq, hside, hfree]
  rfl

/-! ## Sites of inference -/

/-- An expression where inference meets it: the names in `bound` are taken, and the premises,
domains and local definitions around it refer to the variables in `context`. -/
structure Site (u : Unknown) (p : Nat) (deps : List Dependency) (e : Expr) (bound : List String)
    (context : List Nat) (c : Context) : Prop where
  faces : u.Faces p bound c
  sub : Expr.needs c.env.vars u.form e bound context ⊆ deps

variable {q body : Expr} {around : List Nat} {bound' : List String} {s : Span} {x : String}
  {a : Prospect} {r : Candidates}

-- That a premise, domain or local definition cannot be evaluated yet is foreseen.
theorem Faces.hangs (h : u.Faces p bound c) (unresolved : ¬ c.resolves q [] = true)
    (free : q.seeks c.env.vars u.form p bound = false)
    (seeks : body.seeks c.env.vars u.form p bound' = true)
    (sub : Expr.needs c.env.vars u.form body bound'
      (q.soughtIn c.env.vars u.form bound ++ context) ⊆ deps)
    (known : u.Known p deps c) : (body.prospect c.env.vars u.form p bound').hangs = true := by
  by_contra hnot
  rw [Bool.not_eq_true] at hnot
  refine unresolved (h.resolves_of_known free (fun w hw => ?_) known)
  exact sub (Expr.mem_needs seeks hnot (List.mem_append_left _ hw))

-- What waits for another expression is foreseen if it is once this one is known, and if it is
-- foreseen otherwise that there is no answer.
theorem Faces.behind (h : u.Faces p bound c)
    (answer : c.resolves q [] = true → a.Allows (u.Known p deps c) r)
    (stuck : ¬ c.resolves q [] = true → r = .constrained)
    (hangs : ¬ c.resolves q [] = true → q.seeks c.env.vars u.form p bound = false →
      u.Known p deps c → a.hangs = true) :
    (a.behind (q.seeks c.env.vars u.form p bound)).Allows (u.Known p deps c) r := by
  by_cases hq : c.resolves q [] = true
  · have hfree : q.seeks c.env.vars u.form p bound = false := by
      rw [← Bool.not_eq_true]
      intro hseeks
      rw [h.resolves_eq_false hseeks] at hq
      cases hq
    rw [hfree]
    exact answer hq
  · rw [stuck hq]
    intro known
    cases hseeks : q.seeks c.env.vars u.form p bound with
    | true => rfl
    | false => exact hangs hq hseeks known

def Foreseen (u : Unknown) (outer : Context) (p : Nat) (deps : List Dependency) (e : Expr) : Prop :=
  ∀ ⦃bound context c r⦄, u.Site p deps e bound context c → u.infer outer e c = .ok r →
    (e.prospect c.env.vars u.form p bound).Allows (u.Known p deps c) r

-- An expression that does not refer to the variable, or is already known, is foreseen to be silent.
theorem foreseen_of_open (h : ∀ ⦃bound context c r⦄, u.Site p deps e bound context c →
      u.Open c e → e.seeks c.env.vars u.form p bound = true → u.infer outer e c = .ok r →
      (e.prospect c.env.vars u.form p bound).Allows (u.Known p deps c) r) :
    u.Foreseen outer p deps e := by
  intro bound context c r site hr
  have hmentioned := site.faces.isMentioned_eq (e := e)
  cases hp : e.seeks c.env.vars u.form p bound with
  | true =>
    have hopen : u.Open c e := ⟨site.faces.resolves_eq_false hp, hmentioned.trans hp⟩
    exact h site hopen hp hr
  | false =>
    rw [Expr.prospect_of_seeks_eq_false hp]
    cases hresolved : c.resolves e [] with
    | true =>
      rw [infer_of_resolves hresolved] at hr
      obtain ⟨b, -, hb⟩ := Result.bind_eq_ok.mp hr
      cases hb
      cases b with
      | true => rfl
      | false => trivial
    | false =>
      rw [infer_of_not_mentioned hresolved (hmentioned.trans hp)] at hr
      cases hr
      rfl

-- What is foreseen of a body holds under each value of the binder.
theorem Foreseen.below (hbody : u.Foreseen outer p deps body) (faces : u.Faces p bound c)
    (sub : Expr.needs c.env.vars u.form body (x :: bound) context ⊆ deps) {v : Value}
    {a : Candidates} (ha : u.infer outer body (c.bind x v) = .ok a) :
    (body.prospect c.env.vars u.form p (x :: bound)).Allows (u.Known p deps c) a := by
  have hallows := hbody ⟨faces.bind x v, sub⟩ ha
  rw [known_bind] at hallows
  exact hallows

/-! ## Soundness of prospects -/

theorem foreseen_eq (l r : Expr) : u.Foreseen outer p deps (.binary s .eq l r) := by
  refine foreseen_of_open fun bound context c a site hopen hp h => ?_
  obtain ⟨subl, subr⟩ := List.append_subset.mp site.sub
  show Prospect.Allows (if _ then _ else _) _ _
  rw [if_pos hp]
  rw [infer_eq hopen, fromEquation] at h
  cases hleft : u.fromSide c l r with
  | some found =>
    simp only [hleft] at h
    obtain ⟨v, -, hv⟩ := Result.bind_eq_ok.mp h
    cases hv
    simp [Prospect.Allows, Prospect.ofSource, site.faces.isSource_of_fromSide hleft]
  | none =>
    simp only [hleft] at h
    cases hright : u.fromSide c r l with
    | some found =>
      simp only [hright] at h
      obtain ⟨v, -, hv⟩ := Result.bind_eq_ok.mp h
      cases hv
      simp [Prospect.Allows, Prospect.ofSource, site.faces.isSource_of_fromSide hright]
    | none =>
      simp only [hright] at h
      cases h
      intro known
      simp [Prospect.ofSource, site.faces.isSource_eq_false subl known hleft,
        site.faces.isSource_eq_false subr known hright]

theorem foreseen_mem (l r : Expr) : u.Foreseen outer p deps (.binary s .mem l r) := by
  refine foreseen_of_open fun bound context c a site hopen hp h => ?_
  show Prospect.Allows (if _ then _ else _) _ _
  rw [if_pos hp]
  rw [infer_mem hopen, fromMembership] at h
  cases hleft : u.fromSide c l r with
  | some found =>
    simp only [hleft] at h
    obtain ⟨v, -, hv⟩ := Result.bind_eq_ok.mp h
    obtain ⟨vs, -, hvs⟩ := Result.bind_eq_ok.mp hv
    cases hvs
    exact site.faces.isSource_of_fromSide hleft
  | none =>
    simp only [hleft] at h
    cases h
    intro known
    simp [Prospect.ofSource, site.faces.isSource_eq_false site.sub known hleft]

theorem foreseen_unchanged (xs : List String) : u.Foreseen outer p deps (.unchanged s xs) := by
  refine foreseen_of_open fun bound context c r site hopen hp h => ?_
  rw [infer_unchanged hopen] at h
  show Prospect.Allows (if _ then _ else _) _ _
  rw [if_pos hp]
  show Prospect.Allows (.ofSource (decide (u.form = .primed))) _ _
  by_cases hform : u.form = .primed
  · obtain ⟨r', hr', hmem⟩ := site.faces.seeks_iff.mp hp
    rw [List.mem_singleton.mp hr', hform] at hmem
    rw [if_pos (by simpa [hform, Reference.sought] using hmem)] at h
    obtain ⟨v, -, h⟩ := Result.bind_eq_ok.mp h
    cases h
    exact decide_eq_true hform
  · rw [if_neg (by simp [hform])] at h
    cases h
    intro _
    simp [Prospect.ofSource, hform]

theorem foreseen_of_isMute (mute : isMute e = true) : u.Foreseen outer p deps e := by
  refine foreseen_of_open fun bound context c r site hopen hp h => ?_
  rw [infer_of_isMute hopen mute] at h
  cases h
  unfold Expr.prospect
  rw [if_pos hp]
  split
  all_goals first | exact fun _ => rfl | simp [isMute] at mute

section

variable {l m y n d v : Expr}

theorem Foreseen.and (hl : u.Foreseen outer p deps l) (hm : u.Foreseen outer p deps m) :
    u.Foreseen outer p deps (.logical s .and l m) := by
  refine foreseen_of_open fun bound context c r site hopen hp h => ?_
  obtain ⟨subl, subm⟩ := List.append_subset.mp site.sub
  rw [infer_and hopen] at h
  obtain ⟨a, ha, h⟩ := Result.bind_eq_ok.mp h
  show Prospect.Allows (if _ then _ else _) _ _
  rw [if_pos hp]
  by_cases hdis : a = .disabled
  · rw [if_pos hdis, Result.pure_eq_ok] at h
    exact h ▸ trivial
  · rw [if_neg hdis] at h
    obtain ⟨b, hb, h⟩ := Result.bind_eq_ok.mp h
    cases h
    have hleft := hl ⟨site.faces, subl⟩ ha
    have hright := hm ⟨site.faces, subm⟩ hb
    exact hleft.both hright

theorem Foreseen.or (hl : u.Foreseen outer p deps l) (hm : u.Foreseen outer p deps m) :
    u.Foreseen outer p deps (.logical s .or l m) := by
  refine foreseen_of_open fun bound context c r site hopen hp h => ?_
  obtain ⟨subl, subm⟩ := List.append_subset.mp site.sub
  rw [infer_or hopen] at h
  obtain ⟨a, ha, h⟩ := Result.bind_eq_ok.mp h
  obtain ⟨b, hb, h⟩ := Result.bind_eq_ok.mp h
  have hleft := hl ⟨site.faces, subl⟩ ha
  have hright := hm ⟨site.faces, subm⟩ hb
  show Prospect.Allows (if _ then _ else _) _ _
  rw [if_pos hp]
  exact Prospect.allows_either_of_disjoin hleft hright h

theorem Foreseen.implies (hm : u.Foreseen outer p deps m) :
    u.Foreseen outer p deps (.logical s .implies l m) := by
  refine foreseen_of_open fun bound context c r site hopen hp h => ?_
  rw [infer_implies hopen] at h
  show Prospect.Allows (if _ then _ else _) _ _
  rw [if_pos hp]
  refine site.faces.behind (fun hl => ?_) (fun hl => ?_) fun hl free known => ?_
  · rw [if_pos hl] at h
    obtain ⟨b, -, h⟩ := Result.bind_eq_ok.mp h
    cases b with
    | true => exact (hm ⟨site.faces, site.sub⟩ h).mono id (fun _ => rfl) id
    | false =>
      cases h
      rfl
  · rw [if_neg hl] at h
    cases h
    rfl
  · rw [Expr.seeks_append rfl, free, Bool.false_or] at hp
    exact site.faces.hangs hl free hp site.sub known

theorem Foreseen.ite (hy : u.Foreseen outer p deps y) (hn : u.Foreseen outer p deps n) :
    u.Foreseen outer p deps (.ite s q y n) := by
  refine foreseen_of_open fun bound context c r site hopen hp h => ?_
  obtain ⟨-, sub⟩ := List.append_subset.mp site.sub
  obtain ⟨suby, subn⟩ := List.append_subset.mp sub
  rw [infer_ite hopen] at h
  show Prospect.Allows (if _ then _ else _) _ _
  rw [if_pos hp]
  by_cases hq : c.resolves q [] = true
  · rw [if_pos hq] at h
    obtain ⟨b, -, h⟩ := Result.bind_eq_ok.mp h
    cases b with
    | true => exact (hy ⟨site.faces, suby⟩ h).either_left
    | false => exact (hn ⟨site.faces, subn⟩ h).either_right
  · rw [if_neg hq] at h
    obtain ⟨a, ha, h⟩ := Result.bind_eq_ok.mp h
    obtain ⟨b, hb, h⟩ := Result.bind_eq_ok.mp h
    have yes := hy ⟨site.faces, suby⟩ ha
    have no := hn ⟨site.faces, subn⟩ hb
    exact Prospect.allows_either_of_disjoin yes no h

theorem Foreseen.any (hbody : u.Foreseen outer p deps body) :
    u.Foreseen outer p deps (.bind s .any x d body) := by
  refine foreseen_of_open fun bound context c r site hopen hp h => ?_
  rw [infer_any hopen] at h
  show Prospect.Allows (if _ then _ else _) _ _
  rw [if_pos hp]
  refine site.faces.behind (fun hd => ?_) (fun hd => ?_) fun hd free known => ?_
  · rw [if_pos hd] at h
    obtain ⟨items, -, h⟩ := Result.bind_eq_ok.mp h
    obtain ⟨cs, hcs, h⟩ := Result.bind_eq_ok.mp h
    have : Nonempty Candidates := ⟨.constrained⟩
    obtain ⟨f, hf, rfl⟩ := Result.exists_map_of_mapM hcs
    refine Prospect.allows_of_disjoin (fun a ha => ?_) h
    obtain ⟨v, hv, rfl⟩ := List.mem_map.mp ha
    exact hbody.below site.faces site.sub (hf v hv)
  · rw [if_neg hd] at h
    cases h
    rfl
  · rw [Expr.seeks_append rfl, free, Bool.false_or] at hp
    have hhangs := site.faces.hangs hd free hp site.sub known
    simp [Prospect.among, hhangs]

theorem Foreseen.all (hbody : u.Foreseen outer p deps body) :
    u.Foreseen outer p deps (.bind s .all x d body) := by
  refine foreseen_of_open fun bound context c r site hopen hp h => ?_
  rw [infer_all hopen] at h
  show Prospect.Allows (if _ then _ else _) _ _
  rw [if_pos hp]
  refine site.faces.behind (fun hd => ?_) (fun hd => ?_) fun hd free known => ?_
  · rw [if_pos hd] at h
    obtain ⟨items, -, h⟩ := Result.bind_eq_ok.mp h
    rcases conjoinAll_eq_ok h with ⟨rfl, -⟩ | ⟨f, hf, rfl⟩
    · trivial
    · have hnothing : { body.prospect c.env.vars u.form p (x :: bound) with skips := true }.Allows
          (u.Known p deps c) .unmentioned := rfl
      refine hnothing.foldl_conjoin fun a ha => ?_
      obtain ⟨v, hv, rfl⟩ := List.mem_map.mp ha
      exact hbody.below site.faces site.sub (hf v hv)
  · rw [if_neg hd] at h
    cases h
    rfl
  · rw [Expr.seeks_append rfl, free, Bool.false_or] at hp
    exact site.faces.hangs hd free hp site.sub known

theorem Foreseen.letIn (hbody : u.Foreseen outer p deps body) :
    u.Foreseen outer p deps (.letIn s x v body) := by
  refine foreseen_of_open fun bound context c r site hopen hp h => ?_
  rw [infer_letIn hopen] at h
  show Prospect.Allows (if _ then _ else _) _ _
  rw [if_pos hp]
  refine site.faces.behind (fun hv => ?_) (fun hv => ?_) fun hv free known => ?_
  · rw [if_pos hv] at h
    obtain ⟨w, -, h⟩ := Result.bind_eq_ok.mp h
    exact hbody.below site.faces site.sub h
  · rw [if_neg hv] at h
    cases h
    rfl
  · rw [Expr.seeks_append rfl, free, Bool.false_or] at hp
    exact site.faces.hangs hv free hp site.sub known

end

/-- Inference answers what the prospects of the variable foresee. -/
theorem foreseen (e : Expr) : u.Foreseen outer p deps e := by
  induction e using Expr.of_parts with
  | step e ih =>
    cases e with
    | logical s op l m =>
      have hl := ih l (by simp [Expr.parts])
      have hm := ih m (by simp [Expr.parts])
      cases op with
      | and => exact hl.and hm
      | or => exact hl.or hm
      | implies => exact hm.implies
    | ite s q y n => exact (ih y (by simp [Expr.parts])).ite (ih n (by simp [Expr.parts]))
    | bind s b x d body =>
      have hbody := ih body (by simp [Expr.parts])
      cases b with
      | any => exact hbody.any
      | all => exact hbody.all
      | _ => exact foreseen_of_isMute rfl
    | letIn s x v body => exact (ih body (by simp [Expr.parts])).letIn
    | unchanged s xs => exact foreseen_unchanged xs
    | binary s op l r =>
      cases op with
      | eq => exact foreseen_eq l r
      | mem => exact foreseen_mem l r
      | _ => exact foreseen_of_isMute rfl
    | _ => exact foreseen_of_isMute rfl

end Unknown

end ActionSystem
