import ActionSystem.Proofs.Solve.Admission

/-!
# Relevance of an unknown

An inference may find that a condition does not look at the unknown. In an action that treats the
unknown alike in all alternatives of every choice, the condition then has the same truth value
whatever the unknown is, as long as no condition of an `IF` asks for the unknown.
-/

namespace ActionSystem

namespace Context

variable {c c' : Context} {x : String}

structure SameBut (x : String) (c c' : Context) : Prop where
  value? : ∀ y, c.value? y = c'.value? y
  nextValue? : ∀ y, y ≠ x → c.nextValue? y = c'.nextValue? y

theorem SameBut.bind (h : c.SameBut x c') (y : String) (v : Value) :
    (c.bind y v).SameBut x (c'.bind y v) :=
  ⟨fun z => value?_bind_congr (h.value? z) y v, h.nextValue?⟩

-- A position in the next state is read through the name that is declared there.
theorem nextValue?_ofStep_congr {env : Env} {current next next' : List Value} {p : Nat} {y : String}
    (same : ∀ i, i ≠ p → next[i]? = next'[i]?) (hy : env.variableIndex? y ≠ some p) :
    (ofStep env current next).nextValue? y = (ofStep env current next').nextValue? y := by
  change (env.variableIndex? y).bind (Slots.total next).get? =
    (env.variableIndex? y).bind (Slots.total next').get?
  cases hj : env.variableIndex? y with
  | none => rfl
  | some j => exact same j fun heq => hy (heq ▸ hj)

theorem variableIndex?_ne {env : Env} {p : Nat} {y : String} (hx : env.vars[p]? = some x)
    (hne : y ≠ x) : env.variableIndex? y ≠ some p := by
  intro hy
  obtain ⟨hlt, hp, -⟩ := List.findIdx?_eq_some_iff_getElem.mp hy
  rw [List.getElem?_eq_getElem hlt] at hx
  exact hne ((of_decide_eq_true hp).symm.trans (Option.some.inj hx))

theorem sameBut_ofStep {env : Env} {current next next' : List Value} {p : Nat}
    (hx : env.vars[p]? = some x) (same : ∀ i, i ≠ p → next[i]? = next'[i]?) :
    (ofStep env current next).SameBut x (ofStep env current next') :=
  ⟨fun _ => rfl, fun _ hne => nextValue?_ofStep_congr same (variableIndex?_ne hx hne)⟩

-- What does not mention the variable in the next state does not see the difference.
theorem SameBut.eval (h : c.SameBut x c') {e : Expr} (free : x ∉ e.namesIn .primed []) :
    e.eval c = e.eval c' := by
  have hbound : ∀ y ∈ [], c.value? y = c'.value? y := by simp
  refine Expr.eval_congr hbound fun r hr => ?_
  have hx : x ∉ r.names .primed := fun hx => free (Expr.mem_namesIn.mpr ⟨r, hr, hx⟩)
  cases r with
  | name y => exact h.value? y
  | primed y =>
    refine h.nextValue? y fun heq => hx ?_
    rw [heq]
    exact List.mem_singleton_self x
  | frame ys bound =>
    intro y hy
    exact ⟨fun _ => h.value? y, h.nextValue? y fun heq => hx (heq ▸ hy)⟩

end Context

namespace Expr

variable {x : String} {e : Expr}

/-- The condition of some `IF` that the truth of the expression depends on mentions the variable in
the next state. -/
def asksNext (x : String) : Expr → Bool
  | logical _ _ l r => asksNext x l || asksNext x r
  | ite _ p y n => (p.namesIn .primed []).contains x || (asksNext x y || asksNext x n)
  | bind _ .any _ _ body | bind _ .all _ _ body | letIn _ _ _ body => asksNext x body
  | _ => false
termination_by structural e => e

theorem asksNext_of_branch {p : Expr} (hp : p ∈ e.branches) (h : e.asksNext x = false) :
    p.asksNext x = false := by
  unfold branches at hp
  split at hp
  · simp only [asksNext, Bool.or_eq_false_iff] at h
    simp only [List.mem_cons, List.not_mem_nil, or_false] at hp
    rcases hp with rfl | rfl
    · exact h.1
    · exact h.2
  · simp only [asksNext, Bool.or_eq_false_iff] at h
    simp only [List.mem_cons, List.not_mem_nil, or_false] at hp
    rcases hp with rfl | rfl
    · exact h.2.1
    · exact h.2.2
  · exact List.mem_singleton.mp hp ▸ h
  · exact List.mem_singleton.mp hp ▸ h
  · exact List.mem_singleton.mp hp ▸ h
  · cases hp

/-- Every choice treats the variable alike in all alternatives, and no condition of an `IF` asks for
it in the next state. -/
structure Impartial (x : String) (e : Expr) : Prop where
  balanced : e.isBalanced x = true
  unasked : e.asksNext x = false

theorem Impartial.branch {p : Expr} (h : e.Impartial x) (hp : p ∈ e.branches) : p.Impartial x :=
  ⟨isBalanced_of_branch hp h.balanced, asksNext_of_branch hp h.unasked⟩

end Expr

namespace Unknown

variable {u : Unknown} {outer c c' c'' : Context} {e : Expr} {r : Candidates}

-- No alternative of a choice that does not look at the unknown mentions it.
theorem Infers.not_mem_of_alternative (h : u.Infers outer e c .unmentioned)
    (hform : u.form = .primed) (pending : c.pendingIn c.next u.name = true)
    (balanced : e.isBalanced u.name = true) {p : Expr} (hp : p ∈ e.alternatives) :
    u.name ∉ p.namesIn .primed [] := fun hx =>
  h.ne_unmentioned hform pending (Expr.settlesNext_of_mentioned balanced hp hx) rfl

/-- What does not look at the unknown has the same value whatever the unknown is. -/
theorem Infers.eval_eq_of_unmentioned (h : u.Infers outer e c r) (hr : r = .unmentioned)
    (hform : u.form = .primed) (pending : c.pendingIn c.next u.name = true)
    (impartial : e.Impartial u.name) (fill : c.FilledBy c') (fill' : c.FilledBy c'')
    (same : c'.SameBut u.name c'') : e.eval c' = e.eval c'' := by
  induction h generalizing c' c'' with
  | truth resolved known => rw [← fill.eval resolved, fill'.eval resolved]
  | unmentioned free =>
    refine same.eval fun hx => ?_
    rw [(isMentioned_iff hform).mpr hx] at free
    cases free
  | constrained unsettled => cases hr
  | equation unsettled read => exact absurd hr (fromEquation_ne_unmentioned read)
  | membership unsettled read => exact absurd hr (fromMembership_ne_unmentioned read)
  | frame unsettled primed listed kept => cases hr
  | @both s l m c a b unsettled left right ihl ihr =>
    obtain ⟨ha, hb⟩ := Candidates.conjoin_eq_unmentioned hr
    have hl := ihl ha pending (impartial.branch (by simp [Expr.branches])) fill fill' same
    have hm := ihr hb pending (impartial.branch (by simp [Expr.branches])) fill fill' same
    simp only [Expr.eval, hl, hm]
  | leftDisabled unsettled left ihl => cases hr
  | @either s l m c a b d unsettled left right joined ihl ihr =>
    subst hr
    have hfree := fun p hp => (Infers.either unsettled left right joined).not_mem_of_alternative
      hform pending impartial.balanced (p := p) hp
    have hl := same.eval (hfree l (by simp [Expr.alternatives]))
    have hm := same.eval (hfree m (by simp [Expr.alternatives]))
    simp only [Expr.eval, hl, hm]
  | @conclusion s l m c a unsettled resolved known right ih =>
    have hl : l.eval c' = l.eval c'' := (fill.eval resolved).symm.trans (fill'.eval resolved)
    have hm := ih hr pending (impartial.branch (by simp [Expr.branches])) fill fill' same
    simp only [Expr.eval, hl, hm]
  | @vacuous s l m c unsettled resolved known =>
    rw [Expr.holds_eq_ok] at known
    have hl : l.eval c' = .ok (.bool false) := (fill.eval resolved).symm.trans known
    have hl' : l.eval c'' = .ok (.bool false) := (fill'.eval resolved).symm.trans known
    have hfalse : ∀ {b : Context}, l.eval b = .ok (.bool false) →
        (Expr.logical s .implies l m).eval b = .ok (.bool true) := fun hb =>
      Expr.eval_logical_eq_ok.mpr ⟨false, Expr.holds_eq_ok.mpr hb, .inl rfl⟩
    rw [hfalse hl, hfalse hl']
  | @branch s p y n c a b unsettled resolved known taken ih =>
    have hp : p.eval c' = p.eval c'' := (fill.eval resolved).symm.trans (fill'.eval resolved)
    have hp' : p.eval c'' = .ok (.bool b) := by
      rw [← fill'.eval resolved]
      exact Expr.holds_eq_ok.mp known
    have hmem : (if b then y else n) ∈ (Expr.ite s p y n).branches := by
      cases b <;> simp [Expr.branches]
    have htaken := ih hr pending (impartial.branch hmem) fill fill' same
    simp only [Expr.eval, hp, hp', bind, Except.bind]
    cases b <;> exact htaken
  | @branches s p y n c a b d unsettled yes no joined ihy ihn =>
    subst hr
    have hfree := fun q hq => (Infers.branches unsettled yes no joined).not_mem_of_alternative
      hform pending impartial.balanced (p := q) hq
    have hasks := impartial.unasked
    simp only [Expr.asksNext, Bool.or_eq_false_iff] at hasks
    have hp : p.eval c' = p.eval c'' := same.eval (by simpa using hasks.1)
    have hy := same.eval (hfree y (by simp [Expr.alternatives]))
    have hn := same.eval (hfree n (by simp [Expr.alternatives]))
    simp only [Expr.eval, hp, hy, hn]
  | @any s x d body c items f a unsettled resolved ranges each joined ih =>
    subst hr
    have hfree := (Infers.any unsettled resolved ranges each joined).not_mem_of_alternative
      hform pending impartial.balanced (p := body) (by simp [Expr.alternatives])
    have hd : d.eval c' = d.eval c'' := (fill.eval resolved).symm.trans (fill'.eval resolved)
    have hbody : ∀ v, body.eval (c'.bind x v) = body.eval (c''.bind x v) :=
      fun v => (same.bind x v).eval hfree
    simp only [Expr.eval, hd, hbody]
  | @all s x d body c items f unsettled resolved ranges each ih =>
    obtain ⟨-, hitems⟩ := Candidates.foldl_conjoin_eq_unmentioned hr
    have hbody : ∀ v ∈ items, body.holds (c'.bind x v) = body.holds (c''.bind x v) := by
      intro v hv
      unfold Expr.holds
      rw [ih v hv (hitems _ (List.mem_map_of_mem hv)) pending
        (impartial.branch (by simp [Expr.branches])) (fill.bind x v) (fill'.bind x v)
        (same.bind x v)]
    rw [Expr.eval_all ((fill.domain resolved).symm.trans ranges),
      Expr.eval_all ((fill'.domain resolved).symm.trans ranges), Result.allM_congr hbody]
  | oneDisabled unsettled resolved ranges mem one ih => cases hr
  | @definition s x v body c w a unsettled resolved known inner ih =>
    have hv : v.eval c' = .ok w := (fill.eval resolved).symm.trans known
    have hv' : v.eval c'' = .ok w := (fill'.eval resolved).symm.trans known
    have hbody := ih hr pending (impartial.branch (by simp [Expr.branches]))
      (fill.bind x w) (fill'.bind x w) (same.bind x w)
    simp only [Expr.eval, hv, hv', bind, Except.bind, hbody]

end Unknown

end ActionSystem
