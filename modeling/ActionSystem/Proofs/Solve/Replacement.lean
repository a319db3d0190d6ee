import ActionSystem.Proofs.Eval.Replacement
import ActionSystem.Proofs.Solve.Combination
import ActionSystem.Proofs.Solve.Enumeration

/-!
# Relations with other parts

A part of a relation may be replaced by another one that evaluates to the same, refers to the same
pending variables and gives candidates that say the same. The relation keeps its solutions, as far
as its variables are solved for in the same order.
-/

namespace ActionSystem

open Result (Matches)

/-! ## Contexts around and below -/

namespace Context

variable {outer c : Context} {bound : List String} {x : String} {v : Value}

structure Around (outer c : Context) : Prop where
  env : c.env = outer.env
  current : c.current = outer.current
  next : c.next = outer.next

theorem Around.pendingIn_current (h : outer.Around c)
    (given : ∀ i, outer.current.isPending i = false) : c.pendingIn c.current x = false :=
  pendingIn_eq_false fun i _ => h.current ▸ given i

theorem Around.bind (h : outer.Around c) (x : String) (v : Value) : outer.Around (c.bind x v) :=
  ⟨h.env, h.current, h.next⟩

structure Below (outer : Context) (bound : List String) (c : Context) : Prop
    extends outer.Around c where
  taken : ∀ y, c.isLocal y = bound.contains y

theorem Below.bind (h : outer.Below bound c) (x : String) (v : Value) :
    outer.Below (x :: bound) (c.bind x v) where
  toAround := h.toAround.bind x v
  taken y := by rw [isLocal_bind, h.taken, List.contains_cons]

theorem below_self (h : ∀ y, outer.isLocal y = false) : outer.Below [] outer where
  env := rfl
  current := rfl
  next := rfl
  taken := h

end Context

namespace Unknown

variable {firm : Prop} {u : Unknown} {outer c : Context} {bound : List String} {e e' : Expr}
  {ps : List Expr} {s s' : Span} {x : String}

/-! ## Expressions that cannot be told apart -/

/-- In the contexts around, the expressions refer to the same pending variables and evaluate to the
same, and both or neither are the unknown itself. -/
structure Alike (firm : Prop) (u : Unknown) (outer : Context) (e e' : Expr) : Prop where
  side : ∀ c, u.isSide c e = u.isSide c e'
  pending : ∀ c bound, outer.Around c → ((∃ r ∈ e.references bound, c.settles r = false) ↔
    ∃ r ∈ e'.references bound, c.settles r = false)
  among : ∀ c bound, outer.Around c → ((∃ r ∈ e.references bound, u.isAmong c r = true) ↔
    ∃ r ∈ e'.references bound, u.isAmong c r = true)
  eval : ∀ c, Matches firm Eq (e.eval c) (e'.eval c)

theorem Alike.refl (e : Expr) : u.Alike firm outer e e :=
  ⟨fun _ => rfl, fun _ _ _ => .rfl, fun _ _ _ => .rfl, fun _ => .refl _⟩

theorem Alike.resolves (h : u.Alike firm outer e e') (hc : outer.Around c) :
    c.resolves e bound = c.resolves e' bound := by
  rw [Bool.eq_iff_iff, ← not_iff_not, Bool.not_eq_true, Bool.not_eq_true,
    Context.resolves_eq_false_iff, Context.resolves_eq_false_iff]
  exact h.pending c bound hc

theorem Alike.isMentioned (h : u.Alike firm outer e e') (hc : outer.Around c) :
    u.isMentioned c e = u.isMentioned c e' := by
  rw [Bool.eq_iff_iff, Unknown.isMentioned, Unknown.isMentioned, List.any_eq_true,
    List.any_eq_true]
  exact h.among c [] hc

theorem Alike.open (h : u.Alike firm outer e e') (hc : outer.Around c) (hopen : u.Open c e) :
    u.Open c e' :=
  ⟨h.resolves hc ▸ hopen.unresolved, h.isMentioned hc ▸ hopen.mentioned⟩

theorem isSide_withParts : u.isSide c (e.withParts ps) = u.isSide c e := by
  unfold Expr.withParts
  split <;> rfl

theorem isMute_withParts : isMute (e.withParts ps) = isMute e := by
  unfold Expr.withParts
  split <;> rfl

theorem Alike.withParts (h : e.Paired (fun _ => u.Alike firm outer) ps) :
    u.Alike firm outer e (e.withParts ps) where
  side _ := isSide_withParts.symm
  pending c _ hc := Expr.exists_reference_withParts (h.imp fun _ _ _ hpq => hpq.pending c _ hc)
  among c _ hc := Expr.exists_reference_withParts (h.imp fun _ _ _ hpq => hpq.among c _ hc)
  eval _ := Expr.matches_eval_withParts (h.imp fun _ _ _ hpq => hpq.eval)

/-- Below binders of the names `bound`, the candidates under the expressions say the same. -/
def InfersSame (firm : Prop) (u : Unknown) (outer : Context) (bound : List String)
    (e e' : Expr) : Prop :=
  ∀ c, outer.Below bound c →
    Matches firm Candidates.Same (u.infer outer e c) (u.infer outer e' c)

theorem InfersSame.refl (e : Expr) : u.InfersSame firm outer bound e e :=
  fun _ _ => (Matches.refl _).imp fun _ _ heq => heq ▸ .refl _

theorem matches_conjoinAll {f g : Value → Except EvalError Candidates} {items : List Value}
    {a a' : Candidates} (h : ∀ v ∈ items, Matches firm Candidates.Same (f v) (g v))
    (ha : a.Same a') :
    Matches firm Candidates.Same (conjoinAll f a items) (conjoinAll g a' items) := by
  induction items generalizing a a' with
  | nil => exact .ok ha
  | cons v vs ih =>
    obtain ⟨hv, hvs⟩ := List.forall_mem_cons.mp h
    refine .bind hv fun b b' hb => ?_
    by_cases hdis : b = .disabled
    · rw [if_pos hdis, if_pos (hb.disabled.mp hdis)]
      exact .pure (.refl _)
    · rw [if_neg hdis, if_neg (mt hb.disabled.mpr hdis)]
      exact ih hvs (ha.conjoin hb)

theorem matches_fromEquation {l l' r r' : Expr} (hc : outer.Around c)
    (hl : u.Alike firm outer l l') (hr : u.Alike firm outer r r') :
    Matches firm Candidates.Same (u.fromEquation c l r) (u.fromEquation c l' r') := by
  unfold fromEquation fromSide
  rw [hl.side, hr.side, hl.resolves hc, hr.resolves hc]
  by_cases hleft : (u.isSide c l' && c.resolves r' []) = true
  · rw [if_pos hleft, if_pos hleft]
    exact .bind_eq (hr.eval c) fun v => .pure (.refl _)
  · rw [if_neg hleft, if_neg hleft]
    by_cases hright : (u.isSide c r' && c.resolves l' []) = true
    · rw [if_pos hright, if_pos hright]
      exact .bind_eq (hl.eval c) fun v => .pure (.refl _)
    · rw [if_neg hright, if_neg hright]
      exact .ok (.refl _)

theorem matches_fromMembership {l l' r r' : Expr} (hc : outer.Around c)
    (hl : u.Alike firm outer l l') (hr : u.Alike firm outer r r') :
    Matches firm Candidates.Same (u.fromMembership c l r) (u.fromMembership c l' r') := by
  unfold fromMembership fromSide
  rw [hl.side, hr.resolves hc]
  by_cases hleft : (u.isSide c l' && c.resolves r' []) = true
  · rw [if_pos hleft, if_pos hleft]
    exact .bind_eq (hr.eval c) fun v => .bind_eq (Fault.matches_at _) fun vs => .pure (.refl _)
  · rw [if_neg hleft, if_neg hleft]
    exact .ok (.refl _)

-- What has no pending variable, or not the unknown, says the same anyway.
theorem InfersSame.of_open (alike : u.Alike firm outer e e')
    (h : ∀ c, outer.Below bound c → u.Open c e → u.Open c e' →
      Matches firm Candidates.Same (u.infer outer e c) (u.infer outer e' c)) :
    u.InfersSame firm outer bound e e' := by
  intro c hc
  have around := hc.toAround
  by_cases hresolved : c.resolves e [] = true
  · rw [infer_of_resolves hresolved, infer_of_resolves (alike.resolves around ▸ hresolved)]
    exact .bind_eq (Expr.matches_holds (alike.eval c)) fun b => .pure (.refl _)
  rw [Bool.not_eq_true] at hresolved
  by_cases hmentioned : u.isMentioned c e = true
  · have hopen : u.Open c e := ⟨hresolved, hmentioned⟩
    exact h c hc hopen (alike.open around hopen)
  · rw [Bool.not_eq_true] at hmentioned
    rw [infer_of_not_mentioned hresolved hmentioned,
      infer_of_not_mentioned (alike.resolves around ▸ hresolved)
        (alike.isMentioned around ▸ hmentioned)]
    exact .ok (.refl _)

/-- An inference goes through the parts of an expression, of which only matters what they say. -/
theorem InfersSame.withParts (h : e.Paired (fun _ => u.Alike firm outer) ps)
    (hinfer : e.Paired (fun b => u.InfersSame firm outer (b ++ bound)) ps) :
    u.InfersSame firm outer bound e (e.withParts ps) := by
  refine .of_open (.withParts h) fun c hc hopen hopen' => ?_
  have around := hc.toAround
  by_cases mute : isMute e = true
  · rw [infer_of_isMute hopen mute, infer_of_isMute hopen' (isMute_withParts.trans mute)]
    exact .ok (.refl _)
  cases e with
  | unchanged s xs => exact (Matches.refl _).imp fun _ _ heq => heq ▸ .refl _
  | binary s op l r =>
    obtain ⟨l', r', rfl⟩ := List.length_eq_two.mp h.length
    have hl : u.Alike firm outer l l' := h.rel (i := 0) rfl rfl
    have hr : u.Alike firm outer r r' := h.rel (i := 1) rfl rfl
    simp only [Expr.withParts] at hopen' ⊢
    cases op with
    | eq =>
      rw [infer_eq hopen, infer_eq hopen']
      exact matches_fromEquation around hl hr
    | mem =>
      rw [infer_mem hopen, infer_mem hopen']
      exact matches_fromMembership around hl hr
    | _ => simp [isMute] at mute
  | logical s op l r =>
    obtain ⟨l', r', rfl⟩ := List.length_eq_two.mp h.length
    have hl : u.Alike firm outer l l' := h.rel (i := 0) rfl rfl
    have hil : u.InfersSame firm outer bound l l' := hinfer.rel (i := 0) rfl rfl
    have hir : u.InfersSame firm outer bound r r' := hinfer.rel (i := 1) rfl rfl
    simp only [Expr.withParts] at hopen' ⊢
    cases op with
    | and =>
      rw [infer_and hopen, infer_and hopen']
      refine .bind (hil c hc) fun a a' ha => ?_
      by_cases hdis : a = .disabled
      · rw [if_pos hdis, if_pos (ha.disabled.mp hdis)]
        exact .pure (.refl _)
      · rw [if_neg hdis, if_neg (mt ha.disabled.mpr hdis)]
        exact .bind (hir c hc) fun b b' hb => .pure (ha.conjoin hb)
    | or =>
      rw [infer_or hopen, infer_or hopen']
      refine .bind (hil c hc) fun a a' ha => .bind (hir c hc) fun b b' hb => ?_
      exact matches_disjoin (.cons ha (.cons hb .nil))
    | implies =>
      rw [infer_implies hopen, infer_implies hopen', ← hl.resolves around]
      by_cases hresolved : c.resolves l [] = true
      · rw [if_pos hresolved, if_pos hresolved]
        refine .bind_eq (Expr.matches_holds (hl.eval c)) fun b => ?_
        cases b with
        | true => exact hir c hc
        | false => exact .pure (.refl _)
      · rw [if_neg hresolved, if_neg hresolved]
        exact .ok (.refl _)
  | ite s p y n =>
    obtain ⟨p', y', n', rfl⟩ := List.length_eq_three.mp h.length
    have hp : u.Alike firm outer p p' := h.rel (i := 0) rfl rfl
    have hiy : u.InfersSame firm outer bound y y' := hinfer.rel (i := 1) rfl rfl
    have hin : u.InfersSame firm outer bound n n' := hinfer.rel (i := 2) rfl rfl
    simp only [Expr.withParts] at hopen' ⊢
    rw [infer_ite hopen, infer_ite hopen', ← hp.resolves around]
    by_cases hresolved : c.resolves p [] = true
    · rw [if_pos hresolved, if_pos hresolved]
      refine .bind_eq (Expr.matches_holds (hp.eval c)) fun b => ?_
      cases b with
      | true => exact hiy c hc
      | false => exact hin c hc
    · rw [if_neg hresolved, if_neg hresolved]
      refine .bind (hiy c hc) fun a a' ha => .bind (hin c hc) fun b b' hb => ?_
      exact matches_disjoin (.cons ha (.cons hb .nil))
  | bind s b x d body =>
    obtain ⟨d', body', rfl⟩ := List.length_eq_two.mp h.length
    have hd : u.Alike firm outer d d' := h.rel (i := 0) rfl rfl
    have hbody : u.InfersSame firm outer (x :: bound) body body' := hinfer.rel (i := 1) rfl rfl
    have items : Matches firm Eq (d.domain c) (d'.domain c) := Expr.matches_domain (hd.eval c)
    have each : ∀ v, Matches firm Candidates.Same (u.infer outer body (c.bind x v))
        (u.infer outer body' (c.bind x v)) := fun v => hbody _ (hc.bind x v)
    simp only [Expr.withParts] at hopen' ⊢
    cases b with
    | any =>
      rw [infer_any hopen, infer_any hopen', ← hd.resolves around]
      by_cases hresolved : c.resolves d [] = true
      · rw [if_pos hresolved, if_pos hresolved]
        exact .bind_eq items fun vs => .bind (.mapM fun v _ => each v) fun cs cs' hcs =>
          matches_disjoin hcs
      · rw [if_neg hresolved, if_neg hresolved]
        exact .ok (.refl _)
    | all =>
      rw [infer_all hopen, infer_all hopen', ← hd.resolves around]
      by_cases hresolved : c.resolves d [] = true
      · rw [if_pos hresolved, if_pos hresolved]
        exact .bind_eq items fun vs => matches_conjoinAll (fun v _ => each v) (.refl _)
      · rw [if_neg hresolved, if_neg hresolved]
        exact .ok (.refl _)
    | _ => simp [isMute] at mute
  | letIn s x v body =>
    obtain ⟨v', body', rfl⟩ := List.length_eq_two.mp h.length
    have hv : u.Alike firm outer v v' := h.rel (i := 0) rfl rfl
    have hbody : u.InfersSame firm outer (x :: bound) body body' := hinfer.rel (i := 1) rfl rfl
    simp only [Expr.withParts] at hopen' ⊢
    rw [infer_letIn hopen, infer_letIn hopen', ← hv.resolves around]
    by_cases hresolved : c.resolves v [] = true
    · rw [if_pos hresolved, if_pos hresolved]
      exact .bind_eq (hv.eval c) fun w => hbody _ (hc.bind x w)
    · rw [if_neg hresolved, if_neg hresolved]
      exact .ok (.refl _)
  | _ => exact absurd rfl mute

end Unknown

end ActionSystem
