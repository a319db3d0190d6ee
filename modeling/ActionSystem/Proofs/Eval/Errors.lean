import ActionSystem.Proofs.Eval.Agreement
import ActionSystem.Proofs.Eval.Truth
import ActionSystem.Solve.Cursor

/-!
# Causes and places of errors

Evaluation fails for reasons that lie in the values, and reports this at the expression in question
or at one inside it; a name is reported as unbound only if it has no value. That a variable has no
source of values is reported by the solver only.
-/

namespace ActionSystem

open Result (Fails)

namespace EvalError

/-- The error does not report that a variable has no source of values. -/
def Genuine (err : EvalError) : Prop := ∀ x, err.cause ≠ .noSource x

/-- The error is reported at this span, for a reason that lies in the values. -/
structure At (s : Span) (err : EvalError) : Prop where
  span : err.span = s
  genuine : err.Genuine

/-- The error is reported at the expression or at one inside it, for a reason that lies in the
values. -/
def ArisesIn (e : Expr) (err : EvalError) : Prop := ∃ p : Expr, p.Occurs e ∧ err.At p.span

variable {e p : Expr} {err : EvalError}

theorem ArisesIn.genuine (h : err.ArisesIn e) : err.Genuine := by
  obtain ⟨p, -, hat⟩ := h
  exact hat.genuine

theorem At.arisesIn (h : err.At e.span) : err.ArisesIn e := ⟨e, .here, h⟩

theorem ArisesIn.inside (h : err.ArisesIn p) (part : p ∈ e.parts) : err.ArisesIn e := by
  obtain ⟨q, occurs, hat⟩ := h
  exact ⟨q, .inside part occurs, hat⟩

end EvalError

open EvalError (At ArisesIn)

variable {α : Type}

/-- The errors that evaluation in a context raises by itself at a span. A name is reported only if
it has no value there. -/
inductive Context.Raises (c : Context) (s : Span) : EvalError → Prop where
  | fault (f : Fault) : Raises c s ⟨s, .fault f⟩
  | wideRange (lo hi : Int64) : Raises c s ⟨s, .wideRange lo hi⟩
  | noDomain (actual : Kind) : Raises c s ⟨s, .noDomain actual⟩
  | chooseFailed : Raises c s ⟨s, .chooseFailed⟩
  | unbound {x : String} (missing : c.value? x = none) : Raises c s ⟨s, .unbound x⟩
  | unboundNext {x : String} (missing : c.nextValue? x = none) : Raises c s ⟨s, .unboundNext x⟩

theorem Context.Raises.located {c : Context} {s : Span} {err : EvalError} (h : c.Raises s err) :
    err.At s := by
  cases h <;> exact ⟨rfl, fun _ => nofun⟩

/-- A name that the error reports has no value in the context. -/
structure Context.Lacks (c : Context) (err : EvalError) : Prop where
  unbound : ∀ x, err.cause = .unbound x → c.value? x = none
  unboundNext : ∀ x, err.cause = .unboundNext x → c.nextValue? x = none

theorem Context.Raises.lacks {c : Context} {s : Span} {err : EvalError} (h : c.Raises s err) :
    c.Lacks err := by
  cases h with
  | fault | wideRange | noDomain | chooseFailed => exact ⟨fun _ => nofun, fun _ => nofun⟩
  | unbound missing => exact ⟨fun _ hx => by cases hx; exact missing, fun _ => nofun⟩
  | unboundNext missing => exact ⟨fun _ => nofun, fun _ hx => by cases hx; exact missing⟩

-- A binder only adds a value.
theorem Context.Lacks.of_bind {c : Context} {x : String} {v : Value} {err : EvalError}
    (h : (c.bind x v).Lacks err) : c.Lacks err where
  unbound := by
    intro y hy
    have hnone := h.unbound y hy
    by_cases hyx : y = x
    · rw [hyx, value?_bind_self] at hnone
      cases hnone
    · rwa [value?_bind_of_ne hyx] at hnone
  unboundNext := h.unboundNext

theorem Fault.fails_at (c : Context) (s : Span) (x : Except Fault α) :
    Fails (c.Raises s) (Fault.at s x) := by
  cases x with
  | ok a => exact .ok
  | error f => exact .error (.fault f)

theorem Context.fails_lookup (c : Context) (s : Span) (x : String) :
    Fails (c.Raises s) (c.lookup s x) := by
  unfold lookup
  cases hv : c.value? x with
  | some v => exact .ok
  | none => exact .error (.unbound hv)

theorem Context.fails_lookupNext (c : Context) (s : Span) (x : String) :
    Fails (c.Raises s) (c.lookupNext s x) := by
  unfold lookupNext
  cases hv : c.nextValue? x with
  | some v => exact .ok
  | none => exact .error (.unboundNext hv)

theorem Context.fails_isUnchanged (c : Context) (s : Span) (xs : List String) :
    Fails (c.Raises s) (c.isUnchanged s xs) := by
  induction xs with
  | nil => exact .pure
  | cons x xs ih =>
    refine .bind (c.fails_lookup s x) fun v _ => .bind (c.fails_lookupNext s x) fun w _ => ?_
    split
    · exact ih
    · exact .pure

namespace Value

theorem fails_range (c : Context) (s : Span) (lo hi : Int64) :
    Fails (c.Raises s) (range s lo hi) := by
  unfold range
  split
  · exact .error (.wideRange lo hi)
  · exact .ok

theorem fails_domainElements (c : Context) (s : Span) (v : Value) :
    Fails (c.Raises s) (v.domainElements s) := by
  unfold domainElements
  split
  · exact .ok
  · exact .error (.noDomain v.kind)

end Value

-- A binder adds the errors of its own, and those for values of its body that are no truth values.
theorem Binder.fails_gather {P : EvalError → Prop} (b : Binder) (c : Context) (s t : Span)
    {items : List Value} {body : Value → Except EvalError Value}
    (own : ∀ err, c.Raises s err → P err)
    (truth : ∀ err, c.Raises t err → P err) (h : ∀ v ∈ items, Fails P (body v)) :
    Fails P (b.gather s t items body) := by
  have holds : ∀ v ∈ items, Fails P (do (← body v).truth t) := fun v hv =>
    .bind (h v hv) fun _ _ => (Fault.fails_at c t _).mono truth
  cases b with
  | function =>
    exact .bind (.mapM fun k hk => .bind (h k hk) fun _ _ => .pure) fun _ _ => .pure
  | all => exact .bind (.allM holds) fun _ _ => .pure
  | any => exact .bind (.anyM holds) fun _ _ => .pure
  | choose =>
    refine .bind (.findM? holds) fun found _ => ?_
    cases found with
    | none => exact .error (own _ .chooseFailed)
    | some v => exact .pure
  | filter => exact .bind (.filterM holds) fun _ _ => .pure
  | image => exact .bind (.mapM h) fun _ _ => .pure

namespace Expr

variable {c : Context} {P : EvalError → Prop}

theorem fails_evalAll {es : List Expr} (h : ∀ e ∈ es, Fails P (e.eval c)) :
    Fails P (evalAll es c) := by
  induction es with
  | nil => exact .ok
  | cons e es ih =>
    obtain ⟨he, hes⟩ := List.forall_mem_cons.mp h
    exact .bind he fun _ _ => .bind (ih hes) fun _ _ => .pure

theorem fails_evalFields {fs : List (String × Expr)} (h : ∀ f ∈ fs, Fails P (f.2.eval c)) :
    Fails P (evalFields fs c) := by
  induction fs with
  | nil => exact .ok
  | cons f fs ih =>
    obtain ⟨hf, hfs⟩ := List.forall_mem_cons.mp h
    exact .bind hf fun _ _ => .bind (ih hfs) fun _ _ => .pure

/-- What holds of the errors that an expression raises by itself, and passes from those of its parts
to those of the expression, holds of all errors of evaluation. -/
theorem fails_eval_of {Q : Expr → Context → EvalError → Prop}
    (own : ∀ e c err, c.Raises e.span err → Q e c err)
    (part : ∀ e p c err, p ∈ e.parts → Q p c err → Q e c err)
    (below : ∀ e p c x v err, p ∈ e.parts → Q p (c.bind x v) err → Q e c err)
    (e : Expr) (c : Context) : Fails (Q e c) (e.eval c) := by
  induction e using of_parts generalizing c with
  | step e ih =>
    have here {α : Type} {x : Except EvalError α} (hx : Fails (c.Raises e.span) x) :
        Fails (Q e c) x := hx.mono (own e c)
    have atPart {α : Type} {x : Except EvalError α} {p : Expr} (hp : p ∈ e.parts)
        (hx : Fails (c.Raises p.span) x) : Fails (Q e c) x :=
      hx.mono fun err herr => part e p c err hp (own p c err herr)
    have inside (p : Expr) (hp : p ∈ e.parts) : Fails (Q e c) (p.eval c) :=
      (ih p hp c).mono fun err => part e p c err hp
    have bound (p : Expr) (hp : p ∈ e.parts) (x : String) (v : Value) :
        Fails (Q e c) (p.eval (c.bind x v)) :=
      (ih p hp _).mono fun err => below e p c x v err hp
    cases e with
    | literal s l => exact .ok
    | name s x => exact here (c.fails_lookup s x)
    | primed s x => exact here (c.fails_lookupNext s x)
    | unchanged s xs => exact .bind (here (c.fails_isUnchanged s xs)) fun _ _ => .pure
    | unary s op e =>
      exact .bind (inside e (by simp [parts])) fun v _ => here (Fault.fails_at c s _)
    | field s r x =>
      exact .bind (inside r (by simp [parts])) fun v _ => here (Fault.fails_at c s _)
    | logical s op l r =>
      have hl := inside l (by simp [parts])
      have hr := inside r (by simp [parts])
      refine .bind hl fun v _ =>
        .bind (atPart (p := l) (by simp [parts]) (Fault.fails_at c l.span _)) fun p _ => ?_
      split
      · exact .pure
      · exact .bind hr fun w _ =>
          .bind (atPart (p := r) (by simp [parts]) (Fault.fails_at c r.span _)) fun _ _ => .pure
    | binary s op l r | apply s l r | append s l r =>
      have hl := inside l (by simp [parts])
      have hr := inside r (by simp [parts])
      exact .bind hl fun v _ => .bind hr fun w _ => here (Fault.fails_at c s _)
    | range s lo hi =>
      have hlo := inside lo (by simp [parts])
      have hhi := inside hi (by simp [parts])
      exact .bind hlo fun v _ => .bind (here (Fault.fails_at c s _)) fun m _ => .bind hhi fun w _ =>
        .bind (here (Fault.fails_at c s _)) fun n _ => here (Value.fails_range c s m n)
    | set s es | seq s es =>
      exact .bind (fails_evalAll fun e he => inside e he) fun _ _ => .pure
    | record s fs =>
      exact .bind (fails_evalFields fun f hf => inside f.2 (List.mem_map_of_mem hf))
        fun _ _ => .pure
    | except s f k e =>
      have hf := inside f (by simp [parts])
      have hk := inside k (by simp [parts])
      have he := inside e (by simp [parts])
      exact .bind hf fun v _ => .bind hk fun key _ => .bind he fun w _ =>
        here (Fault.fails_at c s _)
    | bind s b x d e =>
      have hd := inside d (by simp [parts])
      have he := bound e (by simp [parts]) x
      have hdomain (v : Value) :=
        atPart (p := d) (by simp [parts]) (Value.fails_domainElements c d.span v)
      have hbody : e ∈ (Expr.bind s b x d e).parts := by simp [parts]
      exact .bind hd fun v _ => .bind (hdomain v) fun items _ =>
        b.fails_gather c s e.span (own (.bind s b x d e) c)
          (fun err herr => part _ e c err hbody (own e c err herr)) fun item _ => he item
    | letIn s x v e =>
      have hv := inside v (by simp [parts])
      exact .bind hv fun w _ => bound e (by simp [parts]) x w
    | ite s p y n =>
      have hp := inside p (by simp [parts])
      refine .bind hp fun v _ =>
        .bind (atPart (p := p) (by simp [parts]) (Fault.fails_at c p.span _)) fun b _ => ?_
      cases b with
      | true => exact inside y (by simp [parts])
      | false => exact inside n (by simp [parts])

/-- The errors of evaluation arise in the expression. -/
theorem fails_eval (e : Expr) (c : Context) : Fails (ArisesIn e) (e.eval c) :=
  fails_eval_of (Q := fun e _ => ArisesIn e) (fun _ _ _ h => h.located.arisesIn)
    (fun _ _ _ _ part h => h.inside part) (fun _ _ _ _ _ _ part h => h.inside part) e c

/-- A name that evaluation reports has no value in the context of the expression. -/
theorem eval_lacks (e : Expr) (c : Context) : Fails c.Lacks (e.eval c) :=
  fails_eval_of (Q := fun _ => Context.Lacks) (fun _ _ _ => Context.Raises.lacks)
    (fun _ _ _ _ _ h => h) (fun _ _ _ _ _ _ _ h => h.of_bind) e c

theorem fails_holds (e : Expr) (c : Context) : Fails (ArisesIn e) (e.holds c) :=
  .bind (e.fails_eval c) fun _ _ => (Fault.fails_at c e.span _).mono fun _ h => h.located.arisesIn

theorem fails_domain (e : Expr) (c : Context) : Fails (ArisesIn e) (e.domain c) :=
  .bind (e.fails_eval c) fun v _ =>
    (Value.fails_domainElements c e.span v).mono fun _ h => h.located.arisesIn

end Expr

namespace Unknown

variable {u : Unknown} {outer c : Context} {P : EvalError → Prop}

/-- The current value of the unknown was asked for outside of all binders, and there was none. -/
def Misses (u : Unknown) (outer : Context) (err : EvalError) : Prop :=
  u.form = .primed ∧ outer.value? u.name = none ∧ err.At .none

/-- The errors of an inference: they arise in the expression, or the current value that alternatives
ask for is missing. -/
def FailsIn (u : Unknown) (outer : Context) (e : Expr) (err : EvalError) : Prop :=
  err.ArisesIn e ∨ u.Misses outer err

theorem FailsIn.genuine {e : Expr} {err : EvalError} (h : u.FailsIn outer e err) :
    err.Genuine := by
  rcases h with h | ⟨-, -, hat⟩
  · exact h.genuine
  · exact hat.genuine

theorem FailsIn.inside {e p : Expr} {err : EvalError} (h : u.FailsIn outer p err)
    (part : p ∈ e.parts) : u.FailsIn outer e err :=
  h.imp_left fun harises => harises.inside part

theorem fails_disjoin (u : Unknown) (outer : Context) (cs : List Candidates) :
    Fails (u.Misses outer) (u.disjoin outer cs) := by
  unfold disjoin
  split
  · exact .ok
  · exact .ok
  · exact .ok
  · exact .ok
  · split
    · next hform =>
      refine .bind (fun err herr => ⟨hform, ?_, (outer.fails_lookup .none u.name err herr).located⟩)
        fun _ _ => .pure
      unfold Context.lookup at herr
      cases hv : outer.value? u.name with
      | none => rfl
      | some v =>
        rw [hv] at herr
        cases herr
    · exact .ok

theorem fails_conjoinAll {body : Value → Except EvalError Candidates} {acc : Candidates}
    {items : List Value} (h : ∀ v ∈ items, Fails P (body v)) :
    Fails P (conjoinAll body acc items) := by
  induction items generalizing acc with
  | nil => exact .ok
  | cons v vs ih =>
    obtain ⟨hv, hvs⟩ := List.forall_mem_cons.mp h
    refine .bind hv fun r _ => ?_
    split
    · exact .pure
    · exact ih hvs

theorem fails_fromSide {side other : Expr} {v : Except EvalError Value}
    (h : u.fromSide c side other = some v) : Fails (ArisesIn other) v := by
  unfold fromSide at h
  split at h
  · cases h
    exact other.fails_eval c
  · cases h

theorem fails_fromEquation (u : Unknown) (c : Context) (s : Span) (l r : Expr) :
    Fails (ArisesIn (.binary s .eq l r)) (u.fromEquation c l r) := by
  have hl : l ∈ (Expr.binary s .eq l r).parts := by simp [Expr.parts]
  have hr : r ∈ (Expr.binary s .eq l r).parts := by simp [Expr.parts]
  unfold fromEquation
  split
  · next v hv => exact .bind ((fails_fromSide hv).mono fun _ h => h.inside hr) fun _ _ => .pure
  · split
    · next v hv => exact .bind ((fails_fromSide hv).mono fun _ h => h.inside hl) fun _ _ => .pure
    · exact .ok

theorem fails_fromMembership (u : Unknown) (c : Context) (s : Span) (l r : Expr) :
    Fails (ArisesIn (.binary s .mem l r)) (u.fromMembership c l r) := by
  have hr : r ∈ (Expr.binary s .mem l r).parts := by simp [Expr.parts]
  unfold fromMembership
  split
  · next v hv =>
    exact .bind ((fails_fromSide hv).mono fun _ h => h.inside hr) fun _ _ =>
      .bind ((Fault.fails_at c r.span _).mono fun _ h => h.located.arisesIn.inside hr)
        fun _ _ => .pure
  · exact .ok

/-- The errors of inference arise in the expression, and none of them reports that a variable has no
source: where inference gives no list of values, it says so. -/
theorem fails_infer (u : Unknown) (outer : Context) (e : Expr) (c : Context) :
    Fails (u.FailsIn outer e) (u.infer outer e c) := by
  induction e using Expr.of_parts generalizing c with
  | step e ih =>
    have inside (p : Expr) (hp : p ∈ e.parts) (c : Context) :
        Fails (u.FailsIn outer e) (u.infer outer p c) :=
      (ih p hp c).mono fun _ herr => herr.inside hp
    have arises {α : Type} {x : Except EvalError α} {p : Expr} (hp : p ∈ e.parts)
        (hx : Fails (ArisesIn p) x) : Fails (u.FailsIn outer e) x :=
      hx.mono fun _ herr => .inl (herr.inside hp)
    have joins (cs : List Candidates) : Fails (u.FailsIn outer e) (u.disjoin outer cs) :=
      (u.fails_disjoin outer cs).mono fun _ => .inr
    unfold infer
    by_cases hresolved : c.resolves e [] = true
    · rw [if_pos hresolved]
      exact .bind ((e.fails_holds c).mono fun _ => .inl) fun _ _ => .pure
    rw [if_neg hresolved]
    by_cases hfree : (!u.isMentioned c e) = true
    · rw [if_pos hfree]
      exact .ok
    rw [if_neg hfree]
    clear hresolved hfree
    split
    · exact (u.fails_fromEquation c _ _ _).mono fun _ => .inl
    · exact (u.fails_fromMembership c _ _ _).mono fun _ => .inl
    · next s l r =>
      refine .bind (inside l (by simp [Expr.parts]) c) fun a _ => ?_
      split
      · exact .pure
      · exact .bind (inside r (by simp [Expr.parts]) c) fun _ _ => .pure
    · next s l r =>
      exact .bind (inside l (by simp [Expr.parts]) c) fun a _ =>
        .bind (inside r (by simp [Expr.parts]) c) fun b _ => joins _
    · next s l r =>
      split
      · refine .bind (arises (p := l) (by simp [Expr.parts]) (l.fails_holds c)) fun b _ => ?_
        cases b with
        | true => exact inside r (by simp [Expr.parts]) c
        | false => exact .pure
      · exact .ok
    · next s p y n =>
      have hy := inside y (by simp [Expr.parts]) c
      have hn := inside n (by simp [Expr.parts]) c
      split
      · refine .bind (arises (p := p) (by simp [Expr.parts]) (p.fails_holds c)) fun b _ => ?_
        cases b with
        | true => exact hy
        | false => exact hn
      · exact .bind hy fun a _ => .bind hn fun b _ => joins _
    · next s x d body =>
      have hbody := inside body (by simp [Expr.parts])
      split
      · exact .bind (arises (p := d) (by simp [Expr.parts]) (d.fails_domain c)) fun items _ =>
          .bind (.mapM fun v _ => hbody (c.bind x v)) fun cs _ => joins _
      · exact .ok
    · next s x d body =>
      have hbody := inside body (by simp [Expr.parts])
      split
      · exact .bind (arises (p := d) (by simp [Expr.parts]) (d.fails_domain c)) fun items _ =>
          fails_conjoinAll fun v _ => hbody (c.bind x v)
      · exact .ok
    · next s x v body =>
      split
      · exact .bind (arises (p := v) (by simp [Expr.parts]) (v.fails_eval c)) fun w _ =>
          inside body (by simp [Expr.parts]) (c.bind x w)
      · exact .ok
    · next s xs =>
      split
      · exact .bind ((outer.fails_lookup s u.name).mono fun _ h => .inl (At.arisesIn h.located))
          fun _ _ => .pure
      · exact .ok
    · exact .ok

end Unknown

end ActionSystem
