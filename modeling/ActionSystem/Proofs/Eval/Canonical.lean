import ActionSystem.Proofs.Value.Canonical

/-!
# Evaluation gives canonical values

In a context in which all variables, constants and local binders have canonical values, the value of
every expression is canonical. The induction is on the expression; a binder puts an element of its
domain into the context, which is canonical since the domain is.
-/

namespace ActionSystem

open Result (Gives)

/-! ## Contexts -/

def Slots.Canonical (slots : Slots) : Prop := ∀ i v, slots.get? i = some v → v.Canonical

def Env.Canonical (env : Env) : Prop := ∀ v ∈ env.values, v.Canonical

namespace Context

structure Canonical (c : Context) : Prop where
  env : c.env.Canonical
  current : c.current.Canonical
  next : c.next.Canonical
  locals : ∀ b ∈ c.locals, b.2.Canonical

variable {c : Context} {x : String} {v : Value}

theorem Canonical.bind (h : c.Canonical) (x : String) (hv : v.Canonical) :
    (c.bind x v).Canonical where
  env := h.env
  current := h.current
  next := h.next
  locals := List.forall_mem_cons.mpr ⟨hv, h.locals⟩

theorem Canonical.of_local? (h : c.Canonical) (hv : c.local? x = some v) : v.Canonical := by
  obtain ⟨l, r, hsplit, -⟩ := List.lookup_eq_some_iff.mp hv
  refine h.locals (x, v) ?_
  rw [hsplit]
  exact List.mem_append_right l List.mem_cons_self

theorem Canonical.of_value? (h : c.Canonical) (hv : c.value? x = some v) : v.Canonical := by
  unfold value? at hv
  cases hlocal : c.local? x with
  | some w =>
    rw [hlocal] at hv
    cases hv
    exact h.of_local? hlocal
  | none =>
    rw [hlocal] at hv
    cases hi : c.env.variableIndex? x with
    | some i =>
      rw [hi] at hv
      exact h.current i v hv
    | none =>
      rw [hi] at hv
      obtain ⟨j, -, hj⟩ := Option.bind_eq_some_iff.mp hv
      exact h.env v (List.mem_of_getElem? hj)

theorem Canonical.of_nextValue? (h : c.Canonical) (hv : c.nextValue? x = some v) :
    v.Canonical := by
  obtain ⟨i, -, hi⟩ := Option.bind_eq_some_iff.mp hv
  exact h.next i v hi

theorem Canonical.gives_lookup (h : c.Canonical) (s : Span) (x : String) :
    Gives Value.Canonical (c.lookup s x) :=
  fun _ hv => h.of_value? (Expr.lookup_eq_ok.mp hv)

theorem Canonical.gives_lookupNext (h : c.Canonical) (s : Span) (x : String) :
    Gives Value.Canonical (c.lookupNext s x) :=
  fun _ hv => h.of_nextValue? (Expr.lookupNext_eq_ok.mp hv)

end Context

/-! ## Operators -/

theorem Fault.gives_at {α : Type} {P : α → Prop} {s : Span} {x : Except Fault α} (h : Gives P x) :
    Gives P (Fault.at s x) :=
  fun a ha => h a (Fault.at_eq_ok.mp ha)

theorem Literal.canonical_value (l : Literal) : l.value.Canonical := by
  cases l <;> constructor

theorem UnaryOp.gives_apply (op : UnaryOp) {v : Value} (h : v.Canonical) :
    Gives Value.Canonical (op.apply v) := by
  cases op with
  | not => exact .of_bind fun _ => .pure (.bool _)
  | neg => exact .of_bind fun _ => Value.gives_ofInt _ _
  | domain => exact Value.gives_domain h
  | cardinality | len => exact .of_bind fun _ => .pure (.int _)
  | head => exact Value.gives_head h
  | tail => exact Value.gives_tail h
  | powerset => exact Value.gives_powerset h
  | bigUnion => exact Value.gives_bigUnion h

theorem BinaryOp.gives_apply (op : BinaryOp) {v w : Value} (hv : v.Canonical) (hw : w.Canonical) :
    Gives Value.Canonical (op.apply v w) := by
  cases op with
  | iff => exact .of_bind fun _ => .of_bind fun _ => .pure (.bool _)
  | eq | ne => exact .pure (.bool _)
  | lt | le | gt | ge | mem | notMem | subsetEq => exact .of_bind fun _ => .pure (.bool _)
  | add | sub | mul => exact .of_bind fun _ => Value.gives_ofInt _ _
  | div => exact Value.gives_div v w
  | mod => exact Value.gives_mod v w
  | union => exact Value.gives_combine .union hv hw
  | inter => exact Value.gives_combine (fun h _ => h.of_sublist (Sorted.sublist_inter _ _ _)) hv hw
  | diff => exact Value.gives_combine (fun h _ => h.of_sublist (Sorted.sublist_diff _ _ _)) hv hw
  | concat => exact Value.gives_concat hv hw

theorem Value.gives_range (s : Span) (lo hi : Int64) : Gives Canonical (range s lo hi) := by
  unfold range
  split
  · exact .error
  · exact .pure (canonical_interval lo hi)

theorem Value.gives_domainElements {v : Value} (h : v.Canonical) (s : Span) :
    Gives (∀ x ∈ ·, x.Canonical) (v.domainElements s) := by
  unfold domainElements
  split
  · next xs hxs => exact .pure (h.of_elements? hxs)
  · exact .error

-- What the items and the values of the body have in common, the result of a binder has too.
theorem Binder.gives_gather (b : Binder) (s t : Span) {items : List Value}
    {body : Value → Except EvalError Value} (hitems : ∀ v ∈ items, v.Canonical)
    (hbody : ∀ v ∈ items, Gives Value.Canonical (body v)) :
    Gives Value.Canonical (b.gather s t items body) := by
  cases b with
  | all | any => exact .of_bind fun _ => .pure (.bool _)
  | function =>
    have entry : ∀ k ∈ items, Gives (fun e : Value × Value => e.1.Canonical ∧ e.2.Canonical)
        (do return (k, ← body k)) := fun k hk =>
      .bind (hbody k hk) fun v hv => .pure ⟨hitems k hk, hv⟩
    refine .bind (.mapM entry) fun es hes => .pure (Value.canonical_ofEntries ?_ ?_)
    · exact fun e he => (hes e he).1
    · exact fun e he => (hes e he).2
  | choose =>
    unfold gather
    intro v h
    obtain ⟨found, hfound, h⟩ := Result.bind_eq_ok.mp h
    cases found with
    | none => cases h
    | some w =>
      cases h
      exact hitems v (Result.mem_of_findM? hfound)
  | filter =>
    intro v h
    obtain ⟨kept, hkept, h⟩ := Result.bind_eq_ok.mp h
    cases h
    have hsub := Result.sublist_of_filterM hkept
    exact Value.canonical_ofElements fun x hx => hitems x (hsub.subset hx)
  | image => exact .bind (.mapM hbody) fun vs hvs => .pure (Value.canonical_ofElements hvs)

/-! ## Expressions -/

namespace Expr

variable {c : Context}

theorem gives_evalAll {es : List Expr} (h : ∀ e ∈ es, Gives Value.Canonical (e.eval c)) :
    Gives (∀ v ∈ ·, v.Canonical) (evalAll es c) := by
  induction es with
  | nil => exact .pure (by simp)
  | cons e es ih =>
    obtain ⟨he, hes⟩ := List.forall_mem_cons.mp h
    exact .bind he fun v hv => .bind (ih hes) fun vs hvs =>
      .pure (List.forall_mem_cons.mpr ⟨hv, hvs⟩)

theorem gives_evalFields {fs : List (String × Expr)}
    (h : ∀ f ∈ fs, Gives Value.Canonical (f.2.eval c)) :
    Gives (∀ f ∈ ·, f.2.Canonical) (evalFields fs c) := by
  induction fs with
  | nil => exact .pure (by simp)
  | cons f fs ih =>
    obtain ⟨hf, hfs⟩ := List.forall_mem_cons.mp h
    exact .bind hf fun v hv => .bind (ih hfs) fun vs hvs =>
      .pure (List.forall_mem_cons.mpr ⟨hv, hvs⟩)

/-- The value of an expression in a canonical context is canonical. -/
theorem gives_eval (e : Expr) (hc : c.Canonical) : Gives Value.Canonical (e.eval c) := by
  induction e using of_parts generalizing c with
  | step e ih =>
    cases e with
    | literal s l => exact .pure l.canonical_value
    | name s x => exact hc.gives_lookup s x
    | primed s x => exact hc.gives_lookupNext s x
    | unchanged s xs => exact .of_bind fun _ => .pure (.bool _)
    | unary s op e =>
      have he := ih e (by simp [parts]) hc
      exact .bind he fun v hv => Fault.gives_at (op.gives_apply hv)
    | logical s op l r =>
      refine .of_bind fun v => .of_bind fun p => ?_
      split
      · exact .pure (.bool _)
      · exact .of_bind fun w => .of_bind fun q => .pure (.bool q)
    | binary s op l r =>
      have hl := ih l (by simp [parts]) hc
      have hr := ih r (by simp [parts]) hc
      exact .bind hl fun v hv => .bind hr fun w hw => Fault.gives_at (op.gives_apply hv hw)
    | range s lo hi =>
      exact .of_bind fun v => .of_bind fun m => .of_bind fun w => .of_bind fun n =>
        Value.gives_range s m n
    | set s es =>
      have hes := gives_evalAll fun e he => ih e he hc
      exact .bind hes fun vs hvs => .pure (Value.canonical_ofElements hvs)
    | seq s es =>
      have hes := gives_evalAll fun e he => ih e he hc
      exact .bind hes fun vs hvs => .pure (.seq hvs)
    | record s fs =>
      have hfs := gives_evalFields fun f hf => ih f.2 (List.mem_map_of_mem hf) hc
      exact .bind hfs fun vs hvs => .pure (Value.canonical_ofFields hvs)
    | apply s f a =>
      have hf := ih f (by simp [parts]) hc
      exact .bind hf fun v hv => .of_bind fun w => Fault.gives_at (Value.gives_apply hv w)
    | field s r x =>
      have hr := ih r (by simp [parts]) hc
      exact .bind hr fun v hv => Fault.gives_at (Value.gives_field hv x)
    | except s f k e =>
      have hf := ih f (by simp [parts]) hc
      have hk := ih k (by simp [parts]) hc
      have he := ih e (by simp [parts]) hc
      exact .bind hf fun v hv => .bind hk fun key hkey => .bind he fun w hw =>
        Fault.gives_at (Value.gives_except hv hkey hw)
    | append s q x =>
      have hq := ih q (by simp [parts]) hc
      have hx := ih x (by simp [parts]) hc
      exact .bind hq fun v hv => .bind hx fun w hw => Fault.gives_at (Value.gives_append hv hw)
    | bind s b x d e =>
      have hd := ih d (by simp [parts]) hc
      refine .bind hd fun v hv => ?_
      refine .bind (Value.gives_domainElements hv d.span) fun items hitems => ?_
      exact b.gives_gather s e.span hitems fun item hitem =>
        ih e (by simp [parts]) (hc.bind x (hitems item hitem))
    | letIn s x v e =>
      have hv := ih v (by simp [parts]) hc
      exact .bind hv fun w hw => ih e (by simp [parts]) (hc.bind x hw)
    | ite s p y n =>
      have hy := ih y (by simp [parts]) hc
      have hn := ih n (by simp [parts]) hc
      refine .of_bind fun v => .of_bind fun b => ?_
      cases b with
      | true => exact hy
      | false => exact hn

-- The elements that a quantifier over an expression ranges over are canonical.
theorem gives_domain (e : Expr) (hc : c.Canonical) : Gives (∀ v ∈ ·, v.Canonical) (e.domain c) :=
  .bind (e.gives_eval hc) fun _ hv => Value.gives_domainElements hv e.span

end Expr

end ActionSystem
