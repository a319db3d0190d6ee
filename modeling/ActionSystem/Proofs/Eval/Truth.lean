import ActionSystem.Eval.Basic
import ActionSystem.Proofs.Result
import ActionSystem.Sorted.Lemmas
import ActionSystem.Value.Order

/-!
# Results of evaluation

When an evaluation has a given result: what this says of the parts of a condition, and of the names
that are looked up.
-/

namespace ActionSystem

theorem Fault.at_eq_ok {α : Type} {s : Span} {x : Except Fault α} {a : α} :
    Fault.at s x = .ok a ↔ x = .ok a := by
  cases x <;> simp [Fault.at]

namespace Value

theorem expectBool_eq_ok {op : String} {v : Value} {b : Bool} :
    v.expectBool op = .ok b ↔ v = .bool b := by
  cases v <;> simp [expectBool, mismatch]

theorem expectSet_eq_ok {op : String} {v : Value} {xs : List Value} :
    v.expectSet op = .ok xs ↔ v = .set xs := by
  cases v <;> simp [expectSet, mismatch]

theorem truth_eq_ok {s : Span} {v : Value} {b : Bool} : v.truth s = .ok b ↔ v = .bool b := by
  rw [truth, Fault.at_eq_ok, expectBool_eq_ok]

theorem domainElements_eq_ok {s : Span} {v : Value} {xs : List Value} :
    v.domainElements s = .ok xs ↔ v.elements? = some xs := by
  unfold domainElements
  cases v.elements? <;> simp

end Value

namespace Expr

variable {c : Context} {s : Span}

theorem holds_eq_ok {e : Expr} {b : Bool} : e.holds c = .ok b ↔ e.eval c = .ok (.bool b) := by
  unfold holds
  rw [Result.bind_eq_ok]
  constructor
  · intro h
    obtain ⟨v, hv, hb⟩ := h
    rw [Value.truth_eq_ok] at hb
    rw [hv, hb]
  · intro h
    exact ⟨_, h, Value.truth_eq_ok.mpr rfl⟩

/-! ## Connectives -/

theorem eval_logical_eq_bool {op : Connective} {l r : Expr} {v : Value}
    (h : (logical s op l r).eval c = .ok v) : ∃ b, v = .bool b := by
  simp only [eval, Result.bind_eq_ok] at h
  obtain ⟨_, -, p, -, h⟩ := h
  cases hd : op.decided? p with
  | some b =>
    simp only [hd, Result.pure_eq_ok] at h
    exact ⟨b, h.symm⟩
  | none =>
    simp only [hd, Result.bind_eq_ok, Result.pure_eq_ok] at h
    obtain ⟨_, -, q, -, h⟩ := h
    exact ⟨q, h.symm⟩

theorem eval_logical_eq_ok {op : Connective} {l r : Expr} {b : Bool} :
    (logical s op l r).eval c = .ok (.bool b) ↔
      ∃ p, l.holds c = .ok p ∧
        (op.decided? p = some b ∨ op.decided? p = none ∧ r.holds c = .ok b) := by
  simp only [eval, Result.bind_eq_ok, Fault.at_eq_ok, Value.expectBool_eq_ok, holds_eq_ok]
  constructor
  · intro h
    obtain ⟨v, hv, p, hp, h⟩ := h
    subst hp
    refine ⟨p, hv, ?_⟩
    cases hd : op.decided? p with
    | some q =>
      simp only [hd, Result.pure_eq_ok, Value.bool.injEq] at h
      exact .inl (by rw [h])
    | none =>
      simp only [hd, Result.bind_eq_ok, Result.pure_eq_ok, Value.bool.injEq, Fault.at_eq_ok,
        Value.expectBool_eq_ok] at h
      obtain ⟨w, hw, q, rfl, rfl⟩ := h
      exact .inr ⟨rfl, hw⟩
  · intro h
    obtain ⟨p, hp, h⟩ := h
    refine ⟨_, hp, p, rfl, ?_⟩
    rcases h with hd | ⟨hd, hr⟩
    · simp [hd]
    · simp only [hd, Result.bind_eq_ok, Result.pure_eq_ok, Fault.at_eq_ok,
        Value.expectBool_eq_ok]
      exact ⟨_, hr, b, rfl, rfl⟩

theorem holds_ite_eq_ok {p y n : Expr} {b : Bool} :
    (ite s p y n).holds c = .ok b ↔
      ∃ q, p.holds c = .ok q ∧ (if q then y else n).holds c = .ok b := by
  simp only [holds_eq_ok, eval, Result.bind_eq_ok, Fault.at_eq_ok, Value.expectBool_eq_ok]
  constructor
  · rintro ⟨v, hv, q, hq, h⟩
    subst hq
    refine ⟨q, hv, ?_⟩
    cases q <;> exact h
  · rintro ⟨q, hq, h⟩
    refine ⟨_, hq, q, rfl, ?_⟩
    cases q <;> exact h

/-! ## Binders -/

theorem holds_letIn_eq_ok {x : String} {v body : Expr} {b : Bool} :
    (letIn s x v body).holds c = .ok b ↔
      ∃ w, v.eval c = .ok w ∧ body.holds (c.bind x w) = .ok b := by
  simp only [holds_eq_ok, eval, Result.bind_eq_ok]

section

variable {x : String} {d body : Expr} {items : List Value}

theorem domain_eq_ok :
    d.domain c = .ok items ↔ ∃ v, d.eval c = .ok v ∧ v.elements? = some items := by
  simp only [domain, Result.bind_eq_ok, Value.domainElements_eq_ok]

theorem eval_bind {b : Binder} (hd : d.domain c = .ok items) :
    (Expr.bind s b x d body).eval c =
      b.gather s body.span items fun v => body.eval (c.bind x v) := by
  rw [domain, Result.bind_eq_ok] at hd
  obtain ⟨v, hv, hitems⟩ := hd
  rw [eval, hv]
  change (v.domainElements d.span >>= _) = _
  rw [hitems]
  rfl

-- A binder has a value only if there is something to range over.
theorem exists_domain_of_eval_bind {b : Binder} {v : Value}
    (h : (Expr.bind s b x d body).eval c = .ok v) : ∃ items, d.domain c = .ok items := by
  simp only [eval, Result.bind_eq_ok] at h
  obtain ⟨_, hd, items, hitems, -⟩ := h
  exact ⟨items, Result.bind_eq_ok.mpr ⟨_, hd, hitems⟩⟩

theorem eval_all (hd : d.domain c = .ok items) :
    (Expr.bind s .all x d body).eval c =
      do return .bool (← items.allM fun v => body.holds (c.bind x v)) := eval_bind hd

theorem eval_any (hd : d.domain c = .ok items) :
    (Expr.bind s .any x d body).eval c =
      do return .bool (← items.anyM fun v => body.holds (c.bind x v)) := eval_bind hd

theorem holds_all (hd : d.domain c = .ok items) :
    (Expr.bind s .all x d body).holds c = items.allM fun v => body.holds (c.bind x v) := by
  rw [holds, eval_all hd]
  cases items.allM fun v => body.holds (c.bind x v) <;> rfl

theorem holds_any (hd : d.domain c = .ok items) :
    (Expr.bind s .any x d body).holds c = items.anyM fun v => body.holds (c.bind x v) := by
  rw [holds, eval_any hd]
  cases items.anyM fun v => body.holds (c.bind x v) <;> rfl

end

/-! ## Atoms -/

theorem lookup_eq_ok {x : String} {v : Value} : c.lookup s x = .ok v ↔ c.value? x = some v := by
  unfold Context.lookup
  cases c.value? x <;> simp

theorem lookupNext_eq_ok {x : String} {v : Value} :
    c.lookupNext s x = .ok v ↔ c.nextValue? x = some v := by
  unfold Context.lookupNext
  cases c.nextValue? x <;> simp

theorem isUnchanged_eq_ok_true {xs : List String} :
    c.isUnchanged s xs = .ok true ↔
      ∀ x ∈ xs, ∃ v, c.value? x = some v ∧ c.nextValue? x = some v := by
  induction xs with
  | nil => simp [Context.isUnchanged]
  | cons x xs ih =>
    simp only [Context.isUnchanged, Result.bind_eq_ok, lookup_eq_ok, lookupNext_eq_ok]
    rw [List.forall_mem_cons, ← ih]
    constructor
    · intro h
      obtain ⟨v, hv, w, hw, h⟩ := h
      by_cases hvw : v = w
      · rw [if_pos hvw] at h
        exact ⟨⟨v, hv, hvw ▸ hw⟩, h⟩
      · rw [if_neg hvw, Result.pure_eq_ok] at h
        cases h
    · intro h
      obtain ⟨⟨v, hv, hw⟩, h⟩ := h
      exact ⟨v, hv, v, hw, by rw [if_pos rfl]; exact h⟩

end Expr

end ActionSystem
