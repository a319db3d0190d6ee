import ActionSystem.Proofs.Eval.Errors
import ActionSystem.Proofs.Solve.Pruning

/-!
# Resolved expressions

An expression that reads no pending variable may be evaluated before the pending variables have
values: the value, or the error, stays the same however they are filled in, and the error never is
that a pending variable has no value.
-/

namespace ActionSystem

variable {c c' : Context} {e : Expr}

/-! ## Filling in -/

namespace Slots

inductive ExtendsTo : Slots → Slots → Prop where
  | refl (s : Slots) : ExtendsTo s s
  /-- Some variables may remain pending. -/
  | further {slots slots' : List (Option Value)} (width : slots'.length = slots.length)
      (kept : ∀ (i : Nat) (v : Value), slots[i]? = some (some v) → slots'[i]? = some (some v)) :
      ExtendsTo (solving slots) (solving slots')
  | total {slots : List (Option Value)} {values : List Value} (complete : Completes values slots) :
      ExtendsTo (solving slots) (total values)

theorem ExtendsTo.filledBy {s t : Slots} (h : s.ExtendsTo t) : s.FilledBy t := by
  cases h with
  | refl => exact .refl s
  | total complete => exact complete.filledBy
  | @further slots slots' width kept =>
    intro i settled
    change slots'[i]?.join = slots[i]?.join
    cases hslot : slots[i]? with
    | none =>
      have hlen : slots.length ≤ i := List.getElem?_eq_none_iff.mp hslot
      rw [List.getElem?_eq_none (width ▸ hlen)]
    | some slot =>
      cases slot with
      | none =>
        have hpending : (solving slots).isPending i = true := decide_eq_true hslot
        rw [settled] at hpending
        cases hpending
      | some v => rw [kept i v hslot]

def completed (v : Value) : Slots → Slots
  | solving slots => total (slots.map (·.getD v))
  | s => s

theorem extendsTo_completed (s : Slots) (v : Value) : s.ExtendsTo (s.completed v) := by
  cases s with
  | absent | total => exact .refl _
  | solving slots => exact .total ⟨List.length_map _, fun i w hw => by simp [hw]⟩

theorem get?_completed {s : Slots} {i : Nat} (h : s.isPending i = true) (v : Value) :
    (s.completed v).get? i = some v := by
  cases s with
  | absent | total => cases h
  | solving slots =>
    have hslot : slots[i]? = some none := of_decide_eq_true h
    simp [completed, get?, hslot]

end Slots

namespace Context

structure ExtendsTo (c c' : Context) : Prop where
  env : c'.env = c.env
  current : c.current.ExtendsTo c'.current
  next : c.next.ExtendsTo c'.next
  locals : c'.locals = c.locals

theorem ExtendsTo.filledBy (h : c.ExtendsTo c') : c.FilledBy c' :=
  ⟨h.env, h.current.filledBy, h.next.filledBy, h.locals⟩

def completed (c : Context) (v : Value) : Context :=
  { c with current := c.current.completed v, next := c.next.completed v }

theorem extendsTo_completed (c : Context) (v : Value) : c.ExtendsTo (c.completed v) :=
  ⟨rfl, c.current.extendsTo_completed v, c.next.extendsTo_completed v, rfl⟩

inductive Awaits (c : Context) (err : EvalError) : Prop where
  | current {x : String} (cause : err.cause = .unbound x)
      (pending : c.pendingIn c.current x = true) : Awaits c err
  | next {x : String} (cause : err.cause = .unboundNext x)
      (pending : c.pendingIn c.next x = true) : Awaits c err

theorem exists_isPending {slots : Slots} {x : String} (h : c.pendingIn slots x = true) :
    ∃ i, c.env.variableIndex? x = some i ∧ slots.isPending i = true := by
  unfold pendingIn at h
  cases hi : c.env.variableIndex? x with
  | none =>
    rw [hi] at h
    cases h
  | some i =>
    rw [hi] at h
    exact ⟨i, rfl, h⟩

-- With a value for all pending variables, each name that was waited for has one.
theorem Lacks.not_awaits {err : EvalError} {v : Value} (h : (c.completed v).Lacks err) :
    ¬ c.Awaits err := by
  intro awaits
  cases awaits with
  | @current x cause pending =>
    have hnone := h.unbound x cause
    obtain ⟨i, hi, hpending⟩ := exists_isPending pending
    have hvalue : (c.completed v).current.get? i = some v := Slots.get?_completed hpending v
    unfold value? at hnone
    cases hl : (c.completed v).local? x with
    | some w =>
      rw [hl] at hnone
      cases hnone
    | none =>
      simp only [hl, show (c.completed v).env.variableIndex? x = some i from hi, hvalue] at hnone
      cases hnone
  | @next x cause pending =>
    have hnone := h.unboundNext x cause
    obtain ⟨i, hi, hpending⟩ := exists_isPending pending
    have hvalue : (c.completed v).next.get? i = some v := Slots.get?_completed hpending v
    unfold nextValue? at hnone
    rw [show (c.completed v).env.variableIndex? x = some i from hi, Option.bind_some,
      hvalue] at hnone
    cases hnone

end Context

/-! ## Early evaluation -/

namespace Expr

theorem not_awaits_of_resolves (resolved : c.resolves e [] = true) {err : EvalError}
    (error : e.eval c = .error err) : ¬ c.Awaits err := by
  have hsame := (c.extendsTo_completed default).filledBy.eval resolved
  exact (e.eval_lacks _ err (hsame.symm.trans error)).not_awaits

/-- A resolved expression has the same value, or the same error, however the pending variables of
both states are filled in, and it does not read them. -/
theorem eval_stable_of_resolves (resolved : c.resolves e [] = true) (extended : c.ExtendsTo c') :
    e.eval c' = e.eval c ∧ e.holds c' = e.holds c ∧
      ∀ err, e.eval c = .error err → ¬ c.Awaits err :=
  ⟨(extended.filledBy.eval resolved).symm, (extended.filledBy.holds resolved).symm,
    fun _ => not_awaits_of_resolves resolved⟩

/-- The condition `\E x \in {1, k} : x > 1 /\ UNCHANGED y` -/
def unmoved : Expr :=
  .bind .none .any "x" (.set .none [.literal .none (.int 1), .name .none "k"])
    (.logical .none .and (.binary .none .gt (.name .none "x") (.literal .none (.int 1)))
      (.unchanged .none ["y"]))

-- The binder takes the name of the pending variable `x`, and `k` is bound around the condition.
theorem eval_stable_of_resolves_unmoved :
    let env : Env := { vars := ["x", "y", "z"] }
    let c : Context := ⟨env, .solving [none, some (.int 7), some (.int 0)],
      .solving [none, some (.int 7), none], [("k", .int 3)]⟩
    let c' : Context := ⟨env, .total [.int 5, .int 7, .int 0],
      .solving [some (.str "a"), some (.int 7), none], [("k", .int 3)]⟩
    c.resolves unmoved [] = true ∧ c.ExtendsTo c' ∧ unmoved.eval c = .ok (.bool true) ∧
      unmoved.eval c' = .ok (.bool true) := by
  intro env c c'
  have resolved : c.resolves unmoved [] = true := by decide
  have extended : c.ExtendsTo c' := by
    refine ⟨rfl, .total ⟨rfl, fun i v hi => ?_⟩, .further rfl fun i v hi => ?_, rfl⟩
    · match i with
      | 0 => cases hi
      | 1 | 2 =>
        cases hi
        rfl
    · match i with
      | 0 | 2 => cases hi
      | 1 => exact hi
  have heval : unmoved.eval c = .ok (.bool true) := by rfl
  exact ⟨resolved, extended, heval, (eval_stable_of_resolves resolved extended).1.trans heval⟩

end Expr

end ActionSystem
