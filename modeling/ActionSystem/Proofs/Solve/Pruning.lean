import ActionSystem.Proofs.Solve.Indifference
import ActionSystem.Proofs.Solve.Solutions

/-!
# Soundness of pruning

The search for assignments goes no further where a relation is found to be disabled. Nothing is lost
there: the values chosen so far cannot be completed to an assignment that satisfies the relation,
whatever the shape of the relation and whatever binders it stands below.
-/

namespace ActionSystem

structure Completes (values : List Value) (slots : List (Option Value)) : Prop where
  width : values.length = slots.length
  kept : ∀ (i : Nat) (v : Value), slots[i]? = some (some v) → values[i]? = some v

namespace Completes

variable {values : List Value} {slots : List (Option Value)}

theorem filledBy (h : Completes values slots) :
    (Slots.solving slots).FilledBy (.total values) := by
  intro i settled
  show values[i]? = slots[i]?.join
  cases hslot : slots[i]? with
  | none =>
    have hlen : slots.length ≤ i := List.getElem?_eq_none_iff.mp hslot
    exact List.getElem?_eq_none (h.width ▸ hlen)
  | some slot =>
    cases slot with
    | none =>
      have hpending : (Slots.solving slots).isPending i = true := decide_eq_true hslot
      rw [settled] at hpending
      cases hpending
    | some v => exact h.kept i v hslot

end Completes

namespace Context

variable {c : Context} {form : Form}

def withSolved (c : Context) (form : Form) (s : Slots) : Context :=
  match form with
  | .primed => { c with next := s }
  | .unprimed => { c with current := s }

@[simp] theorem withSolved_env (c : Context) (form : Form) (s : Slots) :
    (c.withSolved form s).env = c.env := by
  cases form <;> rfl

@[simp] theorem withSolved_locals (c : Context) (form : Form) (s : Slots) :
    (c.withSolved form s).locals = c.locals := by
  cases form <;> rfl

-- The other state and the binders stay as they are.
theorem filledBy_withSolved (c : Context) (form : Form) {s t : Slots} (fill : s.FilledBy t) :
    (c.withSolved form s).FilledBy (c.withSolved form t) where
  env := by simp
  current := by
    cases form with
    | primed => exact .refl _
    | unprimed => exact fill
  next := by
    cases form with
    | primed => exact fill
    | unprimed => exact .refl _
  locals := by simp

end Context

namespace Expr

variable {e : Expr} {c c' : Context} {form : Form} {i : Nat}

/-- A disabled relation is not true, however the pending variables are filled in. -/
theorem not_means_of_disabled (h : e.candidates c i form = .ok .disabled) (fill : c.FilledBy c') :
    ¬ e.Means c' := by
  unfold candidates at h
  cases hx : c.env.vars[i]? with
  | none =>
    rw [hx] at h
    cases h
  | some x =>
    rw [hx] at h
    exact (Unknown.infers_of_infer h).not_means Candidates.barren_disabled fill
      (Env.isSome_variableIndex? hx)

/-- Where a relation is disabled, evaluation finds it true of no completion of what is known. -/
theorem holds_ne_true_of_disabled {slots : List (Option Value)} {values : List Value}
    (disabled : e.candidates (c.withSolved form (.solving slots)) i form = .ok .disabled)
    (complete : Completes values slots) :
    e.holds (c.withSolved form (.total values)) ≠ .ok true := by
  have fill := c.filledBy_withSolved form complete.filledBy
  intro holds
  exact not_means_of_disabled disabled fill (meaning_of_holds holds)

/-- The action `(\E i \in {1, 2} : i > k /\ x' = i) \/ (y' = 4 /\ x' \in {k})` -/
def guarded : Expr :=
  .logical .none .or
    (.bind .none .any "i" (.set .none [.literal .none (.int 1), .literal .none (.int 2)])
      (.logical .none .and (.binary .none .gt (.name .none "i") (.name .none "k"))
        (.binary .none .eq (.primed .none "x") (.name .none "i"))))
    (.logical .none .and
      (.binary .none .eq (.primed .none "y") (.literal .none (.int 4)))
      (.binary .none .mem (.primed .none "x") (.set .none [.name .none "k"])))

-- `k` is bound to `3` and `y'` to `5`, so that each alternative has a guard that is false.
theorem holds_ne_true_of_disabled_guarded :
    let c : Context := ⟨{ vars := ["x", "y"] }, .total [.int 0, .int 0], .absent, [("k", .int 3)]⟩
    guarded.candidates (c.withSolved .primed (.solving [none, some (.int 5)])) 0 .primed =
        .ok .disabled ∧
      Completes [.int 3, .int 5] [none, some (.int 5)] ∧
      guarded.holds (c.withSolved .primed (.total [.int 3, .int 5])) ≠ .ok true := by
  intro c
  have disabled : guarded.candidates (c.withSolved .primed (.solving [none, some (.int 5)])) 0
      .primed = .ok .disabled := by cbv
  have complete : Completes [.int 3, .int 5] [none, some (.int 5)] := by
    refine ⟨rfl, fun i v hi => ?_⟩
    cases i with
    | zero => cases hi
    | succ i =>
      cases i with
      | zero =>
        cases hi
        rfl
      | succ i => cases hi
  exact ⟨disabled, complete, holds_ne_true_of_disabled disabled complete⟩

end Expr

end ActionSystem
