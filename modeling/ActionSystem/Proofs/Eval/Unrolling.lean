import ActionSystem.Proofs.Eval.Replacement
import ActionSystem.Proofs.Eval.Truth

/-!
# Unrolled quantifiers

A quantifier over the elements of a set that are written out has the value of local definitions, one
for each element, that are combined by a connective.
-/

namespace ActionSystem

open Result (Matches)

namespace Expr

/-- Local definitions of `k` as each of the expressions, all above the same body, are combined by a
connective, nested in one way or another. -/
inductive Unrolled (op : Connective) (k : String) (body : Expr) : List Expr → Expr → Prop where
  | one {s e} : Unrolled op k body [e] (letIn s k e body)
  | more {s es fs l r} (left : Unrolled op k body es l) (right : Unrolled op k body fs r) :
      Unrolled op k body (es ++ fs) (logical s op l r)

def unroll (op : Connective) (k : String) (body e : Expr) : List Expr → Expr
  | [] => letIn .none k e body
  | e' :: es => logical .none op (letIn .none k e body) (unroll op k body e' es)

theorem unrolled_unroll (op : Connective) (k : String) (body e : Expr) (es : List Expr) :
    Unrolled op k body (e :: es) (unroll op k body e es) := by
  induction es generalizing e with
  | nil => exact .one
  | cons e' es ih => exact .more .one (ih e')

variable {c : Context} {s t : Span} {op : Connective} {k : String} {body e' l r : Expr}
  {es fs : List Expr} {ws : List Value} {v w : Value} {b : Bool}

theorem evalAll_eq_mapM : evalAll es c = es.mapM (·.eval c) := by
  induction es with
  | nil => rfl
  | cons e es ih => rw [evalAll, List.mapM_cons, ih]

theorem evalAll_append_eq_ok : evalAll (es ++ fs) c = .ok ws ↔
    ∃ us vs, evalAll es c = .ok us ∧ evalAll fs c = .ok vs ∧ us ++ vs = ws := by
  simp only [evalAll_eq_mapM, List.mapM_append, Result.bind_eq_ok, Result.pure_eq_ok]
  constructor
  · rintro ⟨us, hus, vs, hvs, h⟩
    exact ⟨us, vs, hus, hvs, h⟩
  · rintro ⟨us, vs, hus, hvs, h⟩
    exact ⟨us, hus, vs, hvs, h⟩

theorem evalAll_singleton_eq_ok {e : Expr} :
    evalAll [e] c = .ok ws ↔ ∃ w, e.eval c = .ok w ∧ [w] = ws := by
  simp only [evalAll, Result.bind_eq_ok, Result.pure_eq_ok]
  constructor
  · rintro ⟨w, hw, _, hnil, h⟩
    exact ⟨w, hw, Except.ok.inj hnil ▸ h⟩
  · rintro ⟨w, hw, h⟩
    exact ⟨w, hw, [], rfl, h⟩

-- The items of a set that is written out are the values of its elements.
theorem domain_set {items : List Value} (h : (set t es).domain c = .ok items) :
    ∃ ws, evalAll es c = .ok ws ∧ SameMembers ws items := by
  simp only [domain, eval, Result.bind_eq_ok, Result.pure_eq_ok] at h
  obtain ⟨_, ⟨ws, hws, rfl⟩, hitems⟩ := h
  cases hitems
  exact ⟨ws, hws, fun v => Sorted.mem_ofList.symm⟩

namespace Unrolled

theorem mem_references (h : Unrolled op k body es e') {r : Reference} {bound : List String} :
    r ∈ e'.references bound ↔ r ∈ referencesAll es bound ∨ r ∈ body.references (k :: bound) := by
  induction h with
  | one => simp [references, referencesAll]
  | more _ _ ihl ihr =>
    simp only [references, List.mem_append, ihl, ihr, mem_referencesAll, or_and_right, exists_or]
    exact or_or_distrib_right.symm

-- The value that decides the connective is found if the body has it for one of the elements.
theorem eval_of_mem (h : Unrolled op k body es e') (decided : op.decided? b = some b)
    (undecided : op.decided? (!b) = none) (hws : evalAll es c = .ok ws) (hv : e'.eval c = .ok v)
    (hw : w ∈ ws) (holds : body.holds (c.bind k w) = .ok b) : v = .bool b := by
  induction h generalizing ws v with
  | one =>
    obtain ⟨w', hw', rfl⟩ := evalAll_singleton_eq_ok.mp hws
    rw [List.mem_singleton.mp hw, holds_eq_ok] at holds
    simp only [eval, hw'] at hv
    exact Except.ok.inj (hv.symm.trans holds)
  | more left right ihl ihr =>
    obtain ⟨us, vs, hus, hvs, rfl⟩ := evalAll_append_eq_ok.mp hws
    obtain ⟨q, rfl⟩ := eval_logical_eq_bool hv
    obtain ⟨p, hp, hq⟩ := eval_logical_eq_ok.mp hv
    rw [holds_eq_ok] at hp
    rcases List.mem_append.mp hw with hw | hw
    · cases ihl hus hp hw
      rcases hq with hq | ⟨hq, -⟩
      · cases decided.symm.trans hq
        rfl
      · cases decided.symm.trans hq
    · rcases hq with hq | ⟨-, hr⟩
      · by_cases hpb : p = b
        · cases hpb
          cases decided.symm.trans hq
          rfl
        · rw [Bool.eq_not_of_ne hpb, undecided] at hq
          cases hq
      · exact ihr hvs (holds_eq_ok.mp hr) hw

-- The other value is found if the body has it for all elements.
theorem eval_of_forall (h : Unrolled op k body es e') (undecided : op.decided? b = none)
    (hws : evalAll es c = .ok ws) (hv : e'.eval c = .ok v)
    (holds : ∀ w ∈ ws, body.holds (c.bind k w) = .ok b) : v = .bool b := by
  induction h generalizing ws v with
  | one =>
    obtain ⟨w, hw, rfl⟩ := evalAll_singleton_eq_ok.mp hws
    have hbody := holds_eq_ok.mp (holds w (List.mem_singleton_self w))
    simp only [eval, hw] at hv
    exact Except.ok.inj (hv.symm.trans hbody)
  | more left right ihl ihr =>
    obtain ⟨us, vs, hus, hvs, rfl⟩ := evalAll_append_eq_ok.mp hws
    obtain ⟨hleft, hright⟩ := List.forall_mem_append.mp holds
    obtain ⟨q, rfl⟩ := eval_logical_eq_bool hv
    obtain ⟨p, hp, hq⟩ := eval_logical_eq_ok.mp hv
    cases ihl hus (holds_eq_ok.mp hp) hleft
    rcases hq with hq | ⟨-, hr⟩
    · cases undecided.symm.trans hq
    · exact ihr hvs (holds_eq_ok.mp hr) hright

end Unrolled

def connective? : Binder → Option Connective
  | .any => some .or
  | .all => some .and
  | _ => none

/-- A quantifier and its unrolling have the same value, as far as they have values. -/
theorem Unrolled.matches_eval {q : Binder} (h : Unrolled op k body es e')
    (hq : connective? q = some op) :
    Matches False Eq ((bind s q k (set t es) body).eval c) (e'.eval c) := by
  refine .of_forall fun v v' hv hv' => ?_
  obtain ⟨items, hitems⟩ := exists_domain_of_eval_bind hv
  obtain ⟨ws, hws, hmem⟩ := domain_set hitems
  cases q with
  | any =>
    cases hq
    rw [eval_any hitems, Result.bind_eq_ok] at hv
    obtain ⟨b, hb, ⟨⟩⟩ := hv
    cases b with
    | true =>
      obtain ⟨w, hw, holds⟩ := Result.exists_of_anyM hb
      exact (h.eval_of_mem rfl rfl hws hv' ((hmem w).mpr hw) holds).symm
    | false =>
      have holds := Result.forall_of_anyM hb
      exact (h.eval_of_forall rfl hws hv' fun w hw => holds w ((hmem w).mp hw)).symm
  | all =>
    cases hq
    rw [eval_all hitems, Result.bind_eq_ok] at hv
    obtain ⟨b, hb, ⟨⟩⟩ := hv
    cases b with
    | true =>
      have holds := Result.forall_of_allM hb
      exact (h.eval_of_forall rfl hws hv' fun w hw => holds w ((hmem w).mp hw)).symm
    | false =>
      obtain ⟨w, hw, holds⟩ := Result.exists_of_allM hb
      exact (h.eval_of_mem rfl rfl hws hv' ((hmem w).mpr hw) holds).symm
  | _ => cases hq

end Expr

end ActionSystem
