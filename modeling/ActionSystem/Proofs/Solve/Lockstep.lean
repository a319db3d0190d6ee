import ActionSystem.Proofs.Eval.Replacement
import ActionSystem.Proofs.Solve.Combination
import ActionSystem.Proofs.Solve.Enumeration

/-!
# Searches side by side

Two relations that are solved for in the same order, and whose candidates say the same whenever one
of the variables is reached, are searched in step. They have the same solutions.
-/

namespace ActionSystem

open Result (Matches)

namespace Answers

variable {ε α β : Type} {f : β → Answers ε α} {bs : List β}

theorem collect_ofOption? (x : Except ε (Option α)) :
    (ofOption? x).collect = (do return (← x).toList) := by
  cases x with
  | error e => rfl
  | ok answer => cases answer <;> rfl

-- The answers for the items of a list can be collected if those for each of them can.
theorem exists_collect_forEach (h : ∀ b ∈ bs, ∃ found, (f b).collect = .ok found) :
    ∃ as, (forEach f bs).collect = .ok as := by
  induction bs with
  | nil => exact ⟨[], rfl⟩
  | cons b bs ih =>
    obtain ⟨⟨xs, hxs⟩, hbs⟩ := List.forall_mem_cons.mp h
    obtain ⟨ys, hys⟩ := ih hbs
    exact ⟨xs ++ ys, collect_append.mpr ⟨xs, ys, hxs, hys, rfl⟩⟩

end Answers

namespace Relation

variable {firm : Prop} {r : Relation} {body : Expr} {env : Env} {current : List Value}
  {slots : List (Option Value)} {order : List Nat} {p : Nat}

/-- The choices for a variable depend on what its candidates say. -/
theorem matches_choices (h : ∀ x, env.vars[p]? = some x → Matches firm Candidates.Same
      ((Unknown.mk x r.form).infer (r.partialContext env current slots) r.body
        (r.partialContext env current slots))
      ((Unknown.mk x r.form).infer (r.partialContext env current slots) body
        (r.partialContext env current slots))) :
    Matches firm SameMembers (r.choices env current slots p)
      ({ r with body }.choices env current slots p) := by
  have candidates : Matches firm Candidates.Same
      (r.body.candidates (r.partialContext env current slots) p r.form)
      (body.candidates (r.partialContext env current slots) p r.form) := by
    unfold Expr.candidates
    rw [env_partialContext]
    cases hx : env.vars[p]? with
    | some x => exact h x hx
    | none => exact .error
  refine .bind candidates fun a a' ha => ?_
  have members : ∀ xs : List Value, SameMembers xs xs := fun _ _ => .rfl
  cases a with
  | disabled =>
    rw [ha.disabled.mp rfl]
    exact .pure (members _)
  | unmentioned =>
    rw [ha.unmentioned.mp rfl]
    cases hform : r.form with
    | primed => exact .pure (members _)
    | unprimed => exact .error
  | constrained =>
    rw [ha.constrained.mp rfl]
    exact .error
  | values vs =>
    cases a' with
    | disabled => cases ha.disabled.mpr rfl
    | unmentioned => cases ha.unmentioned.mpr rfl
    | constrained => cases ha.constrained.mpr rfl
    | values vs' => exact .pure ha.lists

theorem matches_accept (h : ∀ c, Matches firm Eq (r.body.eval c) (body.eval c)) :
    Matches firm Eq (r.accept env current slots) ({ r with body }.accept env current slots) := by
  unfold accept
  cases complete? slots with
  | none => exact .refl _
  | some values => exact .bind_eq (Expr.matches_holds (h _)) fun b => .refl _

/-- A relation can be searched in step with the one that has another body. What is known of the
variables has the property `seen` all along. -/
structure InStep (firm : Prop) (r : Relation) (body : Expr) (env : Env) (current : List Value)
    (seen : List (Option Value) → Prop) : Prop where
  eval : ∀ c, Matches firm Eq (r.body.eval c) (body.eval c)
  choices : ∀ {slots p}, seen slots → slots[p]? = some none →
    Matches firm SameMembers (r.choices env current slots p)
      ({ r with body }.choices env current slots p)
  start : seen (List.replicate env.vars.length none)
  step : ∀ {slots p vs v}, seen slots → slots[p]? = some none →
    { r with body }.choices env current slots p = .ok vs → v ∈ vs → seen (slots.set p (some v))

variable {seen : List (Option Value) → Prop}

theorem InStep.matches_search (h : InStep firm r body env current seen) (nodup : order.Nodup)
    (hseen : seen slots) (pending : ∀ p, slots[p]? = some none ↔ p ∈ order) :
    Matches firm SameMembers (r.search env current order slots).collect
      ({ r with body }.search env current order slots).collect := by
  induction order generalizing slots with
  | nil =>
    unfold search
    rw [Answers.collect_ofOption?, Answers.collect_ofOption?]
    exact .bind_eq (matches_accept h.eval) fun answer => .pure fun _ => .rfl
  | cons p rest ih =>
    obtain ⟨hp, hrest⟩ := List.nodup_cons.mp nodup
    have hpending : slots[p]? = some none := (pending p).mpr List.mem_cons_self
    intro found' h'
    obtain ⟨vs', hvs', hlater', hfound'⟩ := mem_search_cons h'
    obtain ⟨hfirm, hrel⟩ := h.choices hseen hpending vs' hvs'
    have later : ∀ v ∈ vs', Matches firm SameMembers
        (r.search env current rest (slots.set p (some v))).collect
        ({ r with body }.search env current rest (slots.set p (some v))).collect := fun v hv =>
      ih hrest (h.step hseen hpending hvs' hv) (pending_set hp pending v)
    constructor
    · intro hf
      obtain ⟨vs, hvs⟩ := hfirm hf
      unfold search
      rw [hvs]
      refine Answers.exists_collect_forEach fun v hv => ?_
      have hv' := (hrel vs hvs v).mp hv
      obtain ⟨found, hfound⟩ := hlater' v hv'
      exact (later v hv' found hfound).1 hf
    · intro found hsearch values
      obtain ⟨vs, hvs, hlater, hfound⟩ := mem_search_cons hsearch
      rw [hfound, hfound']
      constructor
      · rintro ⟨v, hv, xs, hxs, hmem⟩
        have hv' := (hrel vs hvs v).mp hv
        obtain ⟨ys, hys⟩ := hlater' v hv'
        exact ⟨v, hv', ys, hys, ((later v hv').rel hxs hys values).mp hmem⟩
      · rintro ⟨v, hv', ys, hys, hmem⟩
        have hv := (hrel vs hvs v).mpr hv'
        obtain ⟨xs, hxs⟩ := hlater v hv
        exact ⟨v, hv, xs, hxs, ((later v hv').rel hxs hys values).mpr hmem⟩

/-- Relations that are searched in step have the same solutions. -/
theorem InStep.matches_states (h : InStep firm r body env current seen)
    (ordered : r.IsOrdered env) :
    Matches firm Eq (r.states env current) ({ r with body }.states env current) := by
  have hsearch := h.matches_search ordered.nodup h.start ordered.pending_replicate
  unfold states
  rw [assignments_eq_search ordered.nodup,
    assignments_eq_search (r := { r with body }) ordered.nodup]
  refine .bind hsearch fun found found' hfound => .pure ?_
  refine Sorted.eq_of_increasing (Sorted.increasing_ofList _) (Sorted.increasing_ofList _) ?_
  intro s
  simp only [Sorted.mem_ofList, List.mem_map, hfound _]

-- With another body that is solved in the same order, a relation is the same up to its body.
theorem action_eq {name : String} {body body' : Expr} {vars : List String}
    (h : body.solvingOrder vars .primed = body'.solvingOrder vars .primed) :
    action name body' vars = { action name body vars with body := body' } := by
  unfold action
  rw [h]

theorem initial_eq {body body' : Expr} {vars : List String}
    (h : body.solvingOrder vars .unprimed = body'.solvingOrder vars .unprimed) :
    initial body' vars = { initial body vars with body := body' } := by
  unfold initial
  rw [h]

end Relation

end ActionSystem
