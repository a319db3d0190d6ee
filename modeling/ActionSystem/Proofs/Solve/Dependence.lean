import ActionSystem.Expr.SolvingOrder
import ActionSystem.Proofs.Eval.Replacement
import ActionSystem.Proofs.Solve.Framing

/-!
# Dependencies of parts

Which variables depend on which ones is read off the parts of an expression, each together with the
context that it stands in. How often a dependency is found, and where, does not count for the
solving order.
-/

namespace ActionSystem.Expr

variable {vars bound : List String} {form : Form} {e e' : Expr} {ps : List Expr}

theorem mem_targetsIn {v : Nat} : v ∈ targetsIn vars form bound e ↔
    ∃ r ∈ e.references bound, ∃ x ∈ r.names form, position? vars x = some v := by
  simp only [targetsIn, List.mem_filterMap, mem_namesIn]
  exact ⟨fun ⟨x, ⟨r, hr, hx⟩, hv⟩ => ⟨r, hr, x, hx, hv⟩,
    fun ⟨r, hr, x, hx, hv⟩ => ⟨x, ⟨r, hr, hx⟩, hv⟩⟩

/-- Below binders of the names `bound`, the expressions are the same variable or none, refer to the
same variables and contain the same dependencies. -/
structure DependAlike (vars : List String) (form : Form) (bound : List String)
    (e e' : Expr) : Prop where
  target : target? vars form bound e = target? vars form bound e'
  targets : SameMembers (targetsIn vars form bound e) (targetsIn vars form bound e')
  deps : ∀ {context context'}, SameMembers context context' →
    SameMembers (dependencies vars form e bound context)
      (dependencies vars form e' bound context')

theorem target?_withParts :
    target? vars form bound (e.withParts ps) = target? vars form bound e := by
  unfold withParts
  split <;> rfl

theorem sameMembers_definedBy {side side' other other' : Expr} {context context' : List Nat}
    (hside : target? vars form bound side = target? vars form bound side')
    (hother : SameMembers (targetsIn vars form bound other) (targetsIn vars form bound other'))
    (hcontext : SameMembers context context') :
    SameMembers (definedBy vars form bound context side other)
      (definedBy vars form bound context' side' other') := by
  unfold definedBy
  rw [hside]
  cases target? vars form bound side' with
  | none => exact fun _ => .rfl
  | some v =>
    intro d
    simp only [List.mem_map, hother.append hcontext _]

theorem DependAlike.withParts (h : e.Paired (fun b => DependAlike vars form (b ++ bound)) ps) :
    DependAlike vars form bound e (e.withParts ps) where
  target := target?_withParts.symm
  targets v := by
    rw [mem_targetsIn, mem_targetsIn]
    refine exists_reference_withParts (h.imp fun b p q hpq => ?_)
    rw [← mem_targetsIn, ← mem_targetsIn]
    exact hpq.targets v
  deps {context context'} hcontext := by
    cases e with
    | literal s l | name s x | primed s x | unchanged s xs | set s es | seq s es | record s fs =>
      exact fun _ => .rfl
    | field s l x =>
      obtain ⟨l', rfl⟩ := List.length_eq_one_iff.mp h.length
      exact fun _ => .rfl
    | unary s op l =>
      obtain ⟨l', rfl⟩ := List.length_eq_one_iff.mp h.length
      have hl : DependAlike vars form bound l l' := h.rel (i := 0) rfl rfl
      cases op with
      | not | neg => exact hl.deps hcontext
      | _ => exact fun _ => .rfl
    | range s l r | apply s l r | append s l r =>
      obtain ⟨l', r', rfl⟩ := List.length_eq_two.mp h.length
      exact fun _ => .rfl
    | except s f k v =>
      obtain ⟨f', k', v', rfl⟩ := List.length_eq_three.mp h.length
      exact fun _ => .rfl
    | logical s op l r =>
      obtain ⟨l', r', rfl⟩ := List.length_eq_two.mp h.length
      have hl : DependAlike vars form bound l l' := h.rel (i := 0) rfl rfl
      have hr : DependAlike vars form bound r r' := h.rel (i := 1) rfl rfl
      exact (hl.deps hcontext).append (hr.deps hcontext)
    | binary s op l r =>
      obtain ⟨l', r', rfl⟩ := List.length_eq_two.mp h.length
      have hl : DependAlike vars form bound l l' := h.rel (i := 0) rfl rfl
      have hr : DependAlike vars form bound r r' := h.rel (i := 1) rfl rfl
      cases op with
      | eq =>
        exact (sameMembers_definedBy hl.target hr.targets hcontext).append
          (sameMembers_definedBy hr.target hl.targets hcontext)
      | mem => exact sameMembers_definedBy hl.target hr.targets hcontext
      | iff => exact (hl.deps hcontext).append (hr.deps hcontext)
      | _ => exact fun _ => .rfl
    | ite s p y n =>
      obtain ⟨p', y', n', rfl⟩ := List.length_eq_three.mp h.length
      have hp : DependAlike vars form bound p p' := h.rel (i := 0) rfl rfl
      have hy : DependAlike vars form bound y y' := h.rel (i := 1) rfl rfl
      have hn : DependAlike vars form bound n n' := h.rel (i := 2) rfl rfl
      have hunder := hp.targets.append hcontext
      exact (hy.deps hunder).append (hn.deps hunder)
    | bind s b x d body =>
      obtain ⟨d', body', rfl⟩ := List.length_eq_two.mp h.length
      have hd : DependAlike vars form bound d d' := h.rel (i := 0) rfl rfl
      have hbody : DependAlike vars form (x :: bound) body body' := h.rel (i := 1) rfl rfl
      cases b with
      | all | any => exact hbody.deps (hd.targets.append hcontext)
      | _ => exact fun _ => .rfl
    | letIn s x v body =>
      obtain ⟨v', body', rfl⟩ := List.length_eq_two.mp h.length
      have hv : DependAlike vars form bound v v' := h.rel (i := 0) rfl rfl
      have hbody : DependAlike vars form (x :: bound) body body' := h.rel (i := 1) rfl rfl
      exact hbody.deps (hv.targets.append hcontext)

theorem DependAlike.refl (e : Expr) : DependAlike vars form bound e e := by
  induction e using of_parts generalizing bound with
  | step e ih =>
    have hparts : e.Paired (fun b => DependAlike vars form (b ++ bound)) e.parts := by
      refine ⟨rfl, fun {i p q} hp hq => ?_⟩
      cases hp.symm.trans hq
      exact ih p (List.mem_of_getElem? hp)
    have h := DependAlike.withParts hparts
    rw [withParts_parts] at h
    exact h

theorem arrange_congr {deps deps' : List Dependency} (h : SameMembers deps deps') (turns : Nat)
    (left : List Nat) : arrange deps turns left = arrange deps' turns left := by
  have hready : isReady deps = isReady deps' := by
    funext left v
    rw [Bool.eq_iff_iff, isReady, isReady, List.all_eq_true, List.all_eq_true]
    exact forall_congr' fun d => by rw [h d]
  induction turns generalizing left with
  | zero => rfl
  | succ turns ih =>
    unfold arrange
    rw [hready]
    cases left.find? (isReady deps' left) with
    | none => rfl
    | some v => exact congrArg (v :: ·) (ih _)

/-- The variables of expressions with the same dependencies are solved for in the same order. -/
theorem DependAlike.solvingOrder_eq (h : DependAlike vars form [] e e') :
    e.solvingOrder vars form = e'.solvingOrder vars form :=
  arrange_congr (h.deps fun _ => .rfl) _ _

end ActionSystem.Expr
