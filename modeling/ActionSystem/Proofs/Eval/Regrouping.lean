import Mathlib.Data.List.Basic
import Mathlib.Logic.Relation
import ActionSystem.Proofs.Eval.Meaning

/-!
# Regrouped expressions

Conjunctions and disjunctions may be put into another order and nested in another way, and the
sides of an equation may be swapped, anywhere in an expression. Its meaning stays as it is.
-/

namespace ActionSystem.Expr

/-! ## Other parts -/

def withParts : Expr → List Expr → Expr
  | unary s op _, [e] => unary s op e
  | logical s op _ _, [l, r] => logical s op l r
  | binary s op _ _, [l, r] => binary s op l r
  | range s _ _, [lo, hi] => range s lo hi
  | set s _, es => set s es
  | seq s _, es => seq s es
  | record s fs, es => record s ((fs.map (·.1)).zip es)
  | apply s _ _, [f, a] => apply s f a
  | field s _ x, [r] => field s r x
  | except s _ _ _, [f, k, v] => except s f k v
  | append s _ _, [q, x] => append s q x
  | bind s b x _ _, [d, e] => bind s b x d e
  | letIn s x _ _, [v, e] => letIn s x v e
  | ite s _ _ _, [c, t, e] => ite s c t e
  | e, _ => e

variable {e e' p q : Expr} {ps : List Expr}

theorem parts_withParts (h : ps.length = e.parts.length) : (e.withParts ps).parts = ps := by
  cases e with
  | literal s l | name s x | primed s x | unchanged s xs =>
    exact (List.length_eq_zero_iff.mp h).symm
  | set s es | seq s es => rfl
  | record s fs =>
    rw [parts, List.length_map] at h
    simp [withParts, parts, List.map_snd_zip, h]
  | unary s op e | field s e x =>
    obtain ⟨p, rfl⟩ := List.length_eq_one_iff.mp h
    rfl
  | logical s op l r | binary s op l r | range s l r | apply s l r | append s l r
  | bind s b x l r | letIn s x l r =>
    obtain ⟨p, q, rfl⟩ := List.length_eq_two.mp h
    rfl
  | except s f k v | ite s f k v =>
    obtain ⟨p, q, r, rfl⟩ := List.length_eq_three.mp h
    rfl

/-! ## Regrouping -/

/-- One step of regrouping. The places where the expressions stand do not count. -/
inductive Regroups : Expr → Expr → Prop where
  | commute {s t op l r} (h : op ≠ .implies) : Regroups (logical s op l r) (logical t op r l)
  | associate {s₁ s₂ t₁ t₂ op a b c} (h : op ≠ .implies) :
      Regroups (logical s₁ op (logical s₂ op a b) c) (logical t₁ op a (logical t₂ op b c))
  | swap {s t l r} : Regroups (binary s .eq l r) (binary t .eq r l)
  | move {e : Expr} {s : Span} : Regroups e (e.withSpan s)
  | inside {e p q : Expr} {i : Nat} (part : e.parts[i]? = some p) (regroups : Regroups p q) :
      Regroups e (e.withParts (e.parts.set i q))

/-- Any number of steps of regrouping, forwards or backwards. -/
def Regrouped : Expr → Expr → Prop := Relation.EqvGen Regroups

theorem Regroups.regrouped (h : Regroups e e') : e.Regrouped e' := .rel _ _ h

theorem Regrouped.symm (h : e.Regrouped e') : e'.Regrouped e := Relation.EqvGen.symm _ _ h

theorem Regrouped.trans (h : e.Regrouped p) (h' : p.Regrouped q) : e.Regrouped q :=
  Relation.EqvGen.trans _ _ _ h h'

section

variable {s : Span} {op : Connective} {a b c l r : Expr}

theorem Regrouped.comm (h : op ≠ .implies) : (logical s op l r).Regrouped (logical s op r l) :=
  (Regroups.commute h).regrouped

theorem Regrouped.assoc (h : op ≠ .implies) :
    (logical s op (logical s op a b) c).Regrouped (logical s op a (logical s op b c)) :=
  (Regroups.associate h).regrouped

theorem Regrouped.swap : (binary s .eq l r).Regrouped (binary s .eq r l) := Regroups.swap.regrouped

theorem Regrouped.left (h : p.Regrouped q) :
    (logical s op p r).Regrouped (logical s op q r) := by
  induction h with
  | rel p q h =>
    have part : (logical s op p r).parts[0]? = some p := rfl
    exact (Regroups.inside part h).regrouped
  | refl p => exact .refl _
  | symm p q _ ih => exact ih.symm
  | trans _ _ _ _ _ ih ih' => exact ih.trans ih'

theorem Regrouped.right (h : p.Regrouped q) :
    (logical s op l p).Regrouped (logical s op l q) := by
  induction h with
  | rel p q h =>
    have part : (logical s op l p).parts[1]? = some p := rfl
    exact (Regroups.inside part h).regrouped
  | refl p => exact .refl _
  | symm p q _ ih => exact ih.symm
  | trans _ _ _ _ _ ih ih' => exact ih.trans ih'

end

/-- What no step changes is the same for regrouped expressions. -/
theorem Regrouped.eq_of_step {α : Sort*} {F : Expr → α} (h : e.Regrouped e')
    (step : ∀ {e e'}, Regroups e e' → F e = F e') : F e = F e' := by
  induction h with
  | rel e e' h => exact step h
  | refl e => rfl
  | symm e e' _ ih => exact ih.symm
  | trans e e' e'' _ _ ih ih' => exact ih.trans ih'

-- A step inside an expression leaves its parts as they are in whatever the step does not change.
theorem map_set_eq {α : Type*} {F : Expr → α} {i : Nat} (part : e.parts[i]? = some p)
    (h : F p = F q) : (e.parts.set i q).map F = e.parts.map F := by
  refine List.ext_getElem? fun j => ?_
  rw [List.getElem?_map, List.getElem?_map]
  by_cases hij : i = j
  · obtain ⟨hlt, -⟩ := List.getElem?_eq_some_iff.mp part
    rw [← hij, List.getElem?_set_self hlt, part, Option.map_some, Option.map_some, h]
  · rw [List.getElem?_set_ne hij]

/-! ## Meaning -/

theorem meaningAll_congr {es : List Expr} (h : ps.map meaning = es.map meaning) :
    meaningAll ps = meaningAll es := by
  induction es generalizing ps with
  | nil =>
    rw [List.map_eq_nil_iff.mp h]
  | cons e es ih =>
    obtain ⟨p, qs, rfl, hp, hqs⟩ := List.map_eq_cons_iff.mp h
    funext c
    simp only [meaningAll, hp, ih hqs]

theorem meaningFields_congr {fs : List (String × Expr)}
    (h : ps.map meaning = (fs.map (·.2)).map meaning) :
    meaningFields ((fs.map (·.1)).zip ps) = meaningFields fs := by
  induction fs generalizing ps with
  | nil => rfl
  | cons f fs ih =>
    obtain ⟨p, qs, rfl, hp, hqs⟩ := List.map_eq_cons_iff.mp h
    funext c
    simp only [List.map_cons, List.zip_cons_cons, meaningFields, hp, ih hqs]

/-- Only the meaning of its parts counts for the meaning of an expression. -/
theorem meaning_withParts (h : ps.map meaning = e.parts.map meaning) :
    (e.withParts ps).meaning = e.meaning := by
  funext c
  cases e with
  | literal s l | name s x | primed s x | unchanged s xs => rfl
  | set s es | seq s es =>
    rw [withParts, meaning, meaning, meaningAll_congr h]
    rfl
  | record s fs => simp only [withParts, meaning, meaningFields_congr h]
  | unary s op e | field s e x =>
    obtain ⟨p, _, rfl, hp, hnil⟩ := List.map_eq_cons_iff.mp h
    cases List.map_eq_nil_iff.mp hnil
    simp only [withParts, meaning, hp]
  | logical s op l r | binary s op l r | range s l r | apply s l r | append s l r
  | bind s b x l r | letIn s x l r =>
    simp only [parts, List.map_cons, List.map_nil, List.map_eq_cons_iff, List.map_eq_nil_iff] at h
    obtain ⟨l', _, rfl, hl, r', _, rfl, hr, rfl⟩ := h
    simp only [withParts, meaning, hl, hr]
  | except s f k v | ite s f k v =>
    simp only [parts, List.map_cons, List.map_nil, List.map_eq_cons_iff, List.map_eq_nil_iff] at h
    obtain ⟨f', _, rfl, hf, k', _, rfl, hk, v', _, rfl, hv, rfl⟩ := h
    simp only [withParts, meaning, hf, hk, hv]

theorem meaning_withSpan {s : Span} : (e.withSpan s).meaning = e.meaning := by
  cases e <;> rfl

theorem Regroups.meaning_eq (h : Regroups e e') : e.meaning = e'.meaning := by
  induction h with
  | commute h =>
    funext c
    simp only [meaning, Connective.weigh_comm h]
  | @associate s₁ s₂ t₁ t₂ op a b d h =>
    funext c
    simp only [meaning_logical, truth?_logical, Connective.weigh_assoc h]
  | @swap s t l r =>
    funext c
    rw [meaning, meaning]
    cases l.meaning c with
    | none => cases r.meaning c <;> rfl
    | some v =>
      cases r.meaning c with
      | none => rfl
      | some w =>
        show some (Value.bool (v = w)) = some (Value.bool (w = v))
        simp only [eq_comm]
  | move => exact meaning_withSpan.symm
  | inside part regroups ih => exact (meaning_withParts (map_set_eq part ih)).symm

/-- Regrouped expressions mean the same. -/
theorem Regrouped.meaning_eq (h : e.Regrouped e') : e.meaning = e'.meaning :=
  h.eq_of_step fun h => h.meaning_eq

end ActionSystem.Expr
