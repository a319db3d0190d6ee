import Mathlib.Data.List.Forall2
import ActionSystem.Proofs.Result

/-!
# Computations side by side

Two computations that go through the same steps are compared by what relates their results, step by
step. The reasons for errors do not count. A comparison that is firm asks, moreover, that the first
computation has a result wherever the second one has. Lists are compared by their members.
-/

namespace ActionSystem

def SameMembers {α : Type} (xs ys : List α) : Prop := ∀ a, a ∈ xs ↔ a ∈ ys

theorem SameMembers.append {α : Type} {xs xs' ys ys' : List α} (h : SameMembers xs xs')
    (h' : SameMembers ys ys') : SameMembers (xs ++ ys) (xs' ++ ys') := by
  intro a
  rw [List.mem_append, List.mem_append, h, h']

namespace Result

variable {ε α β γ δ : Type} {firm : Prop}

/-- Where the second computation has a result, the results are related if the first one has a result
too, which it has if the comparison is `firm`. -/
def Matches (firm : Prop) (S : α → β → Prop) (x : Except ε α) (y : Except ε β) : Prop :=
  ∀ b, y = .ok b → (firm → ∃ a, x = .ok a) ∧ ∀ a, x = .ok a → S a b

namespace Matches

variable {S : α → β → Prop} {T : γ → δ → Prop} {x : Except ε α} {y : Except ε β}

theorem ok {a : α} {b : β} (h : S a b) : Matches firm S (.ok a : Except ε α) (.ok b) := by
  intro b' hb
  cases hb
  refine ⟨fun _ => ⟨a, rfl⟩, fun a' ha => ?_⟩
  cases ha
  exact h

theorem pure {a : α} {b : β} (h : S a b) :
    Matches firm S (Pure.pure a : Except ε α) (Pure.pure b) := ok h

theorem error {e : ε} : Matches firm S x (.error e) := by
  intro b hb
  cases hb

theorem bind {f : α → Except ε γ} {g : β → Except ε δ} (hxy : Matches firm S x y)
    (hfg : ∀ a b, S a b → Matches firm T (f a) (g b)) : Matches firm T (x >>= f) (y >>= g) := by
  intro d hd
  obtain ⟨b, hb, hd⟩ := bind_eq_ok.mp hd
  obtain ⟨hfirm, hrel⟩ := hxy b hb
  constructor
  · intro h
    obtain ⟨a, ha⟩ := hfirm h
    obtain ⟨c, hc⟩ := (hfg a b (hrel a ha) d hd).1 h
    exact ⟨c, bind_eq_ok.mpr ⟨a, ha, hc⟩⟩
  · intro c hc
    obtain ⟨a, ha, hc⟩ := bind_eq_ok.mp hc
    exact (hfg a b (hrel a ha) d hd).2 c hc

theorem imp {S' : α → β → Prop} (h : Matches firm S x y) (hS : ∀ a b, S a b → S' a b) :
    Matches firm S' x y :=
  fun b hb => ⟨(h b hb).1, fun a ha => hS a b ((h b hb).2 a ha)⟩

theorem refl (x : Except ε α) : Matches firm Eq x x :=
  fun b hb => ⟨fun _ => ⟨b, hb⟩, fun _ ha => Except.ok.inj (ha.symm.trans hb)⟩

-- The reasons for an error do not count.
theorem of_iff {x y : Except ε α} (h : ∀ a, x = .ok a ↔ y = .ok a) : Matches firm Eq x y :=
  fun b hb => ⟨fun _ => ⟨b, (h b).mpr hb⟩, fun a ha => Except.ok.inj (((h a).mp ha).symm.trans hb)⟩

theorem of_toOption_eq {x y : Except ε α} (h : x.toOption = y.toOption) : Matches firm Eq x y :=
  of_iff fun a => by rw [← toOption_eq_some, h, toOption_eq_some]

theorem of_forall (h : ∀ a b, x = .ok a → y = .ok b → S a b) : Matches False S x y :=
  fun b hb => ⟨False.elim, fun a ha => h a b ha hb⟩

theorem rel (h : Matches firm S x y) {a : α} {b : β} (ha : x = .ok a) (hb : y = .ok b) : S a b :=
  (h b hb).2 a ha

theorem exists_ok (h : Matches True S x y) {b : β} (hb : y = .ok b) : ∃ a, x = .ok a ∧ S a b := by
  obtain ⟨a, ha⟩ := (h b hb).1 trivial
  exact ⟨a, ha, h.rel ha hb⟩

theorem bind_eq {x y : Except ε α} {f : α → Except ε γ} {g : α → Except ε δ}
    (hxy : Matches firm Eq x y) (hfg : ∀ a, Matches firm T (f a) (g a)) :
    Matches firm T (x >>= f) (y >>= g) :=
  bind hxy fun a _ hab => hab ▸ hfg a

section Lists

variable {xs : List α} {f : α → Except ε γ} {g : α → Except ε δ} {p q : α → Except ε Bool}

theorem mapM (h : ∀ a ∈ xs, Matches firm T (f a) (g a)) :
    Matches firm (List.Forall₂ T) (xs.mapM f) (xs.mapM g) := by
  induction xs with
  | nil => exact pure .nil
  | cons a as ih =>
    obtain ⟨ha, has⟩ := List.forall_mem_cons.mp h
    rw [List.mapM_cons, List.mapM_cons]
    exact bind ha fun b c hbc => bind (ih has) fun bs cs hbcs => pure (.cons hbc hbcs)

theorem mapM_eq {f g : α → Except ε γ} (h : ∀ a ∈ xs, Matches firm Eq (f a) (g a)) :
    Matches firm Eq (xs.mapM f) (xs.mapM g) :=
  (mapM h).imp fun _ _ heq => List.forall₂_eq_eq_eq ▸ heq

theorem allM (h : ∀ a ∈ xs, Matches firm Eq (p a) (q a)) :
    Matches firm Eq (xs.allM p) (xs.allM q) := by
  induction xs with
  | nil => exact pure rfl
  | cons a as ih =>
    obtain ⟨ha, has⟩ := List.forall_mem_cons.mp h
    refine bind_eq ha fun b => ?_
    cases b with
    | true => exact ih has
    | false => exact pure rfl

theorem anyM (h : ∀ a ∈ xs, Matches firm Eq (p a) (q a)) :
    Matches firm Eq (xs.anyM p) (xs.anyM q) := by
  induction xs with
  | nil => exact pure rfl
  | cons a as ih =>
    obtain ⟨ha, has⟩ := List.forall_mem_cons.mp h
    refine bind_eq ha fun b => ?_
    cases b with
    | true => exact pure rfl
    | false => exact ih has

theorem findM? (h : ∀ a ∈ xs, Matches firm Eq (p a) (q a)) :
    Matches firm Eq (xs.findM? p) (xs.findM? q) := by
  induction xs with
  | nil => exact pure rfl
  | cons a as ih =>
    obtain ⟨ha, has⟩ := List.forall_mem_cons.mp h
    refine bind_eq ha fun b => ?_
    cases b with
    | true => exact pure rfl
    | false => exact ih has

theorem filterAuxM {kept : List α} (h : ∀ a ∈ xs, Matches firm Eq (p a) (q a)) :
    Matches firm Eq (xs.filterAuxM p kept) (xs.filterAuxM q kept) := by
  induction xs generalizing kept with
  | nil => exact pure rfl
  | cons a as ih =>
    obtain ⟨ha, has⟩ := List.forall_mem_cons.mp h
    exact bind_eq ha fun b => ih has

theorem filterM (h : ∀ a ∈ xs, Matches firm Eq (p a) (q a)) :
    Matches firm Eq (xs.filterM p) (xs.filterM q) :=
  bind_eq (filterAuxM h) fun _ => pure rfl

end Lists

end Matches

end Result

end ActionSystem
