import ActionSystem.Value.Basic

/-!
# The order of values is total

Comparison of values is oriented and transitive, at any depth of nesting; with the lemmas of
`Basic` it is a linear order whose equality is that of values. The order of the entries of a
function by their keys inherits both laws.
-/

namespace ActionSystem.Value

/-! ## Orientation -/

theorem cmp_swap_of_kind_ne {a b : Value} (h : a.kind ≠ b.kind) : (cmp a b).swap = cmp b a := by
  rw [cmp_of_kind_ne h, cmp_of_kind_ne h.symm]
  exact Std.OrientedOrd.eq_swap.symm

mutual

theorem cmp_swap : (a b : Value) → (cmp a b).swap = cmp b a
  | .bool a, b => by
    cases b with
    | bool b => simpa only [cmp] using Std.OrientedOrd.eq_swap.symm
    | _ => exact cmp_swap_of_kind_ne (by simp [kind])
  | .int a, b => by
    cases b with
    | int b => simpa only [cmp] using Std.OrientedOrd.eq_swap.symm
    | _ => exact cmp_swap_of_kind_ne (by simp [kind])
  | .str a, b => by
    cases b with
    | str b => simpa only [cmp] using Std.OrientedOrd.eq_swap.symm
    | _ => exact cmp_swap_of_kind_ne (by simp [kind])
  | .set a, b => by
    cases b with
    | set b => simpa only [cmp] using cmpAll_swap a b
    | _ => exact cmp_swap_of_kind_ne (by simp [kind])
  | .seq a, b => by
    cases b with
    | seq b => simpa only [cmp] using cmpAll_swap a b
    | _ => exact cmp_swap_of_kind_ne (by simp [kind])
  | .fn a, b => by
    cases b with
    | fn b => simpa only [cmp] using cmpEntries_swap a b
    | _ => exact cmp_swap_of_kind_ne (by simp [kind])

theorem cmpAll_swap : (as bs : List Value) → (cmpAll as bs).swap = cmpAll bs as
  | [], [] | [], _ :: _ | _ :: _, [] => rfl
  | a :: as, b :: bs => by
    simp only [cmpAll, Ordering.swap_then, cmp_swap a b, cmpAll_swap as bs]

theorem cmpEntries_swap :
    (as bs : List (Value × Value)) → (cmpEntries as bs).swap = cmpEntries bs as
  | [], [] | [], _ :: _ | _ :: _, [] => rfl
  | (k, v) :: as, (l, w) :: bs => by
    simp only [cmpEntries, Ordering.swap_then, cmp_swap k l, cmp_swap v w, cmpEntries_swap as bs]

end

instance : Std.OrientedCmp cmp := ⟨(cmp_swap _ _).symm⟩

instance : Std.LawfulEqCmp cmp where
  compare_self := cmp_self _
  eq_of_compare := eq_of_cmp_eq _ _

/-! ## Transitivity -/

-- A value that is not above another one is of no later sort.
theorem rank_le_of_isLE {a b : Value} (h : (cmp a b).isLE) : a.kind.rank ≤ b.kind.rank := by
  by_cases hk : a.kind = b.kind
  · exact Nat.le_of_eq (congrArg _ hk)
  · rw [cmp_of_kind_ne hk] at h
    exact Nat.isLE_compare.mp h

-- Transitivity holds as soon as it does for values of one sort.
theorem isLE_trans_of_kind {a b c : Value}
    (same : a.kind = b.kind → b.kind = c.kind → (cmp a c).isLE)
    (hab : (cmp a b).isLE) (hbc : (cmp b c).isLE) : (cmp a c).isLE := by
  have h₁ := rank_le_of_isLE hab
  have h₂ := rank_le_of_isLE hbc
  by_cases hk : a.kind = c.kind
  · rw [hk] at h₁
    have hb : b.kind = c.kind := Kind.rank_inj (Nat.le_antisymm h₂ h₁)
    exact same (hk.trans hb.symm) hb
  · rw [cmp_of_kind_ne hk]
    exact Nat.isLE_compare.mpr (Nat.le_trans h₁ h₂)

-- Comparing in two stages is transitive if the first stage is, and if the second stage is where
-- the first one leaves the result open.
theorem then_isLE_trans {o₁ o₂ o₃ p₁ p₂ p₃ : Ordering}
    (hlt : o₁.isLE → o₂.isLE → o₃.isLE) (heq : o₁.isLE → o₂.isLE → o₃ = .eq → o₁ = .eq ∧ o₂ = .eq)
    (hp : p₁.isLE → p₂.isLE → p₃.isLE) (h₁ : (o₁.then p₁).isLE) (h₂ : (o₂.then p₂).isLE) :
    (o₃.then p₃).isLE := by
  cases o₁ <;> cases o₂ <;> cases o₃ <;> simp_all

-- Between equal values there is no room for another one.
theorem eq_and_eq_of_isLE {a b c : Value} (hab : (cmp a b).isLE) (hbc : (cmp b c).isLE)
    (hac : cmp a c = .eq) : cmp a b = .eq ∧ cmp b c = .eq := by
  cases cmp_eq_iff.mp hac
  rw [← cmp_swap a b] at hbc ⊢
  cases h : cmp a b <;> simp_all

mutual

theorem isLE_trans : (a b c : Value) → (cmp a b).isLE → (cmp b c).isLE → (cmp a c).isLE
  | .bool a, b, c, hab, hbc => isLE_trans_of_kind (fun h₁ h₂ => by
      cases b <;> cases h₁; cases c <;> cases h₂
      simp only [cmp] at *; exact Std.TransOrd.isLE_trans hab hbc) hab hbc
  | .int a, b, c, hab, hbc => isLE_trans_of_kind (fun h₁ h₂ => by
      cases b <;> cases h₁; cases c <;> cases h₂
      simp only [cmp] at *; exact Std.TransOrd.isLE_trans hab hbc) hab hbc
  | .str a, b, c, hab, hbc => isLE_trans_of_kind (fun h₁ h₂ => by
      cases b <;> cases h₁; cases c <;> cases h₂
      simp only [cmp] at *; exact Std.TransOrd.isLE_trans hab hbc) hab hbc
  | .set a, b, c, hab, hbc => isLE_trans_of_kind (fun h₁ h₂ => by
      cases b <;> cases h₁; cases c <;> cases h₂
      simp only [cmp] at *; exact isLE_trans_all a _ _ hab hbc) hab hbc
  | .seq a, b, c, hab, hbc => isLE_trans_of_kind (fun h₁ h₂ => by
      cases b <;> cases h₁; cases c <;> cases h₂
      simp only [cmp] at *; exact isLE_trans_all a _ _ hab hbc) hab hbc
  | .fn a, b, c, hab, hbc => isLE_trans_of_kind (fun h₁ h₂ => by
      cases b <;> cases h₁; cases c <;> cases h₂
      simp only [cmp] at *; exact isLE_trans_entries a _ _ hab hbc) hab hbc

theorem isLE_trans_all : (as bs cs : List Value) →
    (cmpAll as bs).isLE → (cmpAll bs cs).isLE → (cmpAll as cs).isLE
  | [], _, [], _, _ | [], _, _ :: _, _, _ => by simp [cmpAll]
  | _ :: _, [], _, h, _ => by simp [cmpAll] at h
  | _ :: _, _ :: _, [], _, h => by simp [cmpAll] at h
  | a :: as, b :: bs, c :: cs, h₁, h₂ => by
    simp only [cmpAll] at *
    exact then_isLE_trans (isLE_trans a b c) eq_and_eq_of_isLE (isLE_trans_all as bs cs) h₁ h₂

theorem isLE_trans_entries : (as bs cs : List (Value × Value)) →
    (cmpEntries as bs).isLE → (cmpEntries bs cs).isLE → (cmpEntries as cs).isLE
  | [], _, [], _, _ | [], _, _ :: _, _, _ => by simp [cmpEntries]
  | _ :: _, [], _, h, _ => by simp [cmpEntries] at h
  | _ :: _, _ :: _, [], _, h => by simp [cmpEntries] at h
  | (k₁, v₁) :: as, (k₂, v₂) :: bs, (k₃, v₃) :: cs, h₁, h₂ => by
    simp only [cmpEntries, Ordering.then_assoc] at *
    refine then_isLE_trans (isLE_trans k₁ k₂ k₃) eq_and_eq_of_isLE (fun h₁ h₂ => ?_) h₁ h₂
    exact then_isLE_trans (isLE_trans v₁ v₂ v₃) eq_and_eq_of_isLE
      (isLE_trans_entries as bs cs) h₁ h₂

end

instance : Std.TransCmp cmp := ⟨isLE_trans _ _ _⟩

instance : Std.OrientedCmp cmpKey := ⟨(cmp_swap _ _).symm⟩

instance : Std.TransCmp cmpKey := ⟨isLE_trans _ _ _⟩

end ActionSystem.Value
