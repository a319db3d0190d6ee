import Mathlib
import ActionSystem.Proofs.Value.Extensionality

/-!
# Set algebra

The operations on canonical sets are those of mathematics: each gives a canonical set, and its
members are those that the operation is named for. The subsets of a set are found as sublists,
since a canonical subset leaves out some of the elements and keeps the order of the others.
-/

namespace ActionSystem.Value

variable {x v : Value} {xs ys zs : List Value}

/-- The result is a canonical set, and these are its members. -/
def IsSetOf (r : Except Fault Value) (members : Value → Prop) : Prop :=
  ∃ zs, r = .ok (.set zs) ∧ (set zs).Canonical ∧ ∀ z, z ∈ zs ↔ members z

/-! ## Union, intersection, difference and inclusion -/

theorem isSetOf_union (hx : (set xs).Canonical) (hy : (set ys).Canonical) :
    IsSetOf (union (.set xs) (.set ys)) fun z => z ∈ xs ∨ z ∈ ys :=
  ⟨_, rfl, hx.union hy, fun _ => Sorted.mem_union⟩

theorem isSetOf_inter (hx : (set xs).Canonical) (hy : (set ys).Canonical) :
    IsSetOf (inter (.set xs) (.set ys)) fun z => z ∈ xs ∧ z ∈ ys :=
  ⟨_, rfl, hx.of_sublist (Sorted.sublist_inter cmp xs ys), fun _ =>
    Sorted.mem_inter hx.increasing hy.increasing⟩

theorem isSetOf_diff (hx : (set xs).Canonical) (hy : (set ys).Canonical) :
    IsSetOf (diff (.set xs) (.set ys)) fun z => z ∈ xs ∧ z ∉ ys :=
  ⟨_, rfl, hx.of_sublist (Sorted.sublist_diff cmp xs ys), fun _ =>
    Sorted.mem_diff hx.increasing hy.increasing⟩

theorem subsetEq_eq (hx : (set xs).Canonical) (hy : (set ys).Canonical) :
    subsetEq (.set xs) (.set ys) = .ok (decide (xs ⊆ ys)) := by
  have hsubset : Sorted.subset cmp xs ys = decide (xs ⊆ ys) := by
    rw [Bool.eq_iff_iff, Sorted.subset_iff hx.increasing hy.increasing, decide_eq_true_iff]
  exact congrArg Except.ok hsubset

/-! ## Membership -/

theorem contains_eq_decide (h : Sorted.Increasing cmp xs) :
    Sorted.contains cmp x xs = decide (x ∈ xs) := by
  rw [Bool.eq_iff_iff, Sorted.contains_iff h, decide_eq_true_iff]

theorem insertElement_eq (h : Sorted.Increasing cmp xs) :
    insertElement x xs = (decide (x ∉ xs), if x ∈ xs then xs else Sorted.insert cmp x xs) := by
  rw [insertElement, contains_eq_decide h]
  by_cases hx : x ∈ xs <;> simp [hx]

-- An element that is there already stays where it is.
theorem increasing_insertElement (h : Sorted.Increasing cmp xs) :
    Sorted.Increasing cmp (insertElement x xs).2 := by
  rw [insertElement_eq h]
  dsimp only
  split
  · exact h
  · exact Sorted.increasing_insert h x

theorem mem_insertElement (h : Sorted.Increasing cmp xs) :
    v ∈ (insertElement x xs).2 ↔ v = x ∨ v ∈ xs := by
  rw [insertElement_eq h]
  dsimp only
  split
  · next hx =>
    refine (or_iff_right_of_imp ?_).symm
    rintro rfl
    exact hx
  · exact Sorted.mem_insert

/-! ## Subsets -/

-- A canonical subset is what the set has in common with it.
theorem sublist_of_subset (hx : Sorted.Increasing cmp xs) (hy : Sorted.Increasing cmp ys)
    (h : ys ⊆ xs) : ys.Sublist xs := by
  have hsub := Sorted.sublist_inter cmp xs ys
  have heq : Sorted.inter cmp xs ys = ys := by
    refine Sorted.eq_of_increasing (hx.sublist hsub) hy fun z => ?_
    rw [Sorted.mem_inter hx hy]
    exact and_iff_right_of_imp fun hz => h hz
  rw [← heq]
  exact hsub

theorem mem_nonemptySublists : ys ∈ nonemptySublists xs ↔ ys ≠ [] ∧ ys.Sublist xs := by
  refine ⟨ne_nil_and_sublist_of_mem, ?_⟩
  rintro ⟨hne, hsub⟩
  induction xs generalizing ys with
  | nil => exact absurd (List.sublist_nil.mp hsub) hne
  | cons x xs ih =>
    rw [nonemptySublists, List.mem_cons, List.mem_append, List.mem_map]
    rcases List.sublist_cons_iff.mp hsub with hwithout | ⟨zs, rfl, hrest⟩
    · exact .inr (.inr (ih hne hwithout))
    · by_cases hzs : zs = []
      · exact .inl (by rw [hzs])
      · exact .inr (.inl ⟨zs, ih hzs hrest, rfl⟩)

theorem length_nonemptySublists (xs : List Value) :
    (nonemptySublists xs).length + 1 = 2 ^ xs.length := by
  induction xs with
  | nil => rfl
  | cons x xs ih =>
    rw [nonemptySublists, List.length_cons, List.length_append, List.length_map, List.length_cons,
      Nat.pow_succ]
    omega

theorem powerset_eq (h : xs.length ≤ maxPowersetBase) :
    powerset (.set xs) = .ok (.set (.set [] :: (nonemptySublists xs).map .set)) :=
  if_neg (Nat.not_lt.mpr h)

theorem mem_subsets (hx : (set xs).Canonical) :
    v ∈ set [] :: (nonemptySublists xs).map set ↔
      ∃ ys, v = set ys ∧ (set ys).Canonical ∧ ys ⊆ xs := by
  rw [List.mem_cons, List.mem_map]
  constructor
  · rintro (rfl | ⟨ys, hys, rfl⟩)
    · exact ⟨[], rfl, canonical_empty, List.nil_subset xs⟩
    · have hsub := (mem_nonemptySublists.mp hys).2
      exact ⟨ys, rfl, hx.of_sublist hsub, hsub.subset⟩
  · rintro ⟨ys, rfl, hys, hsub⟩
    by_cases hne : ys = []
    · exact .inl (by rw [hne])
    · have hsub := sublist_of_subset hx.increasing hys.increasing hsub
      exact .inr ⟨ys, mem_nonemptySublists.mpr ⟨hne, hsub⟩, rfl⟩

/-- The subsets of a set with `n` elements are a set with `2 ^ n` elements. -/
theorem isSetOf_powerset (hx : (set xs).Canonical) (h : xs.length ≤ maxPowersetBase) :
    ∃ zs, powerset (.set xs) = .ok (.set zs) ∧ (set zs).Canonical ∧ zs.length = 2 ^ xs.length ∧
      ∀ z, z ∈ zs ↔ ∃ ys, z = set ys ∧ (set ys).Canonical ∧ ys ⊆ xs := by
  refine ⟨_, powerset_eq h, gives_powerset hx _ (powerset_eq h), ?_, fun z => mem_subsets hx⟩
  rw [List.length_cons, List.length_map, length_nonemptySublists]

/-! ## Generalized union -/

-- By induction on the sets that are still to be added to those collected.
theorem unionOnto_of_sets (collected : List Value) (h : ∀ s ∈ xs, ∃ es, s = set es) :
    ∃ zs, unionOnto collected xs = .ok zs ∧
      ∀ z, z ∈ zs ↔ z ∈ collected ∨ ∃ es, set es ∈ xs ∧ z ∈ es := by
  induction xs generalizing collected with
  | nil => exact ⟨collected, rfl, by simp⟩
  | cons s ss ih =>
    obtain ⟨⟨es, rfl⟩, hss⟩ := List.forall_mem_cons.mp h
    obtain ⟨zs, hzs, hmem⟩ := ih (Sorted.union cmp collected es) hss
    refine ⟨zs, hzs, fun z => ?_⟩
    rw [hmem, Sorted.mem_union, or_assoc]
    refine or_congr_right ?_
    simp only [List.mem_cons, set.injEq, or_and_right, exists_or, exists_eq_left]

theorem isSetOf_bigUnion (hx : (set xs).Canonical) (h : ∀ s ∈ xs, ∃ es, s = set es) :
    IsSetOf (bigUnion (.set xs)) fun z => ∃ es, set es ∈ xs ∧ z ∈ es := by
  obtain ⟨zs, hzs, hmem⟩ := unionOnto_of_sets [] h
  have hunion : bigUnion (.set xs) = .ok (.set zs) :=
    Result.bind_eq_ok.mpr ⟨xs, rfl, Result.bind_eq_ok.mpr ⟨zs, hzs, rfl⟩⟩
  refine ⟨zs, hunion, gives_bigUnion hx _ hunion, fun z => ?_⟩
  rw [hmem, or_iff_right List.not_mem_nil]

/-! ## All operations -/

/-- The operations on canonical sets are those of mathematics. -/
theorem set_algebra (hx : (set xs).Canonical) (hy : (set ys).Canonical) :
    IsSetOf (union (.set xs) (.set ys)) (fun z => z ∈ xs ∨ z ∈ ys) ∧
    IsSetOf (inter (.set xs) (.set ys)) (fun z => z ∈ xs ∧ z ∈ ys) ∧
    IsSetOf (diff (.set xs) (.set ys)) (fun z => z ∈ xs ∧ z ∉ ys) ∧
    ((∀ s ∈ xs, ∃ es, s = set es) →
      IsSetOf (bigUnion (.set xs)) fun z => ∃ es, set es ∈ xs ∧ z ∈ es) ∧
    (∀ x, contains (.set xs) x = .ok (decide (x ∈ xs))) ∧
    (∀ x, Sorted.contains cmp x xs = decide (x ∈ xs)) ∧
    (∀ x, (insertElement x xs).1 = decide (x ∉ xs) ∧
      Sorted.Increasing cmp (insertElement x xs).2 ∧
      ∀ z, z ∈ (insertElement x xs).2 ↔ z = x ∨ z ∈ xs) ∧
    subsetEq (.set xs) (.set ys) = .ok (decide (xs ⊆ ys)) ∧
    (xs.length ≤ 20 →
      ∃ zs, powerset (.set xs) = .ok (.set zs) ∧ (set zs).Canonical ∧
        zs.length = 2 ^ xs.length ∧
        ∀ z, z ∈ zs ↔ ∃ ys, z = set ys ∧ (set ys).Canonical ∧ ys ⊆ xs) := by
  refine ⟨isSetOf_union hx hy, isSetOf_inter hx hy, isSetOf_diff hx hy, isSetOf_bigUnion hx,
    fun x => congrArg Except.ok (contains_eq_decide hx.increasing),
    fun x => contains_eq_decide hx.increasing, fun x => ⟨?_, ?_, fun z => ?_⟩,
    subsetEq_eq hx hy, isSetOf_powerset hx⟩
  · rw [insertElement_eq hx.increasing]
  · exact increasing_insertElement hx.increasing
  · exact mem_insertElement hx.increasing

-- For a set of the empty set and a singleton, and the set of the singleton alone.
theorem set_algebra_nested :
    IsSetOf (diff (.set [.set [], .set [.int 1]]) (.set [.set [.int 1]])) (fun z => z = set []) ∧
    IsSetOf (bigUnion (.set [.set [], .set [.int 1]])) (fun z => z = int 1) ∧
    ∃ zs, powerset (.set [.set [], .set [.int 1]]) = .ok (.set zs) ∧ zs.length = 4 := by
  have hone : (set [.int 1]).Canonical := canonical_singleton (.int 1)
  have hx : (set [set [], set [.int 1]]).Canonical :=
    .set (Sorted.isIncreasing_iff.mp rfl) (by simp [canonical_empty, hone])
  obtain ⟨-, -, ⟨ds, hd, hdc, hdm⟩, hbig, -, -, -, -, hpow⟩ :=
    set_algebra hx (canonical_singleton hone)
  obtain ⟨us, hu, huc, hum⟩ := hbig (by simp)
  obtain ⟨ps, hp, -, hlength, -⟩ := hpow (by decide)
  refine ⟨⟨ds, hd, hdc, fun z => ?_⟩, ⟨us, hu, huc, fun z => ?_⟩, ps, hp, hlength⟩
  · rw [hdm]
    simp only [List.mem_cons, List.not_mem_nil, or_false]
    constructor
    · rintro ⟨hz | hz, hne⟩
      · exact hz
      · exact absurd hz hne
    · rintro rfl
      simp
  · rw [hum]
    simp

end ActionSystem.Value
