import ActionSystem.Sorted.Lemmas

/-!
# Sorted lists as finite maps

A comparison that looks at part of an element only, its key, makes an increasing list a finite map:
searching gives the entry with a key. Main statements: searching in a union or behind an insertion
prefers the right operand and the new entry (`find?_union`, `find?_insert`), searching in the sorted
form of a list gives the last entry that the list has for the key (`find?_ofList`), and sorting a
list is inserting its entries one after the other (`ofList_eq_insertAll`).
-/

namespace ActionSystem.Sorted

variable {α : Type} {cmp : α → α → Ordering} [Std.TransCmp cmp] {x y z w : α} {xs ys : List α}

/-! ## Search -/

theorem find?_self (h : Increasing cmp xs) (hx : x ∈ xs) : find? (cmp x) xs = some x :=
  (find?_eq_some_iff h).mpr ⟨hx, Std.ReflCmp.compare_self⟩

theorem find?_eq_none_iff (h : Increasing cmp xs) :
    find? (cmp z) xs = none ↔ ∀ x ∈ xs, cmp z x ≠ .eq := by
  rw [Option.eq_none_iff_forall_ne_some]
  exact forall_congr' fun x => by rw [ne_eq, find?_eq_some_iff h, not_and]

-- What is found determines an increasing list.
theorem eq_of_find? (hx : Increasing cmp xs) (hy : Increasing cmp ys)
    (h : ∀ z, find? (cmp z) xs = find? (cmp z) ys) : xs = ys := by
  refine eq_of_increasing hx hy fun z => ⟨fun hz => ?_, fun hz => ?_⟩
  · have hfound := h z
    rw [find?_self hx hz] at hfound
    exact (mem_of_find? hfound.symm).1
  · have hfound := h z
    rw [find?_self hy hz] at hfound
    exact (mem_of_find? hfound).1

/-! ## Insertion -/

theorem find?_insert : find? (cmp z) (insert cmp x xs) =
    if cmp z x = .eq then some x else find? (cmp z) xs := by
  induction xs with
  | nil => cases h : cmp z x <;> simp [find?, h]
  | cons y ys ih =>
    unfold insert
    cases hxy : cmp x y with
    | lt =>
      -- what lies below the new entry lies below the old ones too
      have hbelow : cmp z x = .lt → cmp z y = .lt := fun h => lt_trans h hxy
      cases h : cmp z x <;> simp_all [find?]
    | eq =>
      have hsame : cmp z x = cmp z y := Std.TransCmp.congr_right hxy
      cases h : cmp z y <;> simp_all [find?]
    | gt =>
      have hyx : cmp y x = .lt := Std.OrientedCmp.gt_iff_lt.mp hxy
      cases h : cmp z y with
      | lt => simp [find?, h, lt_trans h hyx]
      | eq =>
        have hzx : cmp z x = .lt := (Std.TransCmp.congr_left h).trans hyx
        simp [find?, h, hzx]
      | gt => simp [find?, h, ih]

/-! ## Union -/

theorem ne_eq_of_gt (h : cmp z w = .lt) : cmp w z ≠ .eq := by
  rw [Std.OrientedCmp.gt_iff_lt.mpr h]
  decide

-- From the first entry of an increasing list on, keys are not taken by what lies below it.
theorem ne_eq_of_mem_below (h : Increasing cmp (x :: xs)) (hw : w ∈ x :: xs)
    (hy : y ∈ below cmp x ys) : cmp w y ≠ .eq := by
  have hyx := lt_of_mem_below hy
  refine ne_eq_of_gt ?_
  rcases List.mem_cons.mp hw with rfl | hw
  · exact hyx
  · exact lt_trans hyx ((increasing_cons.mp h).1 w hw)

-- An entry of the left operand is kept if the right one has none for its key.
theorem mem_union_iff (hx : Increasing cmp xs) (hy : Increasing cmp ys) :
    w ∈ union cmp xs ys ↔ w ∈ ys ∨ w ∈ xs ∧ ∀ y ∈ ys, cmp w y ≠ .eq := by
  induction xs generalizing ys with
  | nil => simp
  | cons x xs ih =>
    obtain ⟨hlater, hxs⟩ := increasing_cons.mp hx
    have hfree : w ∈ x :: xs →
        ((∀ y ∈ ys, cmp w y ≠ .eq) ↔ ∀ y ∈ above cmp x ys, cmp w y ≠ .eq) := fun hw =>
      ⟨fun h y hy => h y ((mem_below_or_above cmp x ys).mpr (.inr hy)), fun h y hy =>
        ((mem_below_or_above cmp x ys).mp hy).elim (ne_eq_of_mem_below hx hw) (h y)⟩
    rw [union_cons, List.mem_append, and_congr_right hfree, mem_below_or_above cmp x ys, or_assoc]
    refine or_congr_right ?_
    split
    · next hs => simp [hs]
    · next y zs hs =>
      have hrest := increasing_of_above hy hs
      rw [hs]
      split
      · next heq =>
        -- the right entry takes the place of the left one
        have hnew : w ∈ xs → cmp w y ≠ .eq := fun hw => by
          refine ne_eq_of_gt ?_
          rw [← Std.TransCmp.congr_left heq]
          exact hlater w hw
        have hold : w = x → cmp w y = .eq := fun hw => hw ▸ heq
        rw [List.mem_cons, ih hxs (increasing_cons.mp hrest).2, List.mem_cons, List.mem_cons,
          List.forall_mem_cons, or_assoc]
        grind
      · next hne =>
        have hkept : w = x → ∀ y' ∈ y :: zs, cmp w y' ≠ .eq := fun hw y' hy' => by
          rw [hw, lt_of_above hy hs hne y' hy']
          decide
        rw [List.mem_cons, ih hxs hrest, or_left_comm, List.mem_cons (b := x), or_and_right,
          and_iff_left_of_imp hkept]

theorem find?_union (hx : Increasing cmp xs) (hy : Increasing cmp ys) :
    find? (cmp z) (union cmp xs ys) = (find? (cmp z) ys).or (find? (cmp z) xs) := by
  ext w
  rw [find?_eq_some_iff (increasing_union hx hy), mem_union_iff hx hy, Option.or_eq_some_iff,
    find?_eq_some_iff hy, find?_eq_some_iff hx, find?_eq_none_iff hy, or_and_right]
  refine or_congr_right ?_
  constructor
  · rintro ⟨⟨hw, hfree⟩, hzw⟩
    refine ⟨fun y hy => ?_, hw, hzw⟩
    rw [Std.TransCmp.congr_left hzw]
    exact hfree y hy
  · rintro ⟨hfree, hw, hzw⟩
    refine ⟨⟨hw, fun y hy => ?_⟩, hzw⟩
    rw [← Std.TransCmp.congr_left hzw]
    exact hfree y hy

/-! ## Sorting -/

def findLast? (probe : α → Ordering) (xs : List α) : Option α :=
  xs.reverse.find? fun x => probe x = .eq

theorem findLast?_append {probe : α → Ordering} :
    findLast? probe (xs ++ ys) = (findLast? probe ys).or (findLast? probe xs) := by
  rw [findLast?, List.reverse_append, List.find?_append]
  rfl

theorem findLast?_cons {probe : α → Ordering} : findLast? probe (x :: xs) =
    (findLast? probe xs).or (if probe x = .eq then some x else none) := by
  rw [findLast?, List.reverse_cons, List.find?_append]
  by_cases h : probe x = .eq <;> simp [findLast?, h]

theorem findLast?_eq_some_iff {probe : α → Ordering} : findLast? probe xs = some x ↔
    probe x = .eq ∧ ∃ ys zs, xs = ys ++ x :: zs ∧ ∀ z ∈ zs, probe z ≠ .eq := by
  rw [findLast?, List.find?_eq_some_iff_append]
  refine and_congr (by simp) ⟨?_, ?_⟩
  · rintro ⟨as, bs, heq, has⟩
    refine ⟨bs.reverse, as.reverse, ?_, fun z hz => ?_⟩
    · rw [← List.reverse_reverse xs, heq]
      simp
    · simpa using has z (List.mem_reverse.mp hz)
  · rintro ⟨ys, zs, rfl, hzs⟩
    refine ⟨zs.reverse, ys.reverse, by simp, fun z hz => ?_⟩
    simpa using hzs z (List.mem_reverse.mp hz)

theorem findLast?_isSome {probe : α → Ordering} (hx : x ∈ xs) (h : probe x = .eq) :
    (findLast? probe xs).isSome = true := by
  rw [findLast?, List.find?_isSome]
  exact ⟨x, List.mem_reverse.mpr hx, by simp [h]⟩

theorem find?_sortWithin (n : Nat) (xs : List α) (h : xs.length ≤ n) :
    find? (cmp z) (sortWithin cmp n xs) = findLast? (cmp z) xs := by
  fun_induction sortWithin cmp n xs with
  | case1 xs =>
    rw [List.eq_nil_of_length_eq_zero (Nat.le_zero.mp h)]
    rfl
  | case2 => rfl
  | case3 n x => cases hx : cmp z x <;> simp [find?, findLast?, hx]
  | case4 n xs h₀ h₁ half ih₁ ih₂ =>
    have hlen := two_le_length h₀ h₁
    have hhalf : half = xs.length / 2 := rfl
    have hleft : (xs.take half).length ≤ n := by rw [List.length_take]; omega
    have hright : (xs.drop half).length ≤ n := by rw [List.length_drop]; omega
    rw [find?_union (increasing_sortWithin _ _ hleft) (increasing_sortWithin _ _ hright),
      ih₁ hleft, ih₂ hright, ← findLast?_append, List.take_append_drop]

theorem find?_ofList (xs : List α) : find? (cmp z) (ofList cmp xs) = findLast? (cmp z) xs :=
  find?_sortWithin _ _ (Nat.le_refl _)

def insertAll (cmp : α → α → Ordering) (xs ys : List α) : List α :=
  xs.foldl (fun acc x => insert cmp x acc) ys

theorem increasing_insertAll (hy : Increasing cmp ys) (xs : List α) :
    Increasing cmp (insertAll cmp xs ys) := by
  induction xs generalizing ys with
  | nil => exact hy
  | cons x xs ih => exact ih (increasing_insert hy x)

theorem find?_insertAll :
    find? (cmp z) (insertAll cmp xs ys) = (findLast? (cmp z) xs).or (find? (cmp z) ys) := by
  induction xs generalizing ys with
  | nil => rfl
  | cons x xs ih =>
    have hstep : find? (cmp z) (insertAll cmp (x :: xs) ys) = _ := ih
    rw [hstep, find?_insert, findLast?_cons, Option.or_assoc]
    split <;> rfl

/-- Sorting a list inserts its entries in order, so that later ones take the place of earlier. -/
theorem ofList_eq_insertAll (xs : List α) : ofList cmp xs = insertAll cmp xs [] := by
  refine eq_of_find? (increasing_ofList xs) (increasing_insertAll increasing_nil xs) fun z => ?_
  rw [find?_ofList, find?_insertAll, find?_nil, Option.or_none]

end ActionSystem.Sorted
