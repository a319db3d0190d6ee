import ActionSystem.Sorted.Basic

/-!
# Laws of sorted lists

What the operations of `Basic` contain, and that they keep the order. Main statements: the results
have the members that their names promise (`mem_union`, `mem_inter`, `mem_diff`, `mem_ofList`),
inclusion is that of the members (`subset_iff`), what is sought in an increasing list is found
(`find?_eq_some_iff`, `contains_iff`), the results are in strictly increasing order
(`increasing_union` and so on; intersections and differences as sublists of the first operand), and
increasing lists with the same members are the same (`eq_of_increasing`).
-/

namespace ActionSystem.Sorted

variable {α : Type} {cmp : α → α → Ordering}

/-! ## Order of members -/

theorem increasing_nil : Increasing cmp [] := List.Pairwise.nil

theorem increasing_cons {x : α} {xs : List α} :
    Increasing cmp (x :: xs) ↔ (∀ y ∈ xs, cmp x y = .lt) ∧ Increasing cmp xs :=
  List.pairwise_cons

theorem increasing_append {xs ys : List α} :
    Increasing cmp (xs ++ ys) ↔
      Increasing cmp xs ∧ Increasing cmp ys ∧ ∀ x ∈ xs, ∀ y ∈ ys, cmp x y = .lt :=
  List.pairwise_append

section Trans

variable [Std.TransCmp cmp]

theorem lt_trans {x y z : α} (h₁ : cmp x y = .lt) (h₂ : cmp y z = .lt) : cmp x z = .lt :=
  Std.TransCmp.lt_trans h₁ h₂

theorem nodup_of_increasing {xs : List α} (h : Increasing cmp xs) : xs.Nodup := by
  refine h.imp @fun x y hlt heq => ?_
  have hself : cmp y y = .eq := Std.ReflCmp.compare_self
  rw [heq, hself] at hlt
  cases hlt

-- The members of an increasing list determine it.
theorem eq_of_increasing {xs ys : List α} (hx : Increasing cmp xs) (hy : Increasing cmp ys)
    (h : ∀ z, z ∈ xs ↔ z ∈ ys) : xs = ys := by
  have perm : xs.Perm ys :=
    (List.perm_ext_iff_of_nodup (nodup_of_increasing hx) (nodup_of_increasing hy)).mpr h
  refine perm.eq_of_pairwise (fun x y _ _ hxy hyx => ?_) hx hy
  have hswap : cmp y x = (cmp x y).swap := Std.OrientedCmp.eq_swap
  rw [hyx, hxy] at hswap
  cases hswap

-- Comparing neighbours is enough.
theorem isIncreasing_iff {xs : List α} : isIncreasing cmp xs = true ↔ Increasing cmp xs := by
  induction xs with
  | nil => simp [isIncreasing, increasing_nil]
  | cons x xs ih =>
    cases xs with
    | nil => simp [isIncreasing, Increasing]
    | cons y ys =>
      simp only [isIncreasing, Bool.and_eq_true, beq_iff_eq, ih, increasing_cons (x := x)]
      constructor
      · rintro ⟨hxy, h⟩
        refine ⟨fun z hz => ?_, h⟩
        rcases List.mem_cons.mp hz with rfl | hz
        · exact hxy
        · exact lt_trans hxy ((increasing_cons.mp h).1 z hz)
      · rintro ⟨hx, h⟩
        exact ⟨hx y (by simp), h⟩

end Trans

/-! ## Splitting -/

@[simp] theorem below_append_above (cmp : α → α → Ordering) (x : α) (xs : List α) :
    below cmp x xs ++ above cmp x xs = xs := List.takeWhile_append_dropWhile

theorem mem_below_or_above (cmp : α → α → Ordering) (x : α) (xs : List α) {y : α} :
    y ∈ xs ↔ y ∈ below cmp x xs ∨ y ∈ above cmp x xs := by
  rw [← List.mem_append, below_append_above]

theorem lt_of_mem_below {x y : α} {xs : List α} (h : y ∈ below cmp x xs) : cmp y x = .lt := by
  simpa using List.all_eq_true.mp List.all_takeWhile y h

-- The rest does not start below.
theorem not_lt_of_above {x y : α} {xs ys : List α} (h : above cmp x xs = y :: ys) :
    cmp y x ≠ .lt := by
  have := List.head?_dropWhile_not (fun y => cmp y x == .lt) xs
  rw [show xs.dropWhile _ = _ from h] at this
  simpa using this

theorem increasing_below {xs : List α} (h : Increasing cmp xs) (x : α) :
    Increasing cmp (below cmp x xs) := by
  rw [← below_append_above cmp x xs, increasing_append] at h
  exact h.1

theorem increasing_above {xs : List α} (h : Increasing cmp xs) (x : α) :
    Increasing cmp (above cmp x xs) := by
  rw [← below_append_above cmp x xs, increasing_append] at h
  exact h.2.1

-- If the rest does not start with an equal, all of it lies above.
theorem lt_of_above [Std.TransCmp cmp] {x y : α} {xs ys : List α} (h : Increasing cmp xs)
    (hs : above cmp x xs = y :: ys) (hxy : cmp x y ≠ .eq) : ∀ z ∈ y :: ys, cmp x z = .lt := by
  have hlt : cmp x y = .lt := by
    have hn := not_lt_of_above hs
    have hswap := @Std.OrientedCmp.eq_swap _ cmp _ y x
    cases hc : cmp x y <;> simp_all
  have hi := increasing_above h x
  rw [hs, increasing_cons] at hi
  intro z hz
  rcases List.mem_cons.mp hz with rfl | hz
  · exact hlt
  · exact lt_trans hlt (hi.1 z hz)

/-! ## Search -/

-- What is found is in the list and is what was sought.
theorem mem_of_find? {probe : α → Ordering} {x : α} {xs : List α} (h : find? probe xs = some x) :
    x ∈ xs ∧ probe x = .eq := by
  induction xs with
  | nil => cases h
  | cons y ys ih =>
    unfold find? at h
    cases hy : probe y with
    | lt =>
      rw [hy] at h
      cases h
    | eq =>
      rw [hy] at h
      cases h
      exact ⟨List.mem_cons_self, hy⟩
    | gt =>
      rw [hy] at h
      exact (ih h).imp_left (List.mem_cons_of_mem _)

theorem mem_of_contains [Std.LawfulEqCmp cmp] {x : α} {xs : List α}
    (h : contains cmp x xs = true) : x ∈ xs := by
  obtain ⟨y, hy⟩ := Option.isSome_iff_exists.mp h
  obtain ⟨hmem, heq⟩ := mem_of_find? hy
  exact Std.LawfulEqCmp.eq_of_compare heq ▸ hmem

-- The search gives up only where all that follows lies above.
theorem find?_eq_some_iff [Std.TransCmp cmp] {x y : α} {xs : List α} (h : Increasing cmp xs) :
    find? (cmp x) xs = some y ↔ y ∈ xs ∧ cmp x y = .eq := by
  refine ⟨mem_of_find?, fun hy => ?_⟩
  obtain ⟨hmem, heq⟩ := hy
  induction xs with
  | nil => cases hmem
  | cons z zs ih =>
    obtain ⟨hz, hzs⟩ := increasing_cons.mp h
    unfold find?
    rcases List.mem_cons.mp hmem with rfl | hmem
    · rw [heq]
    · have hgt : cmp x z = .gt := by
        rw [Std.TransCmp.congr_left heq, Std.OrientedCmp.gt_iff_lt]
        exact hz y hmem
      rw [hgt]
      exact ih hzs hmem

theorem contains_iff [Std.TransCmp cmp] [Std.LawfulEqCmp cmp] {x : α} {xs : List α}
    (h : Increasing cmp xs) : contains cmp x xs = true ↔ x ∈ xs := by
  refine ⟨mem_of_contains, fun hmem => Option.isSome_iff_exists.mpr ⟨x, ?_⟩⟩
  exact (find?_eq_some_iff h).mpr ⟨hmem, Std.ReflCmp.compare_self⟩

/-! ## Insertion -/

theorem mem_of_mem_insert {x z : α} {xs : List α} (h : z ∈ insert cmp x xs) : z = x ∨ z ∈ xs := by
  induction xs with
  | nil => exact .inl (List.mem_singleton.mp h)
  | cons y ys ih =>
    unfold insert at h
    cases hy : cmp x y with
    | lt =>
      rw [hy] at h
      exact List.mem_cons.mp h
    | eq =>
      rw [hy] at h
      exact (List.mem_cons.mp h).imp_right (List.mem_cons_of_mem _)
    | gt =>
      rw [hy] at h
      rcases List.mem_cons.mp h with rfl | h
      · exact .inr List.mem_cons_self
      · exact (ih h).imp_right (List.mem_cons_of_mem _)

theorem mem_insert [Std.LawfulEqCmp cmp] {x z : α} {xs : List α} :
    z ∈ insert cmp x xs ↔ z = x ∨ z ∈ xs := by
  refine ⟨mem_of_mem_insert, fun h => ?_⟩
  induction xs with
  | nil => simpa using h
  | cons y ys ih =>
    unfold insert
    cases hy : cmp x y with
    | lt => exact List.mem_cons.mpr h
    | eq =>
      cases Std.LawfulEqCmp.eq_of_compare hy
      exact List.mem_cons.mpr (h.elim .inl List.mem_cons.mp)
    | gt =>
      rw [List.mem_cons] at h ⊢
      rcases h with h | h | h
      · exact .inr (ih (.inl h))
      · exact .inl h
      · exact .inr (ih (.inr h))

theorem increasing_insert [Std.TransCmp cmp] {xs : List α} (h : Increasing cmp xs) (x : α) :
    Increasing cmp (insert cmp x xs) := by
  induction xs with
  | nil => simp [Increasing]
  | cons y ys ih =>
    obtain ⟨hy, hys⟩ := increasing_cons.mp h
    unfold insert
    cases hxy : cmp x y with
    | lt =>
      refine increasing_cons.mpr ⟨List.forall_mem_cons.mpr ⟨hxy, fun z hz => ?_⟩, h⟩
      exact lt_trans hxy (hy z hz)
    | eq =>
      refine increasing_cons.mpr ⟨fun z hz => ?_, hys⟩
      rw [Std.TransCmp.congr_left hxy]
      exact hy z hz
    | gt =>
      refine increasing_cons.mpr ⟨fun z hz => ?_, ih hys⟩
      rcases mem_of_mem_insert hz with rfl | hz
      · exact Std.OrientedCmp.gt_iff_lt.mp hxy
      · exact hy z hz

-- Putting an element in the place of an equal one does not change what equal elements share.
theorem map_insert_of_find? {β : Type} {f : α → β} {x y : α} {xs : List α}
    (shared : ∀ z, cmp x z = .eq → f x = f z) (h : find? (cmp x) xs = some y) :
    (insert cmp x xs).map f = xs.map f := by
  induction xs with
  | nil => cases h
  | cons z zs ih =>
    unfold find? at h
    unfold insert
    cases hz : cmp x z with
    | lt =>
      rw [hz] at h
      cases h
    | eq => rw [List.map_cons, List.map_cons, shared z hz]
    | gt =>
      rw [hz] at h
      rw [List.map_cons, List.map_cons, ih h]

/-! ## Union -/

theorem mem_of_mem_union {z : α} {xs ys : List α} (h : z ∈ union cmp xs ys) :
    z ∈ xs ∨ z ∈ ys := by
  induction xs generalizing ys with
  | nil => simpa using h
  | cons x xs ih =>
    rw [union_cons, List.mem_append] at h
    rw [mem_below_or_above cmp x ys]
    rcases h with h | h
    · exact .inr (.inl h)
    · split at h
      · exact .inl h
      · next y ys hs =>
        rw [hs]
        split at h <;> rcases List.mem_cons.mp h with rfl | h
        · simp
        · rcases ih h with h | h <;> simp [h]
        · simp
        · rcases ih h with h | h
          · simp [h]
          · exact .inr (.inr h)

theorem mem_union [Std.LawfulEqCmp cmp] {z : α} {xs ys : List α} :
    z ∈ union cmp xs ys ↔ z ∈ xs ∨ z ∈ ys := by
  refine ⟨mem_of_mem_union, fun h => ?_⟩
  induction xs generalizing ys with
  | nil => simpa using h
  | cons x xs ih =>
    rw [union_cons, List.mem_append]
    rw [mem_below_or_above cmp x ys] at h
    rcases h with h | h | h
    · refine .inr ?_
      split
      · exact h
      · split
        · next he =>
          rw [← Std.LawfulEqCmp.eq_of_compare he]
          rcases List.mem_cons.mp h with rfl | h
          · simp
          · exact List.mem_cons_of_mem _ (ih (.inl h))
        · rcases List.mem_cons.mp h with rfl | h
          · simp
          · exact List.mem_cons_of_mem _ (ih (.inl h))
    · exact .inl h
    · refine .inr ?_
      split
      · next hs => simp [hs] at h
      · next y ys hs =>
        rw [hs] at h
        split
        · rcases List.mem_cons.mp h with rfl | h
          · simp
          · exact List.mem_cons_of_mem _ (ih (.inr h))
        · exact List.mem_cons_of_mem _ (ih (.inr h))

theorem increasing_union [Std.TransCmp cmp] {xs ys : List α} (hx : Increasing cmp xs)
    (hy : Increasing cmp ys) : Increasing cmp (union cmp xs ys) := by
  induction xs generalizing ys with
  | nil => simpa using hy
  | cons x xs ih =>
    have ⟨hlt, hxs⟩ := increasing_cons.mp hx
    have h₁ := increasing_below hy x
    have h₂ := increasing_above hy x
    rw [union_cons, increasing_append]
    split
    · refine ⟨h₁, hx, fun a ha b hb => ?_⟩
      have ha := lt_of_mem_below ha
      rcases List.mem_cons.mp hb with rfl | hb
      · exact ha
      · exact lt_trans ha (hlt b hb)
    · next y zs hs =>
      rw [hs, increasing_cons] at h₂
      split
      · next he =>
        have tail : ∀ b ∈ union cmp xs zs, cmp y b = .lt := fun b hb => by
          rcases mem_of_mem_union hb with hb | hb
          · rw [← Std.TransCmp.congr_left he]; exact hlt b hb
          · exact h₂.1 b hb
        refine ⟨h₁, increasing_cons.mpr ⟨tail, ih hxs h₂.2⟩, fun a ha b hb => ?_⟩
        have hay : cmp a y = .lt := by
          rw [← Std.TransCmp.congr_right he]; exact lt_of_mem_below ha
        rcases List.mem_cons.mp hb with rfl | hb
        · exact hay
        · exact lt_trans hay (tail b hb)
      · next he =>
        have tail : ∀ b ∈ union cmp xs (y :: zs), cmp x b = .lt := fun b hb => by
          rcases mem_of_mem_union hb with hb | hb
          · exact hlt b hb
          · exact lt_of_above hy hs he b hb
        refine ⟨h₁, increasing_cons.mpr ⟨tail, ih hxs (increasing_cons.mpr h₂)⟩,
          fun a ha b hb => ?_⟩
        have hax := lt_of_mem_below ha
        rcases List.mem_cons.mp hb with rfl | hb
        · exact hax
        · exact lt_trans hax (tail b hb)

/-! ## Intersection, difference and inclusion -/

theorem sublist_inter (cmp : α → α → Ordering) (xs ys : List α) : (inter cmp xs ys).Sublist xs := by
  fun_induction inter cmp xs ys with
  | case1 => exact .slnil
  | case2 => exact List.nil_sublist _
  | case3 x xs ys y zs _ _ ih => exact ih.cons_cons x
  | case4 x xs ys y zs _ _ ih => exact ih.cons x

theorem sublist_diff (cmp : α → α → Ordering) (xs ys : List α) : (diff cmp xs ys).Sublist xs := by
  fun_induction diff cmp xs ys with
  | case1 => exact .slnil
  | case2 => exact .refl _
  | case3 x xs ys y zs _ _ ih => exact ih.cons x
  | case4 x xs ys y zs _ _ ih => exact ih.cons_cons x

theorem increasing_of_above {x : α} {ys zs : List α} (h : Increasing cmp ys)
    (hs : above cmp x ys = zs) : Increasing cmp zs := hs ▸ increasing_above h x

section Lawful

variable [Std.LawfulEqCmp cmp] {x y z : α} {xs ys zs : List α}

theorem ne_of_lt (h : cmp x y = .lt) : x ≠ y := by
  rintro rfl
  have hself : cmp x x = .eq := Std.ReflCmp.compare_self
  rw [hself] at h
  cases h

theorem not_mem_of_increasing (h : Increasing cmp (x :: xs)) : x ∉ xs := fun hmem =>
  ne_of_lt ((increasing_cons.mp h).1 x hmem) rfl

variable [Std.TransCmp cmp]

-- For the members of an increasing list nothing is lost with what lies below the first of them.
theorem mem_iff_mem_above (h : Increasing cmp (x :: xs)) (hs : above cmp x ys = zs)
    (hz : z ∈ x :: xs) : z ∈ ys ↔ z ∈ zs := by
  have hle : cmp z x ≠ .lt := by
    intro hlt
    rcases List.mem_cons.mp hz with rfl | hmem
    · exact ne_of_lt hlt rfl
    · exact ne_of_lt (lt_trans hlt ((increasing_cons.mp h).1 z hmem)) rfl
  rw [mem_below_or_above cmp x ys, hs]
  exact ⟨fun hor => hor.resolve_left fun hbelow => hle (lt_of_mem_below hbelow), .inr⟩

theorem not_mem_of_above (h : Increasing cmp ys) (hs : above cmp x ys = y :: zs)
    (hxy : cmp x y ≠ .eq) : x ∉ y :: zs := fun hmem =>
  ne_of_lt (lt_of_above h hs hxy x hmem) rfl

theorem mem_inter (hx : Increasing cmp xs) (hy : Increasing cmp ys) :
    z ∈ inter cmp xs ys ↔ z ∈ xs ∧ z ∈ ys := by
  fun_induction inter cmp xs ys with
  | case1 => simp
  | case2 x xs ys hs =>
    rw [and_congr_right (mem_iff_mem_above hx hs)]
    simp
  | case3 x xs ys y zs hs heq ih =>
    have hzs := (increasing_cons.mp (increasing_of_above hy hs)).2
    cases Std.LawfulEqCmp.eq_of_compare heq
    rw [and_congr_right (mem_iff_mem_above hx hs), List.mem_cons, List.mem_cons, List.mem_cons,
      ih (increasing_cons.mp hx).2 hzs, or_and_left]
  | case4 x xs ys y zs hs hne ih =>
    have hout := not_mem_of_above hy hs hne
    rw [and_congr_right (mem_iff_mem_above hx hs),
      ih (increasing_cons.mp hx).2 (increasing_of_above hy hs)]
    refine and_congr_left fun hz => ?_
    rw [List.mem_cons, or_iff_right]
    rintro rfl
    exact hout hz

theorem mem_diff (hx : Increasing cmp xs) (hy : Increasing cmp ys) :
    z ∈ diff cmp xs ys ↔ z ∈ xs ∧ z ∉ ys := by
  fun_induction diff cmp xs ys with
  | case1 => simp
  | case2 x xs ys hs =>
    rw [and_congr_right fun hz => not_congr (mem_iff_mem_above hx hs hz)]
    simp
  | case3 x xs ys y zs hs heq ih =>
    have hzs := (increasing_cons.mp (increasing_of_above hy hs)).2
    have hout := not_mem_of_increasing hx
    cases Std.LawfulEqCmp.eq_of_compare heq
    rw [and_congr_right fun hz => not_congr (mem_iff_mem_above hx hs hz),
      ih (increasing_cons.mp hx).2 hzs]
    grind
  | case4 x xs ys y zs hs hne ih =>
    have hout := not_mem_of_above hy hs hne
    rw [and_congr_right fun hz => not_congr (mem_iff_mem_above hx hs hz), List.mem_cons,
      ih (increasing_cons.mp hx).2 (increasing_of_above hy hs)]
    grind

theorem subset_iff (hx : Increasing cmp xs) (hy : Increasing cmp ys) :
    subset cmp xs ys = true ↔ xs ⊆ ys := by
  fun_induction subset cmp xs ys with
  | case1 => simp
  | case2 x xs ys hs =>
    have hout : x ∉ ys := by
      rw [mem_iff_mem_above hx hs List.mem_cons_self]
      exact List.not_mem_nil
    simp [hout]
  | case3 x xs ys y zs hs ih =>
    have hrest : x :: xs ⊆ ys ↔ x :: xs ⊆ y :: zs :=
      forall₂_congr fun z hz => mem_iff_mem_above hx hs hz
    have hzs := (increasing_cons.mp (increasing_of_above hy hs)).2
    rw [hrest, Bool.and_eq_true, beq_iff_eq, ih (increasing_cons.mp hx).2 hzs, List.cons_subset]
    by_cases heq : cmp x y = .eq
    · have hout := not_mem_of_increasing hx
      cases Std.LawfulEqCmp.eq_of_compare heq
      have hlater : xs ⊆ x :: zs ↔ xs ⊆ zs := forall₂_congr fun z hz =>
        List.mem_cons.trans (or_iff_right fun hzx => hout (hzx ▸ hz))
      simp [heq, hlater]
    · simp [heq, not_mem_of_above hy hs heq]

end Lawful

/-! ## Sorting -/

theorem mem_sortWithin [Std.LawfulEqCmp cmp] {z : α} (n : Nat) (xs : List α) :
    z ∈ sortWithin cmp n xs ↔ z ∈ xs := by
  fun_induction sortWithin cmp n xs with
  | case1 => rfl
  | case2 => rfl
  | case3 => rfl
  | case4 n xs _ _ half ih₁ ih₂ =>
    rw [mem_union, ih₁, ih₂, ← List.mem_append, List.take_append_drop]

theorem mem_ofList [Std.LawfulEqCmp cmp] {z : α} {xs : List α} :
    z ∈ ofList cmp xs ↔ z ∈ xs := mem_sortWithin xs.length xs

theorem mem_of_mem_sortWithin {z : α} (n : Nat) (xs : List α) (h : z ∈ sortWithin cmp n xs) :
    z ∈ xs := by
  fun_induction sortWithin cmp n xs with
  | case1 => exact h
  | case2 => exact h
  | case3 => exact h
  | case4 n xs _ _ half ih₁ ih₂ =>
    rw [← List.take_append_drop half xs, List.mem_append]
    exact (mem_of_mem_union h).imp ih₁ ih₂

theorem mem_of_mem_ofList {z : α} {xs : List α} (h : z ∈ ofList cmp xs) : z ∈ xs :=
  mem_of_mem_sortWithin _ _ h

theorem two_le_length {xs : List α} (h₀ : xs ≠ []) (h₁ : ∀ x, xs ≠ [x]) : 2 ≤ xs.length := by
  rcases xs with _ | ⟨x, _ | ⟨y, ys⟩⟩
  · exact absurd rfl h₀
  · exact absurd rfl (h₁ x)
  · simp

theorem increasing_sortWithin [Std.TransCmp cmp] (n : Nat) (xs : List α) (h : xs.length ≤ n) :
    Increasing cmp (sortWithin cmp n xs) := by
  fun_induction sortWithin cmp n xs with
  | case1 xs => cases xs with
    | nil => exact increasing_nil
    | cons => simp at h
  | case2 => exact increasing_nil
  | case3 => simp [Increasing]
  | case4 n xs h₀ h₁ half ih₁ ih₂ =>
    have hlen := two_le_length h₀ h₁
    have : half = xs.length / 2 := rfl
    exact increasing_union (ih₁ (by rw [List.length_take]; omega))
      (ih₂ (by rw [List.length_drop]; omega))

theorem increasing_ofList [Std.TransCmp cmp] (xs : List α) : Increasing cmp (ofList cmp xs) :=
  increasing_sortWithin _ _ (Nat.le_refl _)

end ActionSystem.Sorted
