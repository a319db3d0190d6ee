import ActionSystem.Proofs.Eval.Truth

/-!
# Operations on canonical values

Every operation on values gives a canonical value when its operands are canonical. Sets and
functions built from any elements and entries are canonical since they are sorted on the way. The
other operations make lists out of sorted ones directly: the proofs say why these are sorted again,
and why no function over `1, …, n` comes out in the form of its entries.
-/

namespace ActionSystem.Value

open Result (Gives)

variable {v w key : Value} {xs ys : List Value} {es fs : List (Value × Value)}

/-! ## What canonical values hold -/

theorem Canonical.elements (h : (Value.set xs).Canonical) : ∀ x ∈ xs, x.Canonical := by
  cases h with
  | set _ inside => exact inside

theorem Canonical.increasing (h : (Value.set xs).Canonical) : Sorted.Increasing cmp xs := by
  cases h with
  | set sorted _ => exact sorted

theorem Canonical.items (h : (Value.seq xs).Canonical) : ∀ x ∈ xs, x.Canonical := by
  cases h with
  | seq inside => exact inside

theorem Canonical.values (h : (Value.fn es).Canonical) : ∀ e ∈ es, e.2.Canonical := by
  cases h with
  | fn _ _ _ values => exact values

theorem gives_expectSet {op : String} (h : v.Canonical) :
    Gives (fun xs => (Value.set xs).Canonical) (v.expectSet op) := by
  intro xs hxs
  rw [expectSet_eq_ok] at hxs
  rw [← hxs]
  exact h

theorem gives_expectSeq {op : String} (h : v.Canonical) :
    Gives (fun xs => (Value.seq xs).Canonical) (v.expectSeq op) := by
  intro xs hxs
  cases v with
  | seq ys =>
    cases hxs
    exact h
  | _ => cases hxs

/-! ## Construction -/

theorem canonical_empty : (Value.set []).Canonical := .set Sorted.increasing_nil (by simp)

theorem canonical_singleton (h : v.Canonical) : (Value.set [v]).Canonical :=
  .set (List.pairwise_singleton _ v) (List.forall_mem_singleton.mpr h)

theorem canonical_ofElements (h : ∀ x ∈ xs, x.Canonical) : (ofElements xs).Canonical :=
  .set (Sorted.increasing_ofList xs) fun x hx => h x (Sorted.mem_of_mem_ofList hx)

theorem canonical_ofEntries (keys : ∀ e ∈ es, e.1.Canonical) (values : ∀ e ∈ es, e.2.Canonical) :
    (ofEntries es).Canonical := by
  have hmem : ∀ e ∈ Sorted.ofList cmpKey es, e ∈ es := fun e he => Sorted.mem_of_mem_ofList he
  unfold ofEntries ofSortedEntries
  by_cases hcount : keysCountFrom 1 (Sorted.ofList cmpKey es) = true
  · rw [if_pos hcount]
    exact .seq (List.forall_mem_map.mpr fun e he => values e (hmem e he))
  · rw [if_neg hcount]
    exact .fn (Sorted.increasing_ofList es) (by simpa using hcount)
      (fun e he => keys e (hmem e he)) fun e he => values e (hmem e he)

theorem canonical_ofFields {fs : List (String × Value)} (h : ∀ f ∈ fs, f.2.Canonical) :
    (ofFields fs).Canonical :=
  canonical_ofEntries (List.forall_mem_map.mpr fun f _ => .str f.1) (List.forall_mem_map.mpr h)

theorem cmp_int_eq_lt {m n : Int64} : cmp (.int m) (.int n) = .lt ↔ m.toInt < n.toInt := by
  rw [cmp, Std.compare_eq_lt, Int64.lt_iff_toInt_lt]

-- The integers of an interval do not leave the range, so that they come in order.
theorem increasing_interval (lo hi : Int64) : Sorted.Increasing cmp (interval lo hi) := by
  have hlo := lo.le_toInt
  have hhi := hi.toInt_lt
  refine List.pairwise_map.mpr (List.pairwise_lt_range.imp_of_mem fun {i j} hi hj hij => ?_)
  rw [List.mem_range] at hi hj
  rw [cmp_int_eq_lt, Int64.toInt_ofInt_of_le (by omega) (by omega),
    Int64.toInt_ofInt_of_le (by omega) (by omega)]
  omega

theorem canonical_interval (lo hi : Int64) : (Value.set (interval lo hi)).Canonical :=
  .set (increasing_interval lo hi) (List.forall_mem_map.mpr fun _ _ => .int _)

-- A quantifier ranges over canonical values only.
theorem Canonical.of_elements? (h : v.Canonical) (hxs : v.elements? = some xs) :
    ∀ x ∈ xs, x.Canonical := by
  cases h with
  | bool | int | str => cases hxs
  | set _ inside =>
    cases hxs
    exact inside
  | seq inside =>
    cases hxs
    exact fun x hx => inside x (Sorted.mem_of_mem_ofList hx)
  | fn _ _ keys _ =>
    cases hxs
    exact List.forall_mem_map.mpr keys

/-! ## Arithmetic -/

theorem gives_ofInt (op : String) (n : Int) : Gives Canonical (ofInt op n) := by
  unfold ofInt
  cases Integer.ofInt? n with
  | none => exact .error
  | some m => exact .pure (.int m)

theorem gives_div (v w : Value) : Gives Canonical (v.div w) := by
  refine .of_bind fun (m, n) => ?_
  dsimp only
  split
  · exact .error
  · cases Integer.quotient? m n with
    | none => exact .error
    | some q => exact .pure (.int _)

theorem gives_mod (v w : Value) : Gives Canonical (v.mod w) := by
  refine .of_bind fun (m, n) => ?_
  dsimp only
  split
  · exact .error
  · cases Integer.remainder? m n with
    | none => exact .error
    | some r => exact .pure (.int _)

/-! ## Sets -/

theorem gives_combine {op : String} {f : List Value → List Value → List Value}
    (hf : ∀ {xs ys}, (Value.set xs).Canonical → (Value.set ys).Canonical →
      (Value.set (f xs ys)).Canonical)
    (hv : v.Canonical) (hw : w.Canonical) : Gives Canonical (combine op f v w) :=
  .bind (gives_expectSet hv) fun _ hxs => .bind (gives_expectSet hw) fun _ hys =>
    .pure (hf hxs hys)

theorem Canonical.union (hx : (Value.set xs).Canonical) (hy : (Value.set ys).Canonical) :
    (Value.set (Sorted.union cmp xs ys)).Canonical :=
  .set (Sorted.increasing_union hx.increasing hy.increasing) fun x h =>
    (Sorted.mem_of_mem_union h).elim (hx.elements x) (hy.elements x)

theorem Canonical.insert (hx : (Value.set xs).Canonical) (hv : v.Canonical) :
    (Value.set (Sorted.insert cmp v xs)).Canonical :=
  .set (Sorted.increasing_insert hx.increasing v) fun x h =>
    (Sorted.mem_of_mem_insert h).elim (fun heq => heq ▸ hv) (hx.elements x)

theorem Canonical.of_sublist (hy : (Value.set ys).Canonical) (h : xs.Sublist ys) :
    (Value.set xs).Canonical :=
  .set (hy.increasing.sublist h) fun x hx => hy.elements x (h.subset hx)

theorem ne_nil_and_sublist_of_mem (h : ys ∈ nonemptySublists xs) : ys ≠ [] ∧ ys.Sublist xs := by
  induction xs generalizing ys with
  | nil => cases h
  | cons x xs ih =>
    rw [nonemptySublists, List.mem_cons, List.mem_append, List.mem_map] at h
    rcases h with rfl | ⟨zs, hzs, rfl⟩ | h
    · exact ⟨List.cons_ne_nil x [], (List.nil_sublist xs).cons_cons x⟩
    · exact ⟨List.cons_ne_nil x zs, (ih hzs).2.cons_cons x⟩
    · exact ⟨(ih h).1, (ih h).2.cons x⟩

-- Lists that start with the same element compare as their rests do.
theorem cmpAll_cons_self (x : Value) (xs ys : List Value) :
    cmpAll (x :: xs) (x :: ys) = cmpAll xs ys := by
  rw [cmpAll, cmp_self, Ordering.eq_then]

-- The sublists with the first element come before those without, and are in order themselves.
theorem increasing_nonemptySublists (h : Sorted.Increasing cmp xs) :
    Sorted.Increasing cmpAll (nonemptySublists xs) := by
  induction xs with
  | nil => exact Sorted.increasing_nil
  | cons x xs ih =>
    obtain ⟨hx, hxs⟩ := Sorted.increasing_cons.mp h
    have later : ∀ ys zs, zs ∈ nonemptySublists xs → cmpAll (x :: ys) zs = .lt := by
      intro ys zs hzs
      obtain ⟨hne, hsub⟩ := ne_nil_and_sublist_of_mem hzs
      cases zs with
      | nil => exact absurd rfl hne
      | cons z zs => rw [cmpAll, hx z (hsub.subset List.mem_cons_self), Ordering.lt_then]
    have shorter : ∀ zs ∈ (nonemptySublists xs).map (x :: ·), cmpAll [x] zs = .lt := by
      refine List.forall_mem_map.mpr fun zs hzs => ?_
      rw [cmpAll_cons_self]
      cases zs with
      | nil => exact absurd rfl (ne_nil_and_sublist_of_mem hzs).1
      | cons z zs => rfl
    refine Sorted.increasing_cons.mpr ⟨fun zs hzs => ?_, ?_⟩
    · exact (List.mem_append.mp hzs).elim (shorter zs) (later [] zs)
    refine Sorted.increasing_append.mpr ⟨?_, ih hxs, ?_⟩
    · refine List.pairwise_map.mpr ((ih hxs).imp fun {ys zs} hlt => ?_)
      rw [cmpAll_cons_self]
      exact hlt
    · exact List.forall_mem_map.mpr fun ys _ zs hzs => later ys zs hzs

theorem gives_powerset (h : v.Canonical) : Gives Canonical v.powerset := by
  refine .bind (gives_expectSet h) fun xs hxs => ?_
  split
  · exact .error
  · refine .pure (.set ?_ ?_)
    · refine Sorted.increasing_cons.mpr ⟨List.forall_mem_map.mpr fun ys hys => ?_, ?_⟩
      · cases ys with
        | nil => exact absurd rfl (ne_nil_and_sublist_of_mem hys).1
        | cons y ys => rfl
      · exact List.pairwise_map.mpr (increasing_nonemptySublists hxs.increasing)
    · refine List.forall_mem_cons.mpr ⟨hxs.of_sublist (List.nil_sublist xs), ?_⟩
      exact List.forall_mem_map.mpr fun ys hys =>
        hxs.of_sublist (ne_nil_and_sublist_of_mem hys).2

theorem gives_unionOnto {collected : List Value} (hc : (Value.set collected).Canonical)
    (h : ∀ x ∈ xs, x.Canonical) :
    Gives (fun ys => (Value.set ys).Canonical) (unionOnto collected xs) := by
  induction xs generalizing collected with
  | nil => exact .pure hc
  | cons x xs ih =>
    obtain ⟨hx, hxs⟩ := List.forall_mem_cons.mp h
    exact .bind (gives_expectSet hx) fun ys hys => ih (hc.union hys) hxs

theorem gives_bigUnion (h : v.Canonical) : Gives Canonical v.bigUnion :=
  .bind (gives_expectSet h) fun _ hxs =>
    .bind (gives_unionOnto (.set Sorted.increasing_nil (by simp)) hxs.elements) fun _ hys =>
      .pure hys

/-! ## Functions and sequences -/

theorem mem_of_valueAt? (h : valueAt? key es = some v) : (key, v) ∈ es := by
  obtain ⟨e, he, rfl⟩ := Option.map_eq_some_iff.mp h
  obtain ⟨hmem, heq⟩ := Sorted.mem_of_find? he
  rw [cmp_eq_iff.mp heq]
  exact hmem

theorem valueAt?_eq_some_iff (h : Sorted.Increasing cmpKey es) :
    valueAt? key es = some v ↔ (key, v) ∈ es := by
  refine ⟨mem_of_valueAt?, fun hmem => ?_⟩
  have hfind : Sorted.find? (cmpKey (key, v)) es = some (key, v) :=
    (Sorted.find?_eq_some_iff h).mpr ⟨hmem, cmp_self key⟩
  exact congrArg (Option.map (·.2)) hfind

theorem mem_of_itemAt? {i : Int64} (h : itemAt? i xs = some v) : v ∈ xs := by
  unfold itemAt? at h
  split at h
  · exact List.mem_of_getElem? h
  · cases h

theorem gives_apply (h : v.Canonical) (arg : Value) : Gives Canonical (v.apply arg) := by
  unfold Value.apply
  cases h with
  | bool | int | str | set => exact .error
  | seq inside =>
    refine .of_bind fun i => ?_
    split
    · next x hx => exact .pure (inside x (mem_of_itemAt? hx))
    · exact .error
  | fn _ _ _ values =>
    dsimp only
    split
    · next x hx => exact .pure (values (arg, x) (mem_of_valueAt? hx))
    · exact .error

theorem gives_field (h : v.Canonical) (name : String) : Gives Canonical (v.field name) := by
  unfold Value.field
  cases h with
  | bool | int | str | set | seq => exact .error
  | fn _ _ _ values =>
    dsimp only
    split
    · next x hx => exact .pure (values (.str name, x) (mem_of_valueAt? hx))
    · exact .error

-- Whether the entries are those of a sequence depends on their keys only.
theorem keysCountFrom_eq_true_iff {i : Nat} : keysCountFrom i es = true ↔
    es.map (·.1) = (List.range' i es.length).map fun k => .int (Int64.ofNat k) := by
  induction es generalizing i with
  | nil => simp [keysCountFrom]
  | cons e es ih => simp [keysCountFrom, List.range'_succ, ih]

theorem keysCountFrom_congr (h : es.map (·.1) = fs.map (·.1)) (i : Nat) :
    keysCountFrom i es = keysCountFrom i fs := by
  have hlength : es.length = fs.length := by
    rw [← List.length_map (·.1), h, List.length_map]
  rw [Bool.eq_iff_iff, keysCountFrom_eq_true_iff, keysCountFrom_eq_true_iff, h, hlength]

-- The update of a key that is there leaves the domain as it is, and with it the form.
theorem keys_insert (there : (valueAt? key es).isSome = true) :
    (Sorted.insert cmpKey (key, v) es).map (·.1) = es.map (·.1) := by
  obtain ⟨w, hw⟩ := Option.isSome_iff_exists.mp there
  obtain ⟨e, he, -⟩ := Option.map_eq_some_iff.mp hw
  exact Sorted.map_insert_of_find? (fun _ => eq_of_cmp_eq _ _) he

theorem canonical_insert (h : (Value.fn es).Canonical) (hkey : key.Canonical) (hv : v.Canonical)
    (there : (valueAt? key es).isSome = true) :
    (Value.fn (Sorted.insert cmpKey (key, v) es)).Canonical := by
  cases h with
  | fn sorted proper keys values =>
    have inside : ∀ {P : Value × Value → Prop}, P (key, v) → (∀ e ∈ es, P e) →
        ∀ e ∈ Sorted.insert cmpKey (key, v) es, P e := fun hnew hold e he =>
      (Sorted.mem_of_mem_insert he).elim (fun heq => heq ▸ hnew) (hold e)
    refine .fn (Sorted.increasing_insert sorted _) ?_ (inside hkey keys) (inside hv values)
    rw [keysCountFrom_congr (keys_insert there)]
    exact proper

theorem gives_except (h : v.Canonical) (hkey : key.Canonical) (hw : w.Canonical) :
    Gives Canonical (v.except key w) := by
  unfold Value.except
  cases v with
  | bool | int | str | set => exact .error
  | seq xs =>
    refine .of_bind fun i => ?_
    split
    · refine .pure (.seq fun x hx => ?_)
      exact (List.mem_or_eq_of_mem_set hx).elim (h.items x) (fun heq => heq ▸ hw)
    · exact .error
  | fn es =>
    dsimp only
    split
    · next there => exact .pure (canonical_insert h hkey hw there)
    · exact .error

-- The keys of a function are sorted, since its entries are sorted by key.
theorem gives_domain (h : v.Canonical) : Gives Canonical v.domain := by
  unfold Value.domain
  cases h with
  | bool | int | str | set => exact .error
  | seq => exact .pure (canonical_interval _ _)
  | fn sorted _ keys _ =>
    exact .pure (.set (List.pairwise_map.mpr sorted) (List.forall_mem_map.mpr keys))

theorem gives_head (h : v.Canonical) : Gives Canonical v.head := by
  refine .bind (gives_expectSeq h) fun xs hxs => ?_
  cases xs with
  | nil => exact .error
  | cons x xs => exact .pure (hxs.items x List.mem_cons_self)

theorem gives_tail (h : v.Canonical) : Gives Canonical v.tail := by
  refine .bind (gives_expectSeq h) fun xs hxs => ?_
  cases xs with
  | nil => exact .error
  | cons x xs => exact .pure (.seq fun y hy => hxs.items y (List.mem_cons_of_mem x hy))

theorem gives_append (hv : v.Canonical) (hw : w.Canonical) : Gives Canonical (v.append w) := by
  refine .bind (gives_expectSeq hv) fun xs hxs => .pure (.seq ?_)
  exact List.forall_mem_append.mpr ⟨hxs.items, List.forall_mem_singleton.mpr hw⟩

theorem gives_concat (hv : v.Canonical) (hw : w.Canonical) : Gives Canonical (v.concat w) := by
  cases v with
  | bool | int | set | fn => exact .error
  | str s =>
    cases w with
    | str t => exact .pure (.str _)
    | _ => exact .error
  | seq xs =>
    cases w with
    | seq ys => exact .pure (.seq (List.forall_mem_append.mpr ⟨hv.items, hw.items⟩))
    | _ => exact .error

end ActionSystem.Value
