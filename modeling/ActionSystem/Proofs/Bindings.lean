import ActionSystem.Proofs.Solve.Declarations

/-!
# States from bindings

A list of bindings makes a state if it binds every declared name once and no other name; its order
does not matter then. Otherwise the first binding that is undeclared or repeated is reported, and a
name without a binding only if there is no such binding.
-/

namespace ActionSystem.State

variable {vars : List String} {bs done : List (String × Value)} {x : String} {v : Value}
  {s : State} {e : BindingError}

/-! ## Bindings in error -/

structure Fits (vars : List String) (bs : List (String × Value)) : Prop where
  declared : ∀ b ∈ bs, b.1 ∈ vars
  distinct : (bs.map (·.1)).Nodup

structure BindsOnce (vars : List String) (bs : List (String × Value)) : Prop where
  declared : ∀ b ∈ bs, b.1 ∈ vars
  once : ∀ x ∈ vars, (bs.map (·.1)).count x = 1

/-- What is wrong with a list of bindings. -/
inductive FirstFault (vars : List String) : List (String × Value) → BindingError → Prop where
  | unknown {before after x v} (fits : Fits vars before) (undeclared : x ∉ vars) :
      FirstFault vars (before ++ (x, v) :: after) (.unknown x)
  | duplicate {before after x v} (fits : Fits vars before) (repeated : x ∈ before.map (·.1)) :
      FirstFault vars (before ++ (x, v) :: after) (.duplicate x)
  | missing {bs earlier x later} (fits : Fits vars bs) (split : vars = earlier ++ x :: later)
      (bound : ∀ y ∈ earlier, y ∈ bs.map (·.1)) (unbound : x ∉ bs.map (·.1)) :
      FirstFault vars bs (.missing x)

theorem fits_nil (vars : List String) : Fits vars [] := ⟨by simp, by simp⟩

theorem Fits.concat (h : Fits vars bs) (declared : x ∈ vars) (fresh : x ∉ bs.map (·.1)) :
    Fits vars (bs ++ [(x, v)]) where
  declared := by
    intro b hb
    rcases List.mem_append.mp hb with hb | hb
    · exact h.declared b hb
    · obtain rfl : b = (x, v) := by simpa using hb
      exact declared
  distinct := by
    rw [List.map_append, List.nodup_append]
    refine ⟨h.distinct, by simp, ?_⟩
    intro y hy z hz heq
    obtain rfl : z = x := by simpa using hz
    exact fresh (heq ▸ hy)

theorem Fits.mem_unique {w : Value} (h : Fits vars bs) (hv : (x, v) ∈ bs) (hw : (x, w) ∈ bs) :
    v = w := by
  have heq := List.inj_on_of_nodup_map h.distinct hv hw rfl
  exact (Prod.mk.inj heq).2

theorem bindsOnce_iff : BindsOnce vars bs ↔ Fits vars bs ∧ ∀ x ∈ vars, x ∈ bs.map (·.1) := by
  constructor
  · intro h
    refine ⟨⟨h.declared, List.nodup_iff_count_le_one.mpr fun x => ?_⟩, fun x hx => ?_⟩
    · by_cases hx : x ∈ bs.map (·.1)
      · obtain ⟨b, hb, rfl⟩ := List.mem_map.mp hx
        exact Nat.le_of_eq (h.once _ (h.declared b hb))
      · rw [List.count_eq_zero_of_not_mem hx]
        exact Nat.zero_le 1
    · refine List.count_pos_iff.mp ?_
      rw [h.once x hx]
      exact Nat.one_pos
  · intro h
    obtain ⟨fits, bound⟩ := h
    exact ⟨fits.declared, fun x hx => List.count_eq_one_of_mem fits.distinct (bound x hx)⟩

theorem BindsOnce.perm {bs' : List (String × Value)} (h : BindsOnce vars bs) (hp : bs'.Perm bs) :
    BindsOnce vars bs' where
  declared := fun b hb => h.declared b (hp.mem_iff.mp hb)
  once := by
    intro x hx
    rw [(hp.map _).count_eq]
    exact h.once x hx

-- By induction from the end, so that the first fault stays the first.
theorem fits_or_firstFault (vars : List String) (bs : List (String × Value)) :
    Fits vars bs ∨ ∃ e, FirstFault vars bs e ∧ ∀ x, e ≠ .missing x := by
  induction bs using List.reverseRecOn with
  | nil => exact .inl (fits_nil vars)
  | append_singleton bs b ih =>
    obtain ⟨x, v⟩ := b
    rcases ih with fits | ⟨e, fault, hne⟩
    · by_cases declared : x ∈ vars
      · by_cases fresh : x ∈ bs.map (·.1)
        · exact .inr ⟨_, .duplicate fits fresh, by simp⟩
        · exact .inl (fits.concat declared fresh)
      · exact .inr ⟨_, .unknown fits declared, by simp⟩
    · refine .inr ⟨e, ?_, hne⟩
      cases fault with
      | unknown fits undeclared =>
        rw [List.append_assoc]
        exact .unknown fits undeclared
      | duplicate fits repeated =>
        rw [List.append_assoc]
        exact .duplicate fits repeated
      | missing => exact absurd rfl (hne _)

/-- A list of bindings is in order, or there is something wrong with it. -/
theorem bindsOnce_or_firstFault (vars : List String) (bs : List (String × Value)) :
    BindsOnce vars bs ∨ ∃ e, FirstFault vars bs e := by
  rcases fits_or_firstFault vars bs with fits | ⟨e, fault, -⟩
  · cases hfind : vars.find? (· ∉ bs.map (·.1)) with
    | none =>
      refine .inl (bindsOnce_iff.mpr ⟨fits, fun x hx => ?_⟩)
      simpa using List.find?_eq_none.mp hfind x hx
    | some x =>
      obtain ⟨hx, earlier, later, hsplit, hearlier⟩ := List.find?_eq_some_iff_append.mp hfind
      refine .inr ⟨_, .missing fits hsplit (fun y hy => ?_) (of_decide_eq_true hx)⟩
      simpa using hearlier y hy
  · exact .inr ⟨e, fault⟩

/-! ## Places -/

def placed (vars : List String) (bs : List (String × Value)) : List (Option Value) :=
  vars.map fun x => bs.lookup x

theorem lookup_isSome : (bs.lookup x).isSome ↔ x ∈ bs.map (·.1) := by
  rw [Option.isSome_iff_ne_none, ne_eq, List.lookup_eq_none_iff]
  simp

theorem mem_of_lookup (h : bs.lookup x = some v) : (x, v) ∈ bs := by
  obtain ⟨before, after, rfl, -⟩ := List.lookup_eq_some_iff.mp h
  simp

theorem placed_nil (vars : List String) : placed vars [] = List.replicate vars.length none := by
  simp [placed, List.map_const']

theorem placed_concat (nodup : vars.Nodup) {i : Nat} (hi : vars.findIdx? (· == x) = some i)
    (fresh : x ∉ done.map (·.1)) (v : Value) :
    (placed vars done).set i (some v) = placed vars (done ++ [(x, v)]) := by
  obtain ⟨hlt, hx, -⟩ := List.findIdx?_eq_some_iff_getElem.mp hi
  have hx : vars[i] = x := eq_of_beq hx
  refine List.ext_getElem (by simp [placed]) fun j hj hj' => ?_
  have hjlt : j < vars.length := by simpa [placed] using hj'
  rw [List.getElem_set]
  simp only [placed, List.getElem_map, List.lookup_append]
  by_cases hij : i = j
  · subst hij
    rw [if_pos rfl, hx, Option.not_isSome_iff_eq_none.mp (mt lookup_isSome.mp fresh)]
    simp
  · have hne : vars[j] ≠ x := fun heq => hij ((nodup.getElem_inj_iff).mp (hx.trans heq.symm))
    rw [if_neg hij, List.lookup_cons, beq_false_of_ne hne]
    simp

/-- One binding is put into its place, or is in error. -/
theorem bindAll_cons (nodup : vars.Nodup) :
    bindAll vars (placed vars done) ((x, v) :: bs) =
      if x ∉ vars then .error (.unknown x)
      else if x ∈ done.map (·.1) then .error (.duplicate x)
      else bindAll vars (placed vars (done ++ [(x, v)])) bs := by
  rw [bindAll]
  by_cases declared : x ∈ vars
  · obtain ⟨i, hi⟩ : ∃ i, vars.findIdx? (· == x) = some i := by
      refine Option.isSome_iff_exists.mp ?_
      simpa [List.findIdx?_isSome] using declared
    obtain ⟨hlt, hx, -⟩ := List.findIdx?_eq_some_iff_getElem.mp hi
    have hplace : (placed vars done)[i]?.join = done.lookup x := by
      rw [placed, List.getElem?_map, List.getElem?_eq_getElem hlt, eq_of_beq hx]
      rfl
    rw [if_neg (not_not.mpr declared), hi]
    simp only [hplace, lookup_isSome]
    by_cases repeated : x ∈ done.map (·.1)
    · rw [if_pos repeated, if_pos repeated]
    · rw [if_neg repeated, if_neg repeated, placed_concat nodup hi repeated]
  · have hi : vars.findIdx? (· == x) = none := by
      rw [List.findIdx?_eq_none_iff]
      exact fun y hy => beq_false_of_ne fun heq => declared (heq ▸ hy)
    rw [if_pos declared, hi]

/-- Bindings that fit are put into their places. -/
theorem bindAll_append (nodup : vars.Nodup) {before : List (String × Value)}
    (fits : Fits vars (done ++ before)) (rest : List (String × Value)) :
    bindAll vars (placed vars done) (before ++ rest) =
      bindAll vars (placed vars (done ++ before)) rest := by
  induction before generalizing done with
  | nil => rw [List.nil_append, List.append_nil]
  | cons b before ih =>
    obtain ⟨x, v⟩ := b
    have declared : x ∈ vars := fits.declared (x, v) (by simp)
    have fresh : x ∉ done.map (·.1) := by
      intro hmem
      have hdisjoint := fits.distinct
      rw [List.map_append, List.nodup_append] at hdisjoint
      exact hdisjoint.2.2 x hmem x (by simp) rfl
    rw [List.append_cons] at fits ⊢
    rw [List.cons_append, bindAll_cons nodup, if_neg (not_not.mpr declared), if_neg fresh, ih fits]

/-! ## Values -/

theorem valuesOf_cons (x : String) (xs : List String) (slot : Option Value)
    (slots : List (Option Value)) :
    valuesOf (x :: xs) (slot :: slots) = do
      match slot with
      | none => .error (.missing x)
      | some v => return v :: (← valuesOf xs slots) := rfl

theorem valuesOf_of_forall {f : String → Option Value} {g : String → Value}
    (h : ∀ x ∈ vars, f x = some (g x)) : valuesOf vars (vars.map f) = .ok (vars.map g) := by
  induction vars with
  | nil => rfl
  | cons x xs ih =>
    obtain ⟨hx, hxs⟩ := List.forall_mem_cons.mp h
    rw [List.map_cons, valuesOf_cons, hx, ih hxs]
    rfl

theorem valuesOf_of_first {f : String → Option Value} {earlier later : List String}
    (bound : ∀ y ∈ earlier, (f y).isSome) (unbound : f x = none) :
    valuesOf (earlier ++ x :: later) ((earlier ++ x :: later).map f) = .error (.missing x) := by
  induction earlier with
  | nil =>
    rw [List.nil_append, List.map_cons, valuesOf_cons, unbound]
  | cons y ys ih =>
    obtain ⟨hy, hys⟩ := List.forall_mem_cons.mp bound
    obtain ⟨w, hw⟩ := Option.isSome_iff_exists.mp hy
    rw [List.cons_append, List.map_cons, valuesOf_cons, hw, ih hys]
    rfl

/-! ## States -/

/-- Bindings that fit leave it to the places whether there is a state. -/
theorem ofBindings_of_fits (nodup : vars.Nodup) (fits : Fits vars bs) :
    ofBindings vars bs = (valuesOf vars (placed vars bs)).map .mk := by
  have hall := bindAll_append nodup (List.nil_append bs ▸ fits) []
  rw [List.append_nil, List.nil_append, placed_nil] at hall
  rw [ofBindings, hall]
  show (do return State.mk (← valuesOf vars (placed vars bs))) = _
  cases valuesOf vars (placed vars bs) <;> rfl

structure Binds (vars : List String) (bs : List (String × Value)) (s : State) : Prop where
  full : s.values.length = vars.length
  bound : ∀ x v, s.valueOf? vars x = some v ↔ (x, v) ∈ bs

theorem exists_ofBindings (nodup : vars.Nodup) (h : BindsOnce vars bs) :
    ∃ s, ofBindings vars bs = .ok s ∧ Binds vars bs s := by
  obtain ⟨fits, hall⟩ := bindsOnce_iff.mp h
  let g : String → Value := fun x => (bs.lookup x).getD default
  have hg : ∀ x ∈ vars, bs.lookup x = some (g x) := by
    intro x hx
    obtain ⟨v, hv⟩ := Option.isSome_iff_exists.mp (lookup_isSome.mpr (hall x hx))
    simp only [g, hv, Option.getD_some]
  have hvalue : ∀ x ∈ vars, (State.mk (vars.map g)).valueOf? vars x = some (g x) := by
    intro x hx
    obtain ⟨i, hi⟩ := List.mem_iff_getElem?.mp hx
    rw [valueOf?_of_getElem? nodup hi, List.getElem?_map, hi]
    rfl
  refine ⟨⟨vars.map g⟩, ?_, by simp, fun x v => ⟨fun hx => ?_, fun hx => ?_⟩⟩
  · rw [ofBindings_of_fits nodup fits, placed, valuesOf_of_forall hg]
    rfl
  · by_cases declared : x ∈ vars
    · rw [hvalue x declared] at hx
      exact mem_of_lookup ((hg x declared).trans hx)
    · rw [valueOf?_of_not_mem declared] at hx
      cases hx
  · have declared := fits.declared _ hx
    rw [hvalue x declared, fits.mem_unique hx (mem_of_lookup (hg x declared))]

theorem ofBindings_of_firstFault (nodup : vars.Nodup) (h : FirstFault vars bs e) :
    ofBindings vars bs = .error e := by
  have hstart (before rest : List (String × Value)) (fits : Fits vars before) :
      bindAll vars (List.replicate vars.length none) (before ++ rest) =
        bindAll vars (placed vars before) rest := by
    have hbefore := bindAll_append nodup (List.nil_append before ▸ fits) rest
    rwa [List.nil_append, placed_nil] at hbefore
  cases h with
  | unknown fits undeclared =>
    rw [ofBindings, hstart _ _ fits, bindAll_cons nodup, if_pos undeclared]
    rfl
  | @duplicate before after x v fits repeated =>
    obtain ⟨b, hb, hx⟩ := List.mem_map.mp repeated
    have declared : x ∈ vars := hx ▸ fits.declared b hb
    rw [ofBindings, hstart _ _ fits, bindAll_cons nodup, if_neg (not_not.mpr declared),
      if_pos repeated]
    rfl
  | @missing _ earlier x later fits split bound unbound =>
    have hunbound : bs.lookup x = none :=
      Option.not_isSome_iff_eq_none.mp (mt lookup_isSome.mp unbound)
    have hvalues : valuesOf vars (placed vars bs) = .error (.missing x) := by
      rw [placed, split]
      exact valuesOf_of_first (fun y hy => lookup_isSome.mpr (bound y hy)) hunbound
    rw [ofBindings_of_fits nodup fits, hvalues]
    rfl

-- Bindings that are those of two states make them equal.
theorem Binds.eq {t : State} (nodup : vars.Nodup) (hs : Binds vars bs s) (ht : Binds vars bs t) :
    s = t := by
  refine eq_of_valueOf?_eq nodup hs.full ht.full fun x => Option.ext fun v => ?_
  rw [hs.bound, ht.bound]

theorem Binds.perm {bs' : List (String × Value)} (h : Binds vars bs s) (hp : bs'.Perm bs) :
    Binds vars bs' s where
  full := h.full
  bound := fun x v => (h.bound x v).trans hp.mem_iff.symm

/-- Bindings make a state exactly when they bind every declared name once and no other. In whatever
order they come, the state is the one that has the bound values, and its fingerprint is the same.
In all other cases the first fault is reported. -/
theorem ofBindings_total (nodup : vars.Nodup) (bs : List (String × Value)) :
    ((∃ s, ofBindings vars bs = .ok s) ↔ BindsOnce vars bs) ∧
      (∀ s, ofBindings vars bs = .ok s → Binds vars bs s ∧
        ∀ bs', bs'.Perm bs →
          ∃ t, ofBindings vars bs' = .ok t ∧ t = s ∧
            ∀ nested, t.fingerprint nested = s.fingerprint nested) ∧
      ∀ e, ofBindings vars bs = .error e ↔ FirstFault vars bs e := by
  rcases bindsOnce_or_firstFault vars bs with once | ⟨e, fault⟩
  · obtain ⟨s, hs, binds⟩ := exists_ofBindings nodup once
    refine ⟨iff_of_true ⟨s, hs⟩ once, fun t ht => ?_, fun e => ⟨fun he => ?_, fun fault => ?_⟩⟩
    · rw [hs] at ht
      cases ht
      refine ⟨binds, fun bs' hp => ?_⟩
      obtain ⟨t, ht, binds'⟩ := exists_ofBindings nodup (once.perm hp)
      have heq : t = s := binds'.eq nodup (binds.perm hp)
      exact ⟨t, ht, heq, fun _ => heq ▸ rfl⟩
    · rw [hs] at he
      cases he
    · exact ofBindings_of_firstFault nodup fault
  · have herror := ofBindings_of_firstFault nodup fault
    refine ⟨iff_of_false ?_ fun once => ?_, fun s hs => ?_, fun e' => ⟨fun he => ?_, fun h => ?_⟩⟩
    · rintro ⟨s, hs⟩
      rw [herror] at hs
      cases hs
    · obtain ⟨s, hs, -⟩ := exists_ofBindings nodup once
      rw [herror] at hs
      cases hs
    · rw [herror] at hs
      cases hs
    · rw [herror] at he
      cases he
      exact fault
    · exact ofBindings_of_firstFault nodup h

-- In the second list `w` is undeclared, `y` is bound twice and `x` is not bound.
theorem ofBindings_total_swapped :
    let vars := ["x", "y"]
    let swapped := [("y", .int 2), ("x", .int 1)]
    let faulty := [("y", .int 2), ("w", .int 1), ("y", .int 3)]
    vars.Nodup ∧ BindsOnce vars swapped ∧ Binds vars swapped ⟨[.int 1, .int 2]⟩ ∧
      FirstFault vars faulty (.unknown "w") := by
  intro vars swapped faulty
  have nodup : vars.Nodup := by decide
  obtain ⟨succeeds, state, -⟩ := ofBindings_total nodup swapped
  obtain ⟨-, -, fails⟩ := ofBindings_total nodup faulty
  have hswapped : ofBindings vars swapped = .ok ⟨[.int 1, .int 2]⟩ := rfl
  have hfaulty : ofBindings vars faulty = .error (.unknown "w") := rfl
  exact ⟨nodup, succeeds.mp ⟨_, hswapped⟩, (state _ hswapped).1, (fails _).mp hfaulty⟩

end ActionSystem.State
