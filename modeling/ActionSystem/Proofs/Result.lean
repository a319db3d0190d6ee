/-!
# Computations that may fail

When a computation that consists of several others has a result, so do its parts. The statements
are equivalences where the result fixes those of the parts. A property is carried from the parts to
the whole by the rules of `Gives` if it is one of results, and of `Fails` if it is one of errors.
The rules of `Yields` compare a computation with another one that gives no reasons for its failure.
-/

namespace ActionSystem.Result

variable {ε α β : Type}

-- A sequence of computations has a result exactly when each of them has one.
@[simp] theorem bind_eq_ok {x : Except ε α} {f : α → Except ε β} {b : β} :
    x >>= f = .ok b ↔ ∃ a, x = .ok a ∧ f a = .ok b := by
  cases x with
  | ok a =>
    constructor
    · intro h
      exact ⟨a, rfl, h⟩
    · intro h
      obtain ⟨_, ⟨⟩, h⟩ := h
      exact h
  | error e =>
    constructor
    · intro h
      cases h
    · intro h
      obtain ⟨_, ⟨⟩, _⟩ := h

@[simp] theorem pure_eq_ok {a b : α} : (pure a : Except ε α) = .ok b ↔ a = b := by
  simp [pure, Except.pure]

/-! ## Lists -/

-- The results for the items of a list, one for each.
theorem exists_map_of_mapM [Nonempty β] {f : α → Except ε β} {xs : List α} {ys : List β}
    (h : xs.mapM f = .ok ys) : ∃ g, (∀ x ∈ xs, f x = .ok (g x)) ∧ ys = xs.map g := by
  let g : α → β := fun x => match f x with
    | .ok y => y
    | .error _ => Classical.ofNonempty
  refine ⟨g, ?_⟩
  induction xs generalizing ys with
  | nil =>
    rw [List.mapM_nil, pure_eq_ok] at h
    subst h
    exact ⟨by simp, rfl⟩
  | cons x xs ih =>
    simp only [List.mapM_cons, bind_eq_ok, pure_eq_ok] at h
    obtain ⟨y, hy, zs, hzs, rfl⟩ := h
    obtain ⟨hall, hmap⟩ := ih hzs
    have hg : g x = y := by
      simp only [g, hy]
    refine ⟨List.forall_mem_cons.mpr ⟨hg ▸ hy, hall⟩, ?_⟩
    rw [List.map_cons, hg, ← hmap]

theorem allM_congr {p q : α → Except ε Bool} {xs : List α} (h : ∀ x ∈ xs, p x = q x) :
    xs.allM p = xs.allM q := by
  induction xs with
  | nil => rfl
  | cons x xs ih =>
    obtain ⟨hx, hxs⟩ := List.forall_mem_cons.mp h
    simp only [List.allM, hx, ih hxs]

section

variable {p : α → Except ε Bool} {xs : List α}

/-- A search ends at the first item for which the test is not false. -/
theorem anyM_eq_iff {r : Except ε Bool} (ends : r ≠ .ok false) :
    xs.anyM p = r ↔ ∃ (i : Nat) (x : α), xs[i]? = some x ∧
      (∀ (j : Nat) (y : α), j < i → xs[j]? = some y → p y = .ok false) ∧ p x = r := by
  induction xs with
  | nil =>
    have hnil : ([] : List α).anyM p = .ok false := rfl
    rw [hnil]
    exact iff_of_false ends.symm (by simp)
  | cons x xs ih =>
    by_cases hx : p x = .ok false
    · have hcons : (x :: xs).anyM p = xs.anyM p := by
        rw [List.anyM, hx]
        rfl
      rw [hcons, ih]
      constructor
      · rintro ⟨i, y, hy, earlier, hr⟩
        refine ⟨i + 1, y, hy, fun j z hj hz => ?_, hr⟩
        cases j with
        | zero =>
          cases hz
          exact hx
        | succ j => exact earlier j z (by omega) hz
      · rintro ⟨i, y, hy, earlier, hr⟩
        cases i with
        | zero =>
          cases hy
          exact absurd (hr.symm.trans hx) ends
        | succ i => exact ⟨i, y, hy, fun j z hj hz => earlier (j + 1) z (by omega) hz, hr⟩
    · have hcons : (x :: xs).anyM p = p x := by
        rw [List.anyM]
        cases hb : p x with
        | error e => rfl
        | ok b =>
          cases b with
          | true => rfl
          | false => exact absurd hb hx
      rw [hcons]
      constructor
      · intro hr
        exact ⟨0, x, rfl, fun j y hj => absurd hj (by omega), hr⟩
      · rintro ⟨i, y, hy, earlier, hr⟩
        cases i with
        | zero =>
          cases hy
          exact hr
        | succ i => exact absurd (earlier 0 x (by omega) rfl) hx

theorem exists_of_anyM (h : xs.anyM p = .ok true) : ∃ a ∈ xs, p a = .ok true := by
  obtain ⟨i, a, ha, -, hp⟩ := (anyM_eq_iff (by simp)).mp h
  exact ⟨a, List.mem_of_getElem? ha, hp⟩

theorem forall_of_anyM (h : xs.anyM p = .ok false) : ∀ a ∈ xs, p a = .ok false := by
  induction xs with
  | nil => simp
  | cons a as ih =>
    rw [List.anyM, bind_eq_ok] at h
    obtain ⟨b, hb, h⟩ := h
    cases b with
    | true => cases h
    | false => exact List.forall_mem_cons.mpr ⟨hb, ih h⟩

theorem exists_of_allM (h : xs.allM p = .ok false) : ∃ a ∈ xs, p a = .ok false := by
  induction xs with
  | nil => cases h
  | cons a as ih =>
    rw [List.allM, bind_eq_ok] at h
    obtain ⟨b, hb, h⟩ := h
    cases b with
    | true =>
      obtain ⟨a', ha', hp⟩ := ih h
      exact ⟨a', List.mem_cons_of_mem _ ha', hp⟩
    | false => exact ⟨a, List.mem_cons_self, hb⟩

theorem forall_of_allM (h : xs.allM p = .ok true) : ∀ a ∈ xs, p a = .ok true := by
  induction xs with
  | nil => simp
  | cons a as ih =>
    rw [List.allM, bind_eq_ok] at h
    obtain ⟨b, hb, h⟩ := h
    cases b with
    | true => exact List.forall_mem_cons.mpr ⟨hb, ih h⟩
    | false => cases h

end

def passes (p : α → Except ε Bool) (x : α) : Bool :=
  match p x with
  | .ok b => b
  | .error _ => false

theorem passes_eq {p : α → Except ε Bool} {x : α} {b : Bool} (h : p x = .ok b) :
    passes p x = b := by
  rw [passes, h]

-- The items kept so far are held in reverse.
theorem filterAuxM_eq_ok {p : α → Except ε Bool} {xs kept ys : List α}
    (h : xs.filterAuxM p kept = .ok ys) :
    (∀ x ∈ xs, p x = .ok (passes p x)) ∧ ys.reverse = kept.reverse ++ xs.filter (passes p) := by
  induction xs generalizing kept with
  | nil =>
    rw [List.filterAuxM, pure_eq_ok] at h
    subst h
    simp
  | cons x xs ih =>
    rw [List.filterAuxM, bind_eq_ok] at h
    obtain ⟨b, hb, h⟩ := h
    obtain ⟨hall, hys⟩ := ih h
    refine ⟨List.forall_mem_cons.mpr ⟨(passes_eq hb).symm ▸ hb, hall⟩, ?_⟩
    rw [hys, List.filter_cons, passes_eq hb]
    cases b <;> simp

-- All items are tested, and those that pass are kept.
theorem filterM_eq_ok {p : α → Except ε Bool} {xs ys : List α} (h : xs.filterM p = .ok ys) :
    (∀ x ∈ xs, p x = .ok (passes p x)) ∧ ys = xs.filter (passes p) := by
  rw [List.filterM, bind_eq_ok] at h
  obtain ⟨zs, hzs, h⟩ := h
  obtain ⟨hall, hfilter⟩ := filterAuxM_eq_ok hzs
  exact ⟨hall, (pure_eq_ok.mp h).symm.trans hfilter⟩

theorem sublist_of_filterM {p : α → Except ε Bool} {xs ys : List α}
    (h : xs.filterM p = .ok ys) : ys.Sublist xs := by
  rw [(filterM_eq_ok h).2]
  exact List.filter_sublist

theorem mem_of_findM? {p : α → Except ε Bool} {xs : List α} {x : α}
    (h : xs.findM? p = .ok (some x)) : x ∈ xs := by
  induction xs with
  | nil => cases h
  | cons y ys ih =>
    rw [List.findM?, bind_eq_ok] at h
    obtain ⟨b, -, h⟩ := h
    cases b with
    | true =>
      cases h
      exact List.mem_cons_self
    | false => exact List.mem_cons_of_mem _ (ih h)

/-! ## Loops with a result for every item -/

section

variable {p : α → Except ε Bool} {q : α → Bool} {xs : List α}

theorem mapM_of_forall {f : α → Except ε β} {g : α → β} (h : ∀ x ∈ xs, f x = .ok (g x)) :
    xs.mapM f = .ok (xs.map g) := by
  induction xs with
  | nil => rfl
  | cons x xs ih =>
    obtain ⟨hx, hxs⟩ := List.forall_mem_cons.mp h
    rw [List.mapM_cons, hx, ih hxs]
    rfl

theorem anyM_of_forall (h : ∀ x ∈ xs, p x = .ok (q x)) : xs.anyM p = .ok (xs.any q) := by
  induction xs with
  | nil => rfl
  | cons x xs ih =>
    obtain ⟨hx, hxs⟩ := List.forall_mem_cons.mp h
    rw [List.anyM, hx, List.any_cons]
    cases q x with
    | true => rfl
    | false => exact ih hxs

theorem allM_of_forall (h : ∀ x ∈ xs, p x = .ok (q x)) : xs.allM p = .ok (xs.all q) := by
  induction xs with
  | nil => rfl
  | cons x xs ih =>
    obtain ⟨hx, hxs⟩ := List.forall_mem_cons.mp h
    rw [List.allM, hx, List.all_cons]
    cases q x with
    | true => exact ih hxs
    | false => rfl

theorem findM?_of_forall (h : ∀ x ∈ xs, p x = .ok (q x)) : xs.findM? p = .ok (xs.find? q) := by
  induction xs with
  | nil => rfl
  | cons x xs ih =>
    obtain ⟨hx, hxs⟩ := List.forall_mem_cons.mp h
    rw [List.findM?, hx, List.find?_cons]
    cases q x with
    | true => rfl
    | false => exact ih hxs

end

/-! ## Properties of results -/

def Gives (P : α → Prop) (x : Except ε α) : Prop := ∀ a, x = .ok a → P a

namespace Gives

variable {P : α → Prop} {Q : β → Prop} {x : Except ε α} {f : α → Except ε β}

theorem pure {a : α} (h : P a) : Gives P (Pure.pure a : Except ε α) := by
  intro b hb
  cases hb
  exact h

theorem error {e : ε} : Gives P (.error e) := by
  intro a h
  cases h

theorem bind (hx : Gives P x) (hf : ∀ a, P a → Gives Q (f a)) : Gives Q (x >>= f) := by
  intro b h
  obtain ⟨a, ha, hb⟩ := bind_eq_ok.mp h
  exact hf a (hx a ha) b hb

-- The last of several computations may have the property whatever comes before.
theorem of_bind (hf : ∀ a, Gives Q (f a)) : Gives Q (x >>= f) :=
  bind (P := fun _ => True) (fun _ _ => trivial) fun a _ => hf a

theorem mapM [Nonempty β] {xs : List α} (h : ∀ a ∈ xs, Gives Q (f a)) :
    Gives (∀ b ∈ ·, Q b) (xs.mapM f) := by
  intro ys hys
  obtain ⟨g, hg, rfl⟩ := exists_map_of_mapM hys
  exact List.forall_mem_map.mpr fun a ha => h a ha _ (hg a ha)

end Gives

/-! ## Properties of errors -/

def Fails (P : ε → Prop) (x : Except ε α) : Prop := ∀ e, x = .error e → P e

namespace Fails

variable {P : ε → Prop} {x : Except ε α} {f : α → Except ε β} {p : α → Except ε Bool}
  {xs : List α}

theorem ok {a : α} : Fails P (.ok a : Except ε α) := by
  intro e h
  cases h

theorem pure {a : α} : Fails P (Pure.pure a : Except ε α) := ok

theorem error {e : ε} (h : P e) : Fails P (.error e : Except ε α) := by
  intro e' he
  cases he
  exact h

theorem mono {Q : ε → Prop} (h : Fails P x) (hPQ : ∀ e, P e → Q e) : Fails Q x :=
  fun e he => hPQ e (h e he)

theorem bind (hx : Fails P x) (hf : ∀ a, x = .ok a → Fails P (f a)) : Fails P (x >>= f) := by
  intro e h
  cases x with
  | ok a => exact hf a rfl e h
  | error _ =>
    cases h
    exact hx _ rfl

theorem mapM (h : ∀ a ∈ xs, Fails P (f a)) : Fails P (xs.mapM f) := by
  induction xs with
  | nil => exact pure
  | cons a as ih =>
    obtain ⟨ha, has⟩ := List.forall_mem_cons.mp h
    rw [List.mapM_cons]
    exact bind ha fun b _ => bind (ih has) fun bs _ => pure

theorem allM (h : ∀ a ∈ xs, Fails P (p a)) : Fails P (xs.allM p) := by
  induction xs with
  | nil => exact pure
  | cons a as ih =>
    obtain ⟨ha, has⟩ := List.forall_mem_cons.mp h
    refine bind ha fun b _ => ?_
    cases b with
    | true => exact ih has
    | false => exact pure

theorem anyM (h : ∀ a ∈ xs, Fails P (p a)) : Fails P (xs.anyM p) := by
  induction xs with
  | nil => exact pure
  | cons a as ih =>
    obtain ⟨ha, has⟩ := List.forall_mem_cons.mp h
    refine bind ha fun b _ => ?_
    cases b with
    | true => exact pure
    | false => exact ih has

theorem findM? (h : ∀ a ∈ xs, Fails P (p a)) : Fails P (xs.findM? p) := by
  induction xs with
  | nil => exact pure
  | cons a as ih =>
    obtain ⟨ha, has⟩ := List.forall_mem_cons.mp h
    refine bind ha fun b _ => ?_
    cases b with
    | true => exact pure
    | false => exact ih has

theorem filterAuxM {kept : List α} (h : ∀ a ∈ xs, Fails P (p a)) :
    Fails P (xs.filterAuxM p kept) := by
  induction xs generalizing kept with
  | nil => exact pure
  | cons a as ih =>
    obtain ⟨ha, has⟩ := List.forall_mem_cons.mp h
    exact bind ha fun b _ => ih has

theorem filterM (h : ∀ a ∈ xs, Fails P (p a)) : Fails P (xs.filterM p) :=
  bind (filterAuxM h) fun _ _ => pure

end Fails

/-! ## Results without errors -/

/-- The result, if there is one, is found by another computation that does not say why it has
none. -/
def Yields (x : Except ε α) (o : Option α) : Prop := ∀ a, x = .ok a → o = some a

theorem toOption_eq_some {o : Except ε α} {a : α} :
    o.toOption = some a ↔ o = .ok a := by
  cases o <;> simp [Except.toOption]

theorem allM_eq_some_true {q : α → Option Bool} {items : List α} :
    items.allM q = some true ↔ ∀ v ∈ items, q v = some true := by
  induction items with
  | nil => simp [List.allM]
  | cons v vs ih =>
    rw [List.forall_mem_cons, ← ih, List.allM, Option.bind_eq_bind, Option.bind_eq_some_iff]
    constructor
    · intro h
      obtain ⟨b, hb, h⟩ := h
      cases b with
      | true => exact ⟨hb, h⟩
      | false => cases h
    · intro h
      exact ⟨true, h⟩

theorem exists_of_anyM_eq_some {q : α → Option Bool} {items : List α}
    (h : items.anyM q = some true) : ∃ v ∈ items, q v = some true := by
  induction items with
  | nil => cases h
  | cons v vs ih =>
    rw [List.anyM, Option.bind_eq_bind, Option.bind_eq_some_iff] at h
    obtain ⟨b, hb, h⟩ := h
    cases b with
    | true => exact ⟨v, List.mem_cons_self, hb⟩
    | false =>
      obtain ⟨w, hw, hq⟩ := ih h
      exact ⟨w, List.mem_cons_of_mem _ hw, hq⟩

namespace Yields

variable {x : Except ε α} {o : Option α} {f : α → Except ε β} {g : α → Option β}
  {p : α → Except ε Bool} {q : α → Option Bool} {xs : List α}

theorem ok {a : α} : Yields (.ok a : Except ε α) (some a) := by
  intro b h
  cases h
  rfl

theorem pure {a : α} : Yields (Pure.pure a : Except ε α) (Pure.pure a) := ok

theorem error {e : ε} : Yields (.error e) o := by
  intro a h
  cases h

theorem bind (hx : Yields x o) (hf : ∀ a, Yields (f a) (g a)) : Yields (x >>= f) (o >>= g) := by
  intro b h
  obtain ⟨a, ha, hb⟩ := bind_eq_ok.mp h
  rw [hx a ha]
  exact hf a b hb

theorem mapM (h : ∀ a, Yields (f a) (g a)) : Yields (xs.mapM f) (xs.mapM g) := by
  induction xs with
  | nil => exact pure
  | cons a as ih =>
    rw [List.mapM_cons, List.mapM_cons]
    exact bind (h a) fun b => bind ih fun bs => pure

theorem allM (h : ∀ a, Yields (p a) (q a)) : Yields (xs.allM p) (xs.allM q) := by
  induction xs with
  | nil => exact pure
  | cons a as ih =>
    refine bind (h a) fun b => ?_
    cases b with
    | true => exact ih
    | false => exact pure

theorem anyM (h : ∀ a, Yields (p a) (q a)) : Yields (xs.anyM p) (xs.anyM q) := by
  induction xs with
  | nil => exact pure
  | cons a as ih =>
    refine bind (h a) fun b => ?_
    cases b with
    | true => exact pure
    | false => exact ih

theorem findM? (h : ∀ a, Yields (p a) (q a)) : Yields (xs.findM? p) (xs.findM? q) := by
  induction xs with
  | nil => exact pure
  | cons a as ih =>
    refine bind (h a) fun b => ?_
    cases b with
    | true => exact pure
    | false => exact ih

theorem filterAuxM {kept : List α} (h : ∀ a, Yields (p a) (q a)) :
    Yields (xs.filterAuxM p kept) (xs.filterAuxM q kept) := by
  induction xs generalizing kept with
  | nil => exact pure
  | cons a as ih => exact bind (h a) fun b => ih

theorem filterM (h : ∀ a, Yields (p a) (q a)) : Yields (xs.filterM p) (xs.filterM q) :=
  bind (filterAuxM h) fun _ => pure

end Yields

end ActionSystem.Result
