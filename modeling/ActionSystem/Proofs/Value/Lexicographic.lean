import ActionSystem.State
import ActionSystem.Value.Order

/-!
# What the order of values is

Values are totally ordered at any depth of nesting, and the order agrees with equality. It goes by
sort first, and within the composite sorts it is lexicographic: a list comes before its extensions,
and the entries of a function count as pairs. States are equal in their order exactly when they are
equal, whatever fingerprints are compared on the way.
-/

namespace ActionSystem

/-! ## Total orders -/

/-- A comparison that is a total order and agrees with equality: exactly one of "less", "equal" and
"greater" holds, whichever side is named first, and comparison is transitive. -/
structure IsTotalOrder {α : Type} (cmp : α → α → Ordering) : Prop where
  exactly_one : ∀ a b,
    (cmp a b = .lt ∧ a ≠ b ∧ cmp b a = .gt) ∨ (cmp a b = .eq ∧ a = b ∧ cmp b a = .eq) ∨
      (cmp a b = .gt ∧ a ≠ b ∧ cmp b a = .lt)
  antisymm : ∀ a b, cmp a b ≠ .gt → cmp b a ≠ .gt → a = b
  lt_trans : ∀ a b c, cmp a b = .lt → cmp b c = .lt → cmp a c = .lt
  le_trans : ∀ a b c, cmp a b ≠ .gt → cmp b c ≠ .gt → cmp a c ≠ .gt

theorem isTotalOrder_of_laws {α : Type} (cmp : α → α → Ordering) [Std.TransCmp cmp]
    [Std.LawfulEqCmp cmp] : IsTotalOrder cmp := by
  have exactly_one : ∀ a b,
      (cmp a b = .lt ∧ a ≠ b ∧ cmp b a = .gt) ∨ (cmp a b = .eq ∧ a = b ∧ cmp b a = .eq) ∨
        (cmp a b = .gt ∧ a ≠ b ∧ cmp b a = .lt) := by
    intro a b
    have hswap : cmp b a = (cmp a b).swap := Std.OrientedCmp.eq_swap
    have heq : cmp a b = .eq ↔ a = b := Std.LawfulEqCmp.compare_eq_iff_eq
    cases h : cmp a b <;> simp_all
  refine ⟨exactly_one, fun a b hab hba => ?_, fun _ _ _ => Std.TransCmp.lt_trans,
    fun a b c hab hbc => ?_⟩
  · rcases exactly_one a b with ⟨-, -, hgt⟩ | ⟨-, heq, -⟩ | ⟨hgt, -, -⟩
    · exact absurd hgt hba
    · exact heq
    · exact absurd hgt hab
  · rw [Ne, Ordering.ne_gt_iff_isLE] at hab hbc ⊢
    exact Std.TransCmp.isLE_trans hab hbc

/-! ## Lists -/

section Lists

variable {α : Type} {cmp : α → α → Ordering} [Std.LawfulEqCmp cmp] {xs ys : List α}

-- The elements are compared from the front, and the first difference decides.
theorem compareLex_eq_lt_iff :
    List.compareLex cmp xs ys = .lt ↔ List.Lex (fun x y => cmp x y = .lt) xs ys := by
  induction xs generalizing ys with
  | nil => cases ys <;> simp [List.compareLex_nil_nil, List.compareLex_nil_cons]
  | cons x xs ih =>
    cases ys with
    | nil => simp [List.compareLex_cons_nil]
    | cons y ys =>
      rw [List.compareLex_cons_cons, Ordering.then_eq_lt, List.cons_lex_cons_iff, ih,
        Std.LawfulEqCmp.compare_eq_iff_eq]

theorem lex_of_prefixed {r : α → α → Prop} (h : xs <+: ys) (proper : xs ≠ ys) :
    List.Lex r xs ys := by
  obtain ⟨rest, rfl⟩ := h
  induction xs with
  | nil =>
    cases rest with
    | nil => exact absurd rfl proper
    | cons y rest => exact .nil
  | cons x xs ih => exact .cons (ih fun heq => proper (congrArg (x :: ·) heq))

end Lists

namespace Value

/-! ## Composite values -/

def Less (a b : Value) : Prop := cmp a b = .lt

def cmpEntry (e f : Value × Value) : Ordering := (cmp e.1 f.1).then (cmp e.2 f.2)

theorem cmpEntry_eq_lt_iff {e f : Value × Value} : cmpEntry e f = .lt ↔ Prod.Lex Less Less e f := by
  obtain ⟨k, v⟩ := e
  obtain ⟨l, w⟩ := f
  rw [cmpEntry, Ordering.then_eq_lt, cmp_eq_iff, Prod.lex_def]
  rfl

instance : Std.LawfulEqCmp cmpEntry where
  compare_self := by
    intro e
    rw [cmpEntry, cmp_self, cmp_self]
    rfl
  eq_of_compare := by
    intro e f h
    rw [cmpEntry, Ordering.then_eq_eq, cmp_eq_iff, cmp_eq_iff] at h
    exact Prod.ext h.1 h.2

theorem cmpAll_eq_compareLex (xs ys : List Value) : cmpAll xs ys = List.compareLex cmp xs ys := by
  induction xs generalizing ys with
  | nil => cases ys <;> rfl
  | cons x xs ih =>
    cases ys with
    | nil => rfl
    | cons y ys => rw [cmpAll, List.compareLex_cons_cons, ih]

theorem cmpEntries_eq_compareLex (es fs : List (Value × Value)) :
    cmpEntries es fs = List.compareLex cmpEntry es fs := by
  induction es generalizing fs with
  | nil => cases fs <;> rfl
  | cons e es ih =>
    cases fs with
    | nil => rfl
    | cons f fs => rw [cmpEntries, List.compareLex_cons_cons, ih, cmpEntry]

theorem cmpAll_eq_lt_iff {xs ys : List Value} : cmpAll xs ys = .lt ↔ List.Lex Less xs ys := by
  rw [cmpAll_eq_compareLex, compareLex_eq_lt_iff]
  rfl

theorem cmpEntries_eq_lt_iff {es fs : List (Value × Value)} :
    cmpEntries es fs = .lt ↔ List.Lex (Prod.Lex Less Less) es fs := by
  rw [cmpEntries_eq_compareLex, compareLex_eq_lt_iff]
  simp only [cmpEntry_eq_lt_iff]

/-! ## Sorts -/

def sorts : List Kind := [.bool, .int, .str, .set, .seq, .fn]

theorem less_iff_of_kind_ne {a b : Value} (h : a.kind ≠ b.kind) :
    Less a b ↔ [a.kind, b.kind].Sublist sorts := by
  rw [Less, cmp_of_kind_ne h]
  generalize a.kind = j at h ⊢
  generalize b.kind = k at h ⊢
  cases j <;> cases k <;> first | exact absurd rfl h | decide

/-- How values of one sort compare, and how sorts compare. -/
structure IsLexicographic : Prop where
  sort : ∀ a b : Value, a.kind ≠ b.kind → (Less a b ↔ [a.kind, b.kind].Sublist sorts)
  bool : ∀ p q, Less (.bool p) (.bool q) ↔ p = false ∧ q = true
  int : ∀ m n, Less (.int m) (.int n) ↔ m.toInt < n.toInt
  str : ∀ s t, Less (.str s) (.str t) ↔ s.toList < t.toList
  set : ∀ xs ys, Less (.set xs) (.set ys) ↔ List.Lex Less xs ys
  seq : ∀ xs ys, Less (.seq xs) (.seq ys) ↔ List.Lex Less xs ys
  fn : ∀ es fs, Less (.fn es) (.fn fs) ↔ List.Lex (Prod.Lex Less Less) es fs
  properPrefix : ∀ xs ys : List Value, xs <+: ys → xs ≠ ys →
    Less (.set xs) (.set ys) ∧ Less (.seq xs) (.seq ys)
  properPrefix_fn : ∀ es fs : List (Value × Value), es <+: fs → es ≠ fs → Less (.fn es) (.fn fs)

theorem isLexicographic : IsLexicographic where
  sort := fun _ _ => less_iff_of_kind_ne
  bool := by
    intro p q
    rw [Less, cmp]
    cases p <;> cases q <;> decide
  int := by
    intro m n
    rw [Less, cmp, Std.compare_eq_lt, Int64.lt_iff_toInt_lt]
  str := by
    intro s t
    rw [Less, cmp, ← String.lt_iff]
    exact compareOfLessAndEq_eq_lt
  set := by
    intro xs ys
    rw [Less, cmp, cmpAll_eq_lt_iff]
  seq := by
    intro xs ys
    rw [Less, cmp, cmpAll_eq_lt_iff]
  fn := by
    intro es fs
    rw [Less, cmp, cmpEntries_eq_lt_iff]
  properPrefix := by
    intro xs ys h proper
    have hlex : cmpAll xs ys = .lt := cmpAll_eq_lt_iff.mpr (lex_of_prefixed h proper)
    rw [Less, Less, cmp, cmp]
    exact ⟨hlex, hlex⟩
  properPrefix_fn := by
    intro es fs h proper
    rw [Less, cmp]
    exact cmpEntries_eq_lt_iff.mpr (lex_of_prefixed h proper)

end Value

/-! ## States -/

namespace State

theorem cmp_eq_iff {s t : State} : s.cmp t = .eq ↔ s = t := by
  cases s; cases t
  rw [State.mk.injEq]
  exact ⟨Value.eq_of_cmpAll_eq _ _, fun h => h ▸ Value.cmpAll_self _⟩

end State

/-! ## The order of values and states -/

/-- The order of values is total and agrees with equality, it is lexicographic, and two states are
equal in order exactly when they are equal, their fingerprints being compared first, whatever these
are. -/
theorem total_lexicographic_order :
    IsTotalOrder Value.cmp ∧ (∀ a b, Value.cmp a b = .eq ↔ a = b) ∧ Value.IsLexicographic ∧
      ∀ (fp : State → Fingerprint) (s t : State), s.cmp t = .eq ↔ s.same fp t = true :=
  ⟨isTotalOrder_of_laws Value.cmp, fun _ _ => Value.cmp_eq_iff, Value.isLexicographic,
    fun _ _ _ => State.cmp_eq_iff.trans State.same_iff.symm⟩

end ActionSystem
