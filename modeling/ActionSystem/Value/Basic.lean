import ActionSystem.Sorted.Basic
import ActionSystem.Integer

/-!
# Values

What variables and constants hold: truth values, bounded integers, strings, finite sets,
sequences and finite functions. A set is the sorted list of its elements, a function the list of
its entries sorted by key; a function whose keys are exactly `1, …, n` is a sequence. With these
forms two values are equal exactly when they are the same term.
-/

namespace ActionSystem

/-- The sort of a value, in the order in which values of different sorts compare. -/
inductive Kind where
  | bool | int | str | set | seq | fn
deriving DecidableEq

namespace Kind

def rank : Kind → Nat
  | bool => 0
  | int => 1
  | str => 2
  | set => 3
  | seq => 4
  | fn => 5

def name : Kind → String
  | bool => "Bool"
  | int => "Int"
  | str => "String"
  | set => "Set"
  | seq => "Seq"
  | fn => "Fn"

theorem rank_inj {a b : Kind} (h : a.rank = b.rank) : a = b := by
  cases a <;> cases b <;> first | rfl | cases h

end Kind

inductive Value where
  | bool (b : Bool)
  | int (n : Int64)
  | str (s : String)
  | set (elements : List Value)
  | seq (items : List Value)
  | fn (entries : List (Value × Value))

namespace Value

def kind : Value → Kind
  | bool _ => .bool
  | int _ => .int
  | str _ => .str
  | set _ => .set
  | seq _ => .seq
  | fn _ => .fn

instance : Inhabited Value := ⟨.bool false⟩

/-! ## Order -/

mutual

/-- The order of values: by sort first, then within the sort. Strings compare by code points,
lists element by element, a list before its extensions. -/
def cmp : Value → Value → Ordering
  | .bool a, .bool b => compare a b
  | .int a, .int b => compare a b
  | .str a, .str b => compare a b
  | .set a, .set b => cmpAll a b
  | .seq a, .seq b => cmpAll a b
  | .fn a, .fn b => cmpEntries a b
  | a, b => compare a.kind.rank b.kind.rank
termination_by structural a => a

def cmpAll : List Value → List Value → Ordering
  | [], [] => .eq
  | [], _ :: _ => .lt
  | _ :: _, [] => .gt
  | a :: as, b :: bs => (cmp a b).then (cmpAll as bs)
termination_by structural as => as

def cmpEntries : List (Value × Value) → List (Value × Value) → Ordering
  | [], [] => .eq
  | [], _ :: _ => .lt
  | _ :: _, [] => .gt
  | (k, v) :: as, (l, w) :: bs => ((cmp k l).then (cmp v w)).then (cmpEntries as bs)
termination_by structural as => as

end

/-- The order of entries of a function looks at their keys only. -/
def cmpKey (e f : Value × Value) : Ordering := cmp e.1 f.1

instance : Ord Value := ⟨cmp⟩

-- Values of different sorts compare as their sorts do.
theorem cmp_of_kind_ne {a b : Value} (h : a.kind ≠ b.kind) :
    cmp a b = compare a.kind.rank b.kind.rank := by
  cases a <;> cases b <;> first | exact absurd rfl h | simp only [cmp]

/-! ## Equality -/

-- Values of equal order are of one sort.
theorem kind_eq_of_cmp_eq {a b : Value} (h : cmp a b = .eq) : a.kind = b.kind := by
  by_cases hk : a.kind = b.kind
  · exact hk
  · rw [cmp_of_kind_ne hk] at h
    exact Kind.rank_inj (Nat.compare_eq_eq.mp h)

mutual

theorem eq_of_cmp_eq : (a b : Value) → cmp a b = .eq → a = b
  | .bool a, b, h => by cases b <;> simp_all [cmp, kind, Kind.rank]
  | .int a, b, h => by cases b <;> simp_all [cmp, kind, Kind.rank]
  | .str a, b, h => by cases b <;> simp_all [cmp, kind, Kind.rank]
  | .set a, b, h => by
    cases b with
    | set b => rw [eq_of_cmpAll_eq a b (by simpa only [cmp] using h)]
    | _ => exact absurd (kind_eq_of_cmp_eq h) (by simp [kind])
  | .seq a, b, h => by
    cases b with
    | seq b => rw [eq_of_cmpAll_eq a b (by simpa only [cmp] using h)]
    | _ => exact absurd (kind_eq_of_cmp_eq h) (by simp [kind])
  | .fn a, b, h => by
    cases b with
    | fn b => rw [eq_of_cmpEntries_eq a b (by simpa only [cmp] using h)]
    | _ => exact absurd (kind_eq_of_cmp_eq h) (by simp [kind])

theorem eq_of_cmpAll_eq : (as bs : List Value) → cmpAll as bs = .eq → as = bs
  | [], [], _ => rfl
  | [], _ :: _, h => by simp [cmpAll] at h
  | _ :: _, [], h => by simp [cmpAll] at h
  | a :: as, b :: bs, h => by
    simp only [cmpAll, Ordering.then_eq_eq] at h
    rw [eq_of_cmp_eq a b h.1, eq_of_cmpAll_eq as bs h.2]

theorem eq_of_cmpEntries_eq : (as bs : List (Value × Value)) → cmpEntries as bs = .eq → as = bs
  | [], [], _ => rfl
  | [], _ :: _, h => by simp [cmpEntries] at h
  | _ :: _, [], h => by simp [cmpEntries] at h
  | (k, v) :: as, (l, w) :: bs, h => by
    simp only [cmpEntries, Ordering.then_eq_eq] at h
    rw [eq_of_cmp_eq k l h.1.1, eq_of_cmp_eq v w h.1.2, eq_of_cmpEntries_eq as bs h.2]

end

mutual

theorem cmp_self : (a : Value) → cmp a a = .eq
  | .bool _ | .int _ | .str _ => by simp [cmp]
  | .set a | .seq a => by simpa only [cmp] using cmpAll_self a
  | .fn a => by simpa only [cmp] using cmpEntries_self a

theorem cmpAll_self : (as : List Value) → cmpAll as as = .eq
  | [] => rfl
  | a :: as => by simp only [cmpAll, cmp_self a, cmpAll_self as, Ordering.then_eq]

theorem cmpEntries_self : (as : List (Value × Value)) → cmpEntries as as = .eq
  | [] => rfl
  | (k, v) :: as => by
    simp only [cmpEntries, cmp_self k, cmp_self v, cmpEntries_self as, Ordering.then_eq]

end

/-- Two values have equal order exactly when they are the same. -/
theorem cmp_eq_iff {a b : Value} : cmp a b = .eq ↔ a = b :=
  ⟨eq_of_cmp_eq a b, fun h => h ▸ cmp_self a⟩

instance : DecidableEq Value := fun _ _ => decidable_of_iff _ cmp_eq_iff

instance : Std.LawfulEqOrd Value where
  compare_self := cmp_self _
  eq_of_compare := eq_of_cmp_eq _ _

end Value

end ActionSystem
