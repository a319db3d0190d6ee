/-!
# Sorted lists without repetition

Finite sets and finite maps as lists in strictly increasing order of a comparison. For a map the
comparison looks at the keys only; where two entries have equal keys, the one from the right
operand (or the later one of a list) is kept.
-/

namespace ActionSystem.Sorted

variable {α : Type} (cmp : α → α → Ordering)

def Increasing (xs : List α) : Prop := xs.Pairwise fun x y => cmp x y = .lt

def isIncreasing : List α → Bool
  | x :: y :: r => cmp x y == .lt && isIncreasing (y :: r)
  | _ => true

/-- The element for which the probe says equal. The probe tells how what is sought compares. -/
def find? (probe : α → Ordering) : List α → Option α
  | [] => none
  | x :: xs =>
    match probe x with
    | .lt => none
    | .eq => some x
    | .gt => find? probe xs

def contains (x : α) (xs : List α) : Bool := (find? (cmp x) xs).isSome

/-- Put an element in its place, instead of an equal one if there is one. -/
def insert (x : α) : List α → List α
  | [] => [x]
  | y :: ys =>
    match cmp x y with
    | .lt => x :: y :: ys
    | .eq => x :: ys
    | .gt => y :: insert x ys

def below (x : α) (xs : List α) : List α := xs.takeWhile fun y => cmp y x == .lt

def above (x : α) (xs : List α) : List α := xs.dropWhile fun y => cmp y x == .lt

/-- Merge two lists behind what is merged already, which is held in reverse. -/
def mergeOnto (done : List α) : List α → List α → List α
  | [], ys => done.reverseAux ys
  | x :: xs, ys =>
    let done := (below cmp x ys).reverseAux done
    match above cmp x ys with
    | [] => (x :: done).reverseAux xs
    | y :: ys =>
      if cmp x y = .eq then mergeOnto (y :: done) xs ys else mergeOnto (x :: done) xs (y :: ys)

def union (xs ys : List α) : List α := mergeOnto cmp [] xs ys

def inter : List α → List α → List α
  | [], _ => []
  | x :: xs, ys =>
    match above cmp x ys with
    | [] => []
    | y :: ys => if cmp x y = .eq then x :: inter xs ys else inter xs (y :: ys)

def diff : List α → List α → List α
  | [], _ => []
  | x :: xs, ys =>
    match above cmp x ys with
    | [] => x :: xs
    | y :: ys => if cmp x y = .eq then diff xs ys else x :: diff xs (y :: ys)

def subset : List α → List α → Bool
  | [], _ => true
  | x :: xs, ys =>
    match above cmp x ys with
    | [] => false
    | y :: ys => cmp x y == .eq && subset xs ys

/-- Sort by merging the two halves. A list of `n` elements needs at most `n` halvings. -/
def sortWithin : Nat → List α → List α
  | 0, xs => xs
  | _ + 1, [] => []
  | _ + 1, [x] => [x]
  | n + 1, xs =>
    let half := xs.length / 2
    union cmp (sortWithin n (xs.take half)) (sortWithin n (xs.drop half))

def ofList (xs : List α) : List α := sortWithin cmp xs.length xs

/-! ## Equations -/

variable {cmp}

@[simp] theorem find?_nil (probe : α → Ordering) : find? probe [] = none := rfl

@[simp] theorem contains_nil (x : α) : contains cmp x [] = false := rfl

@[simp] theorem insert_nil (x : α) : insert cmp x [] = [x] := rfl

-- What is merged already stands in front.
theorem mergeOnto_eq (done xs ys : List α) :
    mergeOnto cmp done xs ys = done.reverse ++ mergeOnto cmp [] xs ys := by
  induction xs generalizing done ys with
  | nil => simp [mergeOnto, List.reverseAux_eq]
  | cons x xs ih =>
    simp only [mergeOnto]
    split
    · simp [List.reverseAux_eq]
    · split
      · rw [ih (_ :: _), ih (_ :: List.reverseAux _ [])]
        simp [List.reverseAux_eq]
      · rw [ih (_ :: _), ih (_ :: List.reverseAux _ [])]
        simp [List.reverseAux_eq]

@[simp] theorem union_nil_left (ys : List α) : union cmp [] ys = ys := rfl

-- The union of a list with a first element: what is below it, then it or its equal.
theorem union_cons (x : α) (xs ys : List α) :
    union cmp (x :: xs) ys =
      below cmp x ys ++
        match above cmp x ys with
        | [] => x :: xs
        | y :: ys => if cmp x y = .eq then y :: union cmp xs ys else x :: union cmp xs (y :: ys) := by
  simp only [union, mergeOnto]
  split
  · simp [List.reverseAux_eq]
  · split
    · rw [mergeOnto_eq]; simp [List.reverseAux_eq]
    · rw [mergeOnto_eq]; simp [List.reverseAux_eq]

end ActionSystem.Sorted
