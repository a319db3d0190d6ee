/-!
# Bounded integers

Integers of 64 bits with exact arithmetic: an operation is carried out on unbounded integers,
and its result is given only if it is in range again.
-/

namespace ActionSystem.Integer

def ofInt? (n : Int) : Option Int64 :=
  if -0x8000000000000000 ≤ n ∧ n < 0x8000000000000000 then some (Int64.ofInt n) else none

/-- The quotient of a division, cut off at the point. The least integer has none by -1. -/
def quotient? (m n : Int64) : Option Int64 := ofInt? (m.toInt.tdiv n.toInt)

/-- What `quotient?` leaves over, with the sign of `m`. There is none where there is no quotient. -/
def remainder? (m n : Int64) : Option Int64 := (quotient? m n).map fun _ => m % n

/-- One of the integers is negative, the other is not. -/
def opposed (m n : Int64) : Bool := decide (m < 0) != decide (n < 0)

def render (n : Int64) : List Char :=
  match n.toInt with
  | .ofNat k => Nat.toDigits 10 k
  | .negSucc k => '-' :: Nat.toDigits 10 (k + 1)

-- What is found has the value asked for.
theorem toInt_of_ofInt? {n : Int} {m : Int64} (h : ofInt? n = some m) : m.toInt = n := by
  unfold ofInt? at h
  split at h
  · next hr =>
    cases h
    exact Int64.toInt_ofInt_of_le (by omega) (by omega)
  · cases h

-- Exactly the integers in range are found.
theorem ofInt?_eq_none_iff {n : Int} :
    ofInt? n = none ↔ n < -0x8000000000000000 ∨ 0x8000000000000000 ≤ n := by
  unfold ofInt?
  split <;> simp <;> omega

end ActionSystem.Integer
