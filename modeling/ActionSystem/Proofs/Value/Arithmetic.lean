import Mathlib
import ActionSystem.Value.Arithmetic

/-!
# Exactness of arithmetic

Every operation on two bounded integers gives the exact integer where it is in range and reports an
overflow elsewhere, with one exception: the remainder of the least integer by -1, which is 0, is
reported as an overflow because the quotient is one. Quotient and remainder go to the floor. They
are found by correcting a division that is cut off at the point, and the corrections stay in range:
something is cut off only where the divisor is neither 1 nor -1, and there the quotient is at most
half of what is divided.
-/

namespace ActionSystem

namespace Integer

variable {m n q r : Int64}

def InRange (n : Int) : Prop := -0x8000000000000000 ≤ n ∧ n < 0x8000000000000000

theorem inRange_toInt (n : Int64) : InRange n.toInt := ⟨n.le_toInt, n.toInt_lt⟩

theorem ofInt?_eq_none_iff_not_inRange {n : Int} : ofInt? n = none ↔ ¬ InRange n := by
  rw [ofInt?_eq_none_iff, InRange]
  omega

theorem toInt_ne_zero (h : n ≠ 0) : n.toInt ≠ 0 := fun heq => h (Int64.toInt_inj.mp heq)

theorem opposed_iff : opposed m n = true ↔ (m.toInt < 0 ↔ ¬ n.toInt < 0) := by
  have hm : m < 0 ↔ m.toInt < 0 := Int64.lt_iff_toInt_lt
  have hn : n < 0 ↔ n.toInt < 0 := Int64.lt_iff_toInt_lt
  unfold opposed
  rw [bne_iff_ne, Ne, decide_eq_decide, hm, hn]
  tauto

theorem mod_eq_zero_iff : m % n = 0 ↔ m.toInt.tmod n.toInt = 0 := by
  rw [← Int64.toInt_inj, Int64.toInt_mod]
  rfl

/-! ## Division to the floor -/

section

variable {a b : Int}

-- The floor lies one below where something negative is cut off.
theorem fdiv_eq_tdiv_sub (hb : b ≠ 0) :
    a.fdiv b = a.tdiv b - if a.tmod b ≠ 0 ∧ (a < 0 ↔ ¬ b < 0) then 1 else 0 := by
  have hdvd : b ∣ a ↔ a.tmod b = 0 := Int.dvd_iff_tmod_eq_zero
  have hsign : b.sign = if b < 0 then -1 else 1 := by
    rcases Int.lt_or_gt_of_ne hb with hneg | hpos
    · rw [if_pos hneg, Int.sign_eq_neg_one_of_neg hneg]
    · rw [if_neg (by omega), Int.sign_eq_one_of_pos hpos]
  rw [Int.fdiv_eq_tdiv]
  simp only [hdvd, hsign]
  grind

theorem tmod_nonpos (ha : a < 0) : a.tmod b ≤ 0 := by
  have hflip := Int.tmod_nonneg b (show 0 ≤ -a by omega)
  rw [Int.neg_tmod] at hflip
  omega

-- A remainder of the other sign than the divisor is one divisor away from that of the floor.
theorem fmod_eq_tmod_add :
    a.fmod b = a.tmod b + if a.tmod b ≠ 0 ∧ (a.tmod b < 0 ↔ ¬ b < 0) then b else 0 := by
  have hdvd : b ∣ a ↔ a.tmod b = 0 := Int.dvd_iff_tmod_eq_zero
  have hneg : a < 0 → a.tmod b ≤ 0 := tmod_nonpos
  have hpos : 0 ≤ a → 0 ≤ a.tmod b := Int.tmod_nonneg b
  rw [Int.fmod_eq_tmod]
  simp only [hdvd]
  grind

-- The remainder lies between zero and the divisor.
theorem fmod_between (hb : b ≠ 0) : 0 ≤ a.fmod b ∧ a.fmod b < b ∨ b < a.fmod b ∧ a.fmod b ≤ 0 := by
  rcases Int.lt_or_gt_of_ne hb with hneg | hpos
  · have hflip : a.fmod b = -(-a).fmod (-b) := by rw [Int.neg_fmod_neg, Int.neg_neg]
    have hle := Int.fmod_nonneg_of_pos (-a) (show 0 < -b by omega)
    have hlt := Int.fmod_lt_of_pos (-a) (show 0 < -b by omega)
    omega
  · exact .inl ⟨Int.fmod_nonneg_of_pos a hpos, Int.fmod_lt_of_pos a hpos⟩

-- An integer that is divided by another one than 1 and -1 is at least halved.
theorem two_mul_natAbs_tdiv_le (hb : 2 ≤ b.natAbs) : 2 * (a.tdiv b).natAbs ≤ a.natAbs := by
  rw [Int.natAbs_tdiv]
  calc 2 * (a.natAbs / b.natAbs)
    _ ≤ b.natAbs * (a.natAbs / b.natAbs) := Nat.mul_le_mul_right _ hb
    _ ≤ a.natAbs := Nat.mul_div_le _ _

end

/-! ## The corrected division -/

theorem toInt_eq_one_or (hn : n ≠ 0) (h : ¬ 2 ≤ n.toInt.natAbs) :
    n.toInt = 1 ∨ n.toInt = -1 := by
  have hzero := toInt_ne_zero hn
  omega

-- Only the least integer has no quotient, and only by -1.
theorem quotient?_eq_none_iff (hn : n ≠ 0) :
    quotient? m n = none ↔ m = Int64.minValue ∧ n = -1 := by
  have hm := inRange_toInt m
  have hmin : m = Int64.minValue ↔ m.toInt = -0x8000000000000000 := Int64.toInt_inj.symm
  have hone : n = -1 ↔ n.toInt = -1 := Int64.toInt_inj.symm
  rw [quotient?, ofInt?_eq_none_iff, hmin, hone]
  unfold InRange at hm
  by_cases habs : 2 ≤ n.toInt.natAbs
  · have hhalf := two_mul_natAbs_tdiv_le (a := m.toInt) habs
    omega
  · rcases toInt_eq_one_or hn habs with h | h
    · rw [h, Int.tdiv_one]
      omega
    · rw [h, Int.tdiv_neg, Int.tdiv_one]
      omega

theorem remainder?_eq_none_iff (hn : n ≠ 0) :
    remainder? m n = none ↔ m = Int64.minValue ∧ n = -1 := by
  rw [remainder?, Option.map_eq_none_iff, quotient?_eq_none_iff hn]

theorem toInt_floor (hn : n ≠ 0) (h : quotient? m n = some q) :
    (if m % n ≠ 0 ∧ opposed m n then q - 1 else q).toInt = m.toInt.fdiv n.toInt := by
  have hq : q.toInt = m.toInt.tdiv n.toInt := toInt_of_ofInt? h
  rw [fdiv_eq_tdiv_sub (toInt_ne_zero hn), ← hq]
  simp only [ne_eq, mod_eq_zero_iff, opposed_iff]
  split
  · next hcut =>
    have habs : 2 ≤ n.toInt.natAbs := by
      by_contra hlt
      rcases toInt_eq_one_or hn hlt with h1 | h1 <;> simp [h1] at hcut
    have hhalf := two_mul_natAbs_tdiv_le (a := m.toInt) habs
    have hm := inRange_toInt m
    unfold InRange at hm
    have hone : (1 : Int64).toInt = 1 := rfl
    rw [Int64.toInt_sub, hone, Int.bmod_eq_of_le] <;> omega
  · rw [Int.sub_zero]

theorem toInt_floorRemainder (h : remainder? m n = some r) :
    (if r ≠ 0 ∧ opposed r n then r + n else r).toInt = m.toInt.fmod n.toInt := by
  obtain ⟨q, -, rfl⟩ := Option.map_eq_some_iff.mp h
  rw [fmod_eq_tmod_add]
  simp only [ne_eq, mod_eq_zero_iff, opposed_iff, Int64.toInt_mod]
  split
  · next hcut =>
    have hr := inRange_toInt (m % n)
    have hn := inRange_toInt n
    rw [Int64.toInt_mod] at hr
    unfold InRange at hr hn
    rw [Int64.toInt_add, Int64.toInt_mod, Int.bmod_eq_of_le] <;> omega
  · rw [Int.add_zero, Int64.toInt_mod]

end Integer

namespace Value

open Integer (InRange)

variable {a b : Int64} {n : Int} {op : String} {r : Except Fault Value} {v w : Value}

/-- The result is `n` where that is in range, and an overflow elsewhere. -/
def IsExact (op : String) (n : Int) (r : Except Fault Value) : Prop :=
  (InRange n → ∃ m : Int64, m.toInt = n ∧ r = .ok (.int m)) ∧
    (¬ InRange n → r = .error (.overflow op))

theorem isExact_of_toInt {m : Int64} (h : m.toInt = n) : IsExact op n (.ok (.int m)) :=
  ⟨fun _ => ⟨m, h, rfl⟩, fun hout => absurd (h ▸ Integer.inRange_toInt m) hout⟩

theorem isExact_overflow (h : ¬ InRange n) : IsExact op n (.error (.overflow op)) :=
  ⟨fun hin => absurd hin h, fun _ => rfl⟩

theorem isExact_ofInt (op : String) (n : Int) : IsExact op n (ofInt op n) := by
  unfold ofInt
  cases hm : Integer.ofInt? n with
  | none => exact isExact_overflow (Integer.ofInt?_eq_none_iff_not_inRange.mp hm)
  | some m => exact isExact_of_toInt (Integer.toInt_of_ofInt? hm)

-- What succeeds is the exact integer.
theorem IsExact.eq_int (h : IsExact op n r) (hr : r = .ok v) : ∃ m, v = .int m ∧ m.toInt = n := by
  by_cases hin : InRange n
  · obtain ⟨m, hm, heq⟩ := h.1 hin
    rw [hr] at heq
    exact ⟨m, Except.ok.inj heq, hm⟩
  · rw [h.2 hin] at hr
    cases hr

/-! ## Quotient and remainder -/

theorem div_zero (a : Int64) : div (.int a) (.int 0) = .error .divisionByZero := rfl

theorem mod_zero (a : Int64) : mod (.int a) (.int 0) = .error .divisionByZero := rfl

theorem div_eq (hb : b ≠ 0) : div (.int a) (.int b) = match Integer.quotient? a b with
    | none => .error (.overflow "\\div")
    | some q => .ok (.int (if a % b ≠ 0 ∧ Integer.opposed a b then q - 1 else q)) := if_neg hb

theorem isExact_div (hb : b ≠ 0) :
    IsExact "\\div" (a.toInt.fdiv b.toInt) (div (.int a) (.int b)) := by
  rw [div_eq hb]
  cases hq : Integer.quotient? a b with
  | none =>
    obtain ⟨rfl, rfl⟩ := (Integer.quotient?_eq_none_iff hb).mp hq
    exact isExact_overflow (by unfold InRange; decide)
  | some q => exact isExact_of_toInt (Integer.toInt_floor hb hq)

theorem mod_eq (hb : b ≠ 0) : mod (.int a) (.int b) = match Integer.remainder? a b with
    | none => .error (.overflow "%")
    | some r => .ok (.int (if r ≠ 0 ∧ Integer.opposed r b then r + b else r)) := if_neg hb

theorem isExact_mod (hb : b ≠ 0) (h : ¬ (a = Int64.minValue ∧ b = -1)) :
    IsExact "%" (a.toInt.fmod b.toInt) (mod (.int a) (.int b)) := by
  rw [mod_eq hb]
  cases hr : Integer.remainder? a b with
  | none => exact absurd ((Integer.remainder?_eq_none_iff hb).mp hr) h
  | some r => exact isExact_of_toInt (Integer.toInt_floorRemainder hr)

theorem mod_minValue : mod (.int Int64.minValue) (.int (-1)) = .error (.overflow "%") := rfl

-- Where the remainder succeeds it is exact.
theorem mod_eq_int (hb : b ≠ 0) (h : mod (.int a) (.int b) = .ok v) :
    ∃ r, v = .int r ∧ r.toInt = a.toInt.fmod b.toInt := by
  by_cases hex : a = Int64.minValue ∧ b = -1
  · obtain ⟨rfl, rfl⟩ := hex
    rw [mod_minValue] at h
    cases h
  · exact (isExact_mod hb hex).eq_int h

theorem IsExact.ne_divisionByZero (h : IsExact op n r) : r ≠ .error .divisionByZero := by
  intro hr
  by_cases hin : InRange n
  · obtain ⟨m, -, heq⟩ := h.1 hin
    rw [hr] at heq
    cases heq
  · rw [h.2 hin] at hr
    cases hr

theorem div_eq_divisionByZero_iff :
    div (.int a) (.int b) = .error .divisionByZero ↔ b = 0 := by
  constructor
  · intro h
    by_contra hb
    exact (isExact_div hb).ne_divisionByZero h
  · rintro rfl
    exact div_zero a

theorem mod_eq_divisionByZero_iff :
    mod (.int a) (.int b) = .error .divisionByZero ↔ b = 0 := by
  constructor
  · intro h
    by_contra hb
    by_cases hex : a = Int64.minValue ∧ b = -1
    · obtain ⟨rfl, rfl⟩ := hex
      cases h
    · exact (isExact_mod hb hex).ne_divisionByZero h
  · rintro rfl
    exact mod_zero a

/-- Division with a remainder that lies between zero and the divisor. -/
theorem eq_mul_div_add_mod (hdiv : div (.int a) (.int b) = .ok v)
    (hmod : mod (.int a) (.int b) = .ok w) :
    ∃ q r : Int64, v = .int q ∧ w = .int r ∧ a.toInt = b.toInt * q.toInt + r.toInt ∧
      r.toInt.natAbs < b.toInt.natAbs ∧ (r = 0 ∨ (r.toInt < 0 ↔ b.toInt < 0)) := by
  have hb : b ≠ 0 := by
    rintro rfl
    cases hdiv
  obtain ⟨q, rfl, hq⟩ := (isExact_div hb).eq_int hdiv
  obtain ⟨r, rfl, hr⟩ := mod_eq_int hb hmod
  have hbetween := Integer.fmod_between (a := a.toInt) (Integer.toInt_ne_zero hb)
  rw [← hr] at hbetween
  have hzero : r = 0 ↔ r.toInt = 0 := Int64.toInt_inj.symm
  refine ⟨q, r, rfl, rfl, ?_, by omega, ?_⟩
  · rw [hq, hr, Int.mul_fdiv_add_fmod]
  · rw [hzero]
    omega

/-- All operations on bounded integers are exact, except that the least integer has no remainder
by -1. Quotients and remainders fail in another way exactly by zero. -/
theorem exact_arithmetic (a b : Int64) :
    IsExact "+" (a.toInt + b.toInt) (add (.int a) (.int b)) ∧
    IsExact "-" (a.toInt - b.toInt) (sub (.int a) (.int b)) ∧
    IsExact "*" (a.toInt * b.toInt) (mul (.int a) (.int b)) ∧
    IsExact "-" (-a.toInt) (neg (.int a)) ∧
    (div (.int a) (.int b) = .error .divisionByZero ↔ b = 0) ∧
    (mod (.int a) (.int b) = .error .divisionByZero ↔ b = 0) ∧
    (b ≠ 0 → IsExact "\\div" (a.toInt.fdiv b.toInt) (div (.int a) (.int b))) ∧
    (b ≠ 0 → ¬ (a = Int64.minValue ∧ b = -1) →
      IsExact "%" (a.toInt.fmod b.toInt) (mod (.int a) (.int b))) ∧
    mod (.int Int64.minValue) (.int (-1)) = .error (.overflow "%") ∧
    ∀ v w, div (.int a) (.int b) = .ok v → mod (.int a) (.int b) = .ok w →
      ∃ q r : Int64, v = .int q ∧ w = .int r ∧ a.toInt = b.toInt * q.toInt + r.toInt ∧
        r.toInt.natAbs < b.toInt.natAbs ∧ (r = 0 ∨ (r.toInt < 0 ↔ b.toInt < 0)) :=
  ⟨isExact_ofInt _ _, isExact_ofInt _ _, isExact_ofInt _ _, isExact_ofInt _ _,
    div_eq_divisionByZero_iff, mod_eq_divisionByZero_iff, isExact_div, isExact_mod, mod_minValue,
    fun _ _ => eq_mul_div_add_mod⟩

-- The corrected quotient of -7 by 2, and the remainder that is left over.
theorem exact_arithmetic_neg_seven : ∃ q r : Int64,
    div (.int (-7)) (.int 2) = .ok (.int q) ∧ mod (.int (-7)) (.int 2) = .ok (.int r) ∧
      q.toInt = -4 ∧ r.toInt = 1 := by
  obtain ⟨-, -, -, -, -, -, hdiv, hmod, -⟩ := exact_arithmetic (-7) 2
  obtain ⟨q, hq, hdiv⟩ := (hdiv (by decide)).1 (by unfold InRange; decide)
  obtain ⟨r, hr, hmod⟩ := (hmod (by decide) (by decide)).1 (by unfold InRange; decide)
  exact ⟨q, r, hdiv, hmod, hq, hr⟩

/-- The least integer leaves no remainder by -1, but the remainder is reported as an overflow. -/
theorem not_isExact_mod_minValue :
    ¬ IsExact "%" (Int64.minValue.toInt.fmod (-1 : Int64).toInt)
      (mod (.int Int64.minValue) (.int (-1))) := by
  intro h
  obtain ⟨m, -, hm⟩ := h.1 (by unfold InRange; decide)
  cases hm

end Value

end ActionSystem
