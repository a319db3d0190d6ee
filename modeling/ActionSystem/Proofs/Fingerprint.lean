import Mathlib.Data.Nat.ModEq
import Mathlib.Data.Nat.Prime.Basic
import ActionSystem.State

/-!
# Fingerprints of states that differ in one variable

The digests of the values of a state are combined by exclusive or, so that a change of one value
changes the fingerprint exactly if it changes the digest of that value. The word of an integer or of
a truth value is mixed into its position by steps that lose nothing, modulo 2^64: exclusive or with
a fixed word, multiplication by an odd word, exclusive or of the upper half into the lower half.
Hence states that differ in one such variable have different fingerprints, however the values of
other sorts are digested.
-/

namespace ActionSystem

inductive Value.Scalars : Value → Value → Prop
  | int (m n : Int64) : Scalars (.int m) (.int n)
  | bool (a b : Bool) : Scalars (.bool a) (.bool b)

namespace Fingerprint

/-! ## Mixing words -/

-- An odd number is coprime to the modulus, so that it can be cancelled.
theorem mul_odd_injective {c : UInt64} (odd : Odd c.toNat) :
    Function.Injective fun a : UInt64 => a * c := by
  intro a b h
  have hcoprime : Nat.gcd UInt64.size c.toNat = 1 :=
    Nat.Coprime.pow_left 64 (Nat.coprime_two_left.mpr odd)
  have hmul : a.toNat * c.toNat ≡ b.toNat * c.toNat [MOD UInt64.size] := by
    have htoNat : (a * c).toNat = (b * c).toNat := congrArg UInt64.toNat h
    rwa [UInt64.toNat_mul, UInt64.toNat_mul] at htoNat
  have hmod : a.toNat ≡ b.toNat [MOD UInt64.size] := hmul.cancel_right_of_coprime hcoprime
  exact UInt64.toNat_inj.mp (hmod.eq_of_lt_of_lt a.toNat_lt_size b.toNat_lt_size)

theorem shiftRight_half_twice (h : UInt64) : h >>> 32 >>> 32 = 0 := by
  apply UInt64.toNat_inj.mp
  have hlt : h.toNat < 2 ^ (32 + 32) := h.toNat_lt
  rw [UInt64.toNat_shiftRight, UInt64.toNat_shiftRight]
  change h.toNat >>> 32 >>> 32 = 0
  rw [← Nat.shiftRight_add]
  exact Nat.shiftRight_eq_zero _ _ hlt

-- The upper half stays as it is, so that the same step gives the lower half back.
theorem xor_half_involutive : Function.Involutive fun h : UInt64 => h ^^^ (h >>> 32) := by
  intro h
  calc (h ^^^ (h >>> 32)) ^^^ ((h ^^^ (h >>> 32)) >>> 32)
      = (h ^^^ (h >>> 32)) ^^^ ((h >>> 32) ^^^ (h >>> 32 >>> 32)) := by rw [UInt64.shiftRight_xor]
    _ = (h ^^^ (h >>> 32)) ^^^ (h >>> 32) := by rw [shiftRight_half_twice, UInt64.xor_zero]
    _ = h := by rw [UInt64.xor_assoc, UInt64.xor_self, UInt64.xor_zero]

theorem scramble_injective (seed : UInt64) (position : Nat) :
    Function.Injective (scramble seed position) := by
  intro v w h
  have hproduct := xor_half_involutive.injective h
  have hsum := mul_odd_injective (by decide) hproduct
  exact (UInt64.xor_right_inj _).mp hsum

/-! ## Digests of integers and truth values -/

theorem toUInt64_injective : Function.Injective Int64.toUInt64 := by
  intro m n h
  cases m
  cases n
  exact congrArg Int64.ofUInt64 h

variable (nested : Nat → Value → UInt64)

theorem ofValue_int_injective (position : Nat) :
    Function.Injective fun n : Int64 => ofValue nested position (.int n) :=
  (scramble_injective intSeed position).comp toUInt64_injective

theorem ofValue_bool_injective (position : Nat) :
    Function.Injective fun b : Bool => ofValue nested position (.bool b) := by
  have hword : Function.Injective fun b : Bool => if b then (1 : UInt64) else 0 :=
    Bool.injective_iff.mpr (by decide)
  exact (scramble_injective boolSeed position).comp hword

theorem ofValue_ne {v w : Value} (h : v.Scalars w) (different : v ≠ w) (position : Nat) :
    ofValue nested position v ≠ ofValue nested position w := by
  intro hdigest
  apply different
  cases h with
  | int m n => exact congrArg Value.int (ofValue_int_injective nested position hdigest)
  | bool a b => exact congrArg Value.bool (ofValue_bool_injective nested position hdigest)

/-! ## Combined digests -/

-- The digests at all other positions cancel out.
theorem ofValuesFrom_set_eq_iff {vs : List Value} {i : Nat} {v : Value} (h : vs[i]? = some v)
    (position : Nat) (w : Value) :
    ofValuesFrom nested position (vs.set i w) = ofValuesFrom nested position vs ↔
      ofValue nested (position + i) w = ofValue nested (position + i) v := by
  induction vs generalizing i position with
  | nil => cases h
  | cons x xs ih =>
    cases i with
    | zero =>
      cases h
      rw [List.set_cons_zero, ofValuesFrom, ofValuesFrom, UInt64.xor_left_inj, Nat.add_zero]
    | succ i =>
      rw [List.getElem?_cons_succ] at h
      rw [List.set_cons_succ, ofValuesFrom, ofValuesFrom, UInt64.xor_right_inj, ih h,
        Nat.add_right_comm, Nat.add_assoc]

end Fingerprint

/-! ## States -/

namespace State

/-- Two states of one width differ in exactly one variable, in which both have integers or both have
truth values. -/
structure ScalarChange (position : Nat) (s t : State) : Prop where
  width : s.values.length = t.values.length
  elsewhere : ∀ i, i ≠ position → s.get? i = t.get? i
  here : ∃ v w, s.get? position = some v ∧ t.get? position = some w ∧ v ≠ w ∧ v.Scalars w

variable {position : Nat} {s t : State}

theorem ScalarChange.values_eq_set (h : ScalarChange position s t) {w : Value}
    (after : t.get? position = some w) : t.values = s.values.set position w := by
  apply List.ext_getElem?
  intro i
  by_cases hi : i = position
  · subst hi
    have hlt : i < s.values.length := h.width ▸ (List.getElem?_eq_some_iff.mp after).1
    rw [List.getElem?_set_self hlt]
    exact after
  · rw [List.getElem?_set_ne (Ne.symm hi)]
    exact (h.elsewhere i hi).symm

/-- At a position, different integers have different digests, and so have the truth values. Hence
states that differ in exactly one variable, from integer to integer or from truth value to truth
value, have different fingerprints, whatever the digests of values of other sorts are. -/
theorem fingerprint_ne_of_scalarChange :
    (∀ nested position,
        Function.Injective fun n : Int64 => Fingerprint.ofValue nested position (.int n)) ∧
      (∀ nested position,
        Function.Injective fun b : Bool => Fingerprint.ofValue nested position (.bool b)) ∧
      ∀ nested position s t, ScalarChange position s t →
        s.fingerprint nested ≠ t.fingerprint nested := by
  refine ⟨Fingerprint.ofValue_int_injective, Fingerprint.ofValue_bool_injective, ?_⟩
  intro nested position s t h hfingerprint
  obtain ⟨v, w, before, after, different, scalars⟩ := h.here
  have hcombined := congrArg Fingerprint.word hfingerprint
  change Fingerprint.ofValuesFrom nested 0 s.values =
    Fingerprint.ofValuesFrom nested 0 t.values at hcombined
  rw [h.values_eq_set after, eq_comm,
    Fingerprint.ofValuesFrom_set_eq_iff nested before] at hcombined
  exact Fingerprint.ofValue_ne nested scalars different (0 + position) hcombined.symm

def withInteger (n : Int64) : State := ⟨[.set [.str "a"], .int n, .bool true]⟩

theorem scalarChange_withInteger {m n : Int64} (different : m ≠ n) :
    ScalarChange 1 (withInteger m) (withInteger n) where
  width := rfl
  elsewhere := by
    intro i hi
    match i with
    | 0 => rfl
    | 1 => exact absurd rfl hi
    | _ + 2 => rfl
  here := by
    have hvalue : Value.int m ≠ .int n := fun h => different (Value.int.inj h)
    exact ⟨.int m, .int n, rfl, rfl, hvalue, .int m n⟩

-- From the least integer to the greatest, which differ in every bit.
theorem fingerprint_ne_of_scalarChange_bounds :
    ScalarChange 1 (withInteger Int64.minValue) (withInteger Int64.maxValue) ∧
      ∀ nested, (withInteger Int64.minValue).fingerprint nested ≠
        (withInteger Int64.maxValue).fingerprint nested := by
  have hchange : ScalarChange 1 (withInteger Int64.minValue) (withInteger Int64.maxValue) :=
    scalarChange_withInteger (by decide)
  exact ⟨hchange, fun nested => fingerprint_ne_of_scalarChange.2.2 nested 1 _ _ hchange⟩

end State

end ActionSystem
