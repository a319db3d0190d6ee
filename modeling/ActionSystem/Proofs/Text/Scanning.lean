import Mathlib
import ActionSystem.Text.Quoted

/-!
# Where a text ends

From a text that goes on after it one can tell a number, a name, a quoted string, or a list of
items that end in a closing text: what was written and what follows are determined.
-/

namespace ActionSystem.Text

variable {p : Char → Bool} {l m s t : List Char}

/-! ## Runs of characters -/

def Stops (p : Char → Bool) (s : List Char) : Prop := ∀ c ∈ s.head?, p c = false

theorem stops_nil (p : Char → Bool) : Stops p [] := by
  intro c hc
  cases hc

theorem stops_cons {c : Char} : Stops p (c :: s) ↔ p c = false := by
  simp [Stops]

theorem takeWhile_append_of_stops (hl : ∀ c ∈ l, p c = true) (hs : Stops p s) :
    (l ++ s).takeWhile p = l := by
  rw [List.takeWhile_append_of_pos hl]
  cases s with
  | nil => simp
  | cons c s =>
    rw [List.takeWhile_cons_of_neg (by rw [stops_cons.mp hs]; decide), List.append_nil]

/-- A run of characters ends where a text begins that does not go on with one. -/
theorem append_inj_of_stops (hl : ∀ c ∈ l, p c = true) (hm : ∀ c ∈ m, p c = true)
    (hs : Stops p s) (ht : Stops p t) (h : l ++ s = m ++ t) : l = m ∧ s = t := by
  have hlm : l = m := by
    rw [← takeWhile_append_of_stops hl hs, h, takeWhile_append_of_stops hm ht]
  rw [hlm] at h
  exact ⟨hlm, List.append_cancel_left h⟩

/-! ## Lists of items -/

section Items

variable {α : Type} {f : α → List Char} {xs ys : List α} (close : List Char)
  (follows : List Char → Prop)

theorem follows_flatMap (more : ∀ x s, follows (f x ++ s)) (last : ∀ s, follows (close ++ s))
    (xs : List α) (s : List Char) : follows (xs.flatMap f ++ (close ++ s)) := by
  cases xs with
  | nil => exact last s
  | cons x xs =>
    rw [List.flatMap_cons, List.append_assoc]
    exact more x _

/-- The items and the end of a list are determined if each item is, before what may follow it, and
the closing text is the beginning of no item. -/
theorem flatMap_append_inj
    (item : ∀ x ∈ xs, ∀ y ∈ ys, ∀ s t, follows s → follows t → f x ++ s = f y ++ t →
      x = y ∧ s = t)
    (more : ∀ x s, follows (f x ++ s)) (last : ∀ s, follows (close ++ s))
    (apart : ∀ x s t, f x ++ s ≠ close ++ t)
    (h : xs.flatMap f ++ (close ++ s) = ys.flatMap f ++ (close ++ t)) : xs = ys ∧ s = t := by
  induction xs generalizing ys with
  | nil =>
    cases ys with
    | nil => exact ⟨rfl, List.append_cancel_left h⟩
    | cons y ys =>
      rw [List.flatMap_nil, List.nil_append, List.flatMap_cons, List.append_assoc] at h
      exact absurd h.symm (apart y _ _)
  | cons x xs ih =>
    rw [List.flatMap_cons, List.append_assoc] at h
    cases ys with
    | nil =>
      rw [List.flatMap_nil, List.nil_append] at h
      exact absurd h (apart x _ _)
    | cons y ys =>
      rw [List.flatMap_cons, List.append_assoc] at h
      obtain ⟨rfl, hrest⟩ := item x (by simp) y (by simp) _ _ (follows_flatMap close follows more last xs s)
        (follows_flatMap close follows more last ys t) h
      obtain ⟨rfl, hst⟩ := ih (fun x hx y hy => item x (by simp [hx]) y (by simp [hy])) hrest
      exact ⟨rfl, hst⟩

end Items

/-! ## Digits -/

theorem digitChar_inj {m n : Nat} (hm : m < 16) (hn : n < 16)
    (h : m.digitChar = n.digitChar) : m = n := by
  have hall : ∀ i < 16, ∀ j < 16, Nat.digitChar i = Nat.digitChar j → i = j := by decide
  exact hall m hm n hn h

-- The last digit is the remainder, those before are the digits of the quotient.
theorem toDigits_eq_append {b : Nat} (one_lt : 1 < b) (n : Nat) :
    Nat.toDigits b n = (if n < b then [] else Nat.toDigits b (n / b)) ++ [(n % b).digitChar] := by
  rw [Nat.toDigits_eq_if one_lt]
  by_cases hn : n < b
  · rw [if_pos hn, if_pos hn, Nat.mod_eq_of_lt hn, List.nil_append]
  · rw [if_neg hn, if_neg hn]

/-- A number is determined by its digits in a base up to sixteen. -/
theorem toDigits_inj {b m n : Nat} (one_lt : 1 < b) (le : b ≤ 16)
    (h : Nat.toDigits b m = Nat.toDigits b n) : m = n := by
  induction m using Nat.strong_induction_on generalizing n with
  | _ m ih =>
    have hm : m % b < b := Nat.mod_lt m (by omega)
    have hn : n % b < b := Nat.mod_lt n (by omega)
    rw [toDigits_eq_append one_lt m, toDigits_eq_append one_lt n] at h
    obtain ⟨hinit, hlast⟩ := List.append_inj' h rfl
    have hremainder : m % b = n % b :=
      digitChar_inj (by omega) (by omega) (List.singleton_inj.mp hlast)
    by_cases hmb : m < b
    · by_cases hnb : n < b
      · rw [Nat.mod_eq_of_lt hmb, Nat.mod_eq_of_lt hnb] at hremainder
        exact hremainder
      · rw [if_pos hmb, if_neg hnb] at hinit
        exact absurd hinit.symm Nat.toDigits_ne_nil
    · by_cases hnb : n < b
      · rw [if_neg hmb, if_pos hnb] at hinit
        exact absurd hinit Nat.toDigits_ne_nil
      · rw [if_neg hmb, if_neg hnb] at hinit
        have hquotient : m / b = n / b := ih _ (Nat.div_lt_self (by omega) one_lt) hinit
        rw [← Nat.div_add_mod m b, ← Nat.div_add_mod n b, hquotient, hremainder]

theorem ne_brace_of_mem_toDigits {b : Nat} (one_lt : 1 < b) (n : Nat) :
    ∀ c ∈ Nat.toDigits b n, c ≠ '\x7d' := by
  induction n using Nat.strong_induction_on with
  | _ n ih =>
    intro c hc
    rw [toDigits_eq_append one_lt, List.mem_append, List.mem_singleton] at hc
    rcases hc with hinit | rfl
    · by_cases hn : n < b
      · rw [if_pos hn] at hinit
        cases hinit
      · rw [if_neg hn] at hinit
        exact ih _ (Nat.div_lt_self (by omega) one_lt) c hinit
    · exact Nat.digitChar_ne _ rfl

/-! ## Quoted strings -/

/-- The character that this letter stands for after a backslash. -/
def meaning : Char → Char
  | '0' => '\x00'
  | 't' => '\t'
  | 'n' => '\n'
  | 'r' => '\r'
  | c => c

inductive Written (c : Char) : List Char → Prop where
  | plain (quote : c ≠ '"') (backslash : c ≠ '\\') : Written c [c]
  | letter (x : Char) (other : x ≠ 'u') (means : meaning x = c) : Written c ['\\', x]
  | code : Written c (codePoint c)

theorem written_escape (c : Char) : Written c (escape c) := by
  unfold escape
  by_cases hnull : c = '\x00'
  · rw [if_pos hnull]
    exact .letter '0' (by decide) hnull.symm
  by_cases htab : c = '\t'
  · rw [if_neg hnull, if_pos htab]
    exact .letter 't' (by decide) htab.symm
  by_cases hline : c = '\n'
  · rw [if_neg hnull, if_neg htab, if_pos hline]
    exact .letter 'n' (by decide) hline.symm
  by_cases hreturn : c = '\r'
  · rw [if_neg hnull, if_neg htab, if_neg hline, if_pos hreturn]
    exact .letter 'r' (by decide) hreturn.symm
  rw [if_neg hnull, if_neg htab, if_neg hline, if_neg hreturn]
  by_cases hquote : c = '"'
  · rw [if_pos hquote]
    exact .letter '"' (by decide) hquote.symm
  by_cases hbackslash : c = '\\'
  · rw [if_neg hquote, if_pos hbackslash]
    exact .letter '\\' (by decide) hbackslash.symm
  rw [if_neg hquote, if_neg hbackslash]
  split
  · exact .code
  · exact .plain hquote hbackslash

theorem codePoint_append_inj {c d : Char} (h : codePoint c ++ s = codePoint d ++ t) :
    c = d ∧ s = t := by
  simp only [codePoint, List.cons_append, List.append_assoc, List.cons.injEq, true_and,
    List.nil_append] at h
  have hdigits (k : Nat) : ∀ x ∈ Nat.toDigits 16 k, (x != '\x7d') = true := fun x hx =>
    bne_iff_ne.mpr (ne_brace_of_mem_toDigits (by decide) k x hx)
  obtain ⟨heq, hrest⟩ := append_inj_of_stops (hdigits c.toNat) (hdigits d.toNat)
    (stops_cons.mpr (bne_self_eq_false _)) (stops_cons.mpr (bne_self_eq_false _)) h
  exact ⟨Char.toNat_inj.mp (toDigits_inj (by decide) le_rfl heq), List.tail_eq_of_cons_eq hrest⟩

/-- How a character is written tells the character, whatever comes next. -/
theorem escape_append_inj {c d : Char} (h : escape c ++ s = escape d ++ t) : c = d ∧ s = t := by
  have hc := written_escape c
  have hd := written_escape d
  generalize escape c = l at h hc
  generalize escape d = m at h hd
  cases hc with
  | plain quote backslash =>
    cases hd with
    | plain quote' backslash' => exact List.cons.inj h
    | letter y other means => exact absurd (List.head_eq_of_cons_eq h) backslash
    | code => exact absurd (List.head_eq_of_cons_eq h) backslash
  | letter x other means =>
    cases hd with
    | plain quote' backslash' => exact absurd (List.head_eq_of_cons_eq h).symm backslash'
    | letter y other' means' =>
      obtain ⟨rfl, hst⟩ := List.cons.inj (List.tail_eq_of_cons_eq h)
      exact ⟨means.symm.trans means', hst⟩
    | code => exact absurd (List.head_eq_of_cons_eq (List.tail_eq_of_cons_eq h)) other
  | code =>
    cases hd with
    | plain quote' backslash' => exact absurd (List.head_eq_of_cons_eq h).symm backslash'
    | letter y other' means' =>
      exact absurd (List.head_eq_of_cons_eq (List.tail_eq_of_cons_eq h)).symm other'
    | code => exact codePoint_append_inj h

theorem escape_append_ne_quote (c : Char) (s t : List Char) : escape c ++ s ≠ '"' :: t := by
  have hc := written_escape c
  generalize escape c = l at hc
  intro h
  cases hc with
  | plain quote backslash => exact quote (List.head_eq_of_cons_eq h)
  | letter x other means => cases h
  | code => cases h

/-- A quoted string tells what it quotes and where it ends. -/
theorem quote_append_inj {a b : String} (h : quote a ++ s = quote b ++ t) : a = b ∧ s = t := by
  simp only [quote, List.cons_append, List.append_assoc, List.cons.injEq, true_and] at h
  obtain ⟨hchars, hst⟩ := flatMap_append_inj ['"'] (fun _ => True)
    (fun c _ d _ s t _ _ => escape_append_inj) (fun _ _ => trivial) (fun _ => trivial)
    escape_append_ne_quote h
  exact ⟨String.toList_inj.mp hchars, hst⟩

end ActionSystem.Text
