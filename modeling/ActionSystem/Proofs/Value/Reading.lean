import Mathlib
import ActionSystem.Value.Canonical
import ActionSystem.Value.Printer
import ActionSystem.Proofs.Text.Scanning

/-!
# Reading values

Values can be told from their texts, as long as the names of record fields, which are written
without quotes, are identifiers.
-/

namespace ActionSystem

open Text (Stops stops_cons append_inj_of_stops follows_flatMap flatMap_append_inj)

/-! ## Integers -/

namespace Integer

theorem exists_cons_toDigits (k : Nat) :
    ∃ c rest, Nat.toDigits 10 k = c :: rest ∧ c.isDigit = true := by
  cases hdigits : Nat.toDigits 10 k with
  | nil => exact absurd hdigits Nat.toDigits_ne_nil
  | cons c rest =>
    have hmem : c ∈ Nat.toDigits 10 k := hdigits ▸ List.mem_cons_self
    exact ⟨c, rest, rfl, Nat.isDigit_of_mem_toDigits (by decide) (by decide) hmem⟩

theorem toDigits_append_inj {j k : Nat} {s t : List Char} (hs : Stops Char.isDigit s)
    (ht : Stops Char.isDigit t) (h : Nat.toDigits 10 j ++ s = Nat.toDigits 10 k ++ t) :
    j = k ∧ s = t := by
  have hdigits (i : Nat) : ∀ c ∈ Nat.toDigits 10 i, c.isDigit = true := fun c hc =>
    Nat.isDigit_of_mem_toDigits (by decide) (by decide) hc
  obtain ⟨heq, hst⟩ := append_inj_of_stops (hdigits j) (hdigits k) hs ht h
  exact ⟨Text.toDigits_inj (by decide) (by decide) heq, hst⟩

-- Digits do not begin with a sign.
theorem toDigits_append_ne_minus (k : Nat) (s t : List Char) :
    Nat.toDigits 10 k ++ s ≠ '-' :: t := by
  obtain ⟨c, rest, hdigits, hc⟩ := exists_cons_toDigits k
  intro h
  rw [hdigits] at h
  obtain rfl : c = '-' := List.head_eq_of_cons_eq h
  exact absurd hc (by decide)

/-- An integer is determined by its text if no digit follows. -/
theorem render_append_inj {m n : Int64} {s t : List Char} (hs : Stops Char.isDigit s)
    (ht : Stops Char.isDigit t) (h : render m ++ s = render n ++ t) : m = n ∧ s = t := by
  unfold render at h
  rw [← Int64.toInt_inj]
  generalize m.toInt = x at h ⊢
  generalize n.toInt = y at h ⊢
  cases x with
  | ofNat j =>
    cases y with
    | ofNat k =>
      obtain ⟨rfl, hst⟩ := toDigits_append_inj hs ht h
      exact ⟨rfl, hst⟩
    | negSucc k => exact absurd h (toDigits_append_ne_minus j _ _)
  | negSucc j =>
    cases y with
    | ofNat k => exact absurd h.symm (toDigits_append_ne_minus k _ _)
    | negSucc k =>
      obtain ⟨hjk, hst⟩ := toDigits_append_inj hs ht (List.tail_eq_of_cons_eq h)
      obtain rfl : j = k := Nat.succ.inj hjk
      exact ⟨rfl, hst⟩

end Integer

namespace Value

variable {a b : Value} {s t : List Char}

/-! ## First characters -/

def opens (c : Char) : Option Kind :=
  if c.isDigit then some .int
  else match c with
  | '-' => some .int
  | 'T' | 'F' => some .bool
  | '"' => some .str
  | '\x7b' => some .set
  | '<' => some .seq
  | '[' | '(' => some .fn
  | _ => none

theorem exists_cons_chars (v : Value) : ∃ c rest, v.chars = c :: rest ∧ opens c = some v.kind := by
  cases v with
  | bool b =>
    cases b with
    | true => exact ⟨'T', _, rfl, rfl⟩
    | false => exact ⟨'F', _, rfl, rfl⟩
  | int n =>
    unfold chars Integer.render
    cases n.toInt with
    | ofNat k =>
      obtain ⟨c, rest, hdigits, hc⟩ := Integer.exists_cons_toDigits k
      exact ⟨c, rest, hdigits, if_pos hc⟩
    | negSucc k => exact ⟨'-', _, rfl, rfl⟩
  | str s => exact ⟨'"', _, by rw [chars, Text.quote], rfl⟩
  | set xs => exact ⟨'\x7b', _, by rw [chars], rfl⟩
  | seq xs => exact ⟨'<', _, by rw [chars], rfl⟩
  | fn es =>
    rw [chars]
    by_cases hrecord : isRecord es = true
    · exact ⟨'[', _, by rw [if_pos hrecord], rfl⟩
    · exact ⟨'(', _, by rw [if_neg hrecord], rfl⟩

theorem kind_eq_of_chars (h : chars a ++ s = chars b ++ t) : a.kind = b.kind := by
  obtain ⟨c, _, ha, hc⟩ := exists_cons_chars a
  obtain ⟨d, _, hb, hd⟩ := exists_cons_chars b
  rw [ha, hb] at h
  rw [List.head_eq_of_cons_eq h, hd] at hc
  exact (Option.some.inj hc).symm

-- What opens no value, such as a closing bracket, is not the beginning of its text.
theorem chars_append_ne {c : Char} (hc : opens c = none) (v : Value) (s t : List Char) :
    chars v ++ s ≠ c :: t := by
  obtain ⟨d, rest, hv, hd⟩ := exists_cons_chars v
  intro h
  rw [hv] at h
  rw [List.head_eq_of_cons_eq h, hc] at hd
  cases hd

/-! ## Items -/

def fieldText : Value × Value → List Char
  | (.str name, v) => name.toList ++ (" |-> ".toList ++ chars v)
  | (k, v) => chars k ++ (" |-> ".toList ++ chars v)

def bindingText (e : Value × Value) : List Char := chars e.1 ++ (" :> ".toList ++ chars e.2)

theorem charsAll_eq_map (xs : List Value) : charsAll xs = xs.map chars := by
  induction xs with
  | nil => rfl
  | cons x xs ih => rw [charsAll, ih, List.map_cons]

theorem fieldChars_eq_map (es : List (Value × Value)) : fieldChars es = es.map fieldText := by
  induction es with
  | nil => rfl
  | cons e es ih =>
    obtain ⟨k, v⟩ := e
    rw [List.map_cons, ← ih]
    cases k <;> rfl

theorem bindingChars_eq_map (es : List (Value × Value)) :
    bindingChars es = es.map bindingText := by
  induction es with
  | nil => rfl
  | cons e es ih => rw [bindingChars, ih, List.map_cons, bindingText]

theorem joined_cons {α : Type} (between : String) (text : α → List Char) (x : α) (xs : List α) :
    joined between ((x :: xs).map text) =
      text x ++ xs.flatMap fun y => between.toList ++ text y := by
  induction xs generalizing x with
  | nil => simp [joined]
  | cons y ys ih =>
    have hrest := ih y
    rw [joined] at hrest ⊢
    rw [List.map_cons, List.map_cons, List.intercalate_cons_cons, ← List.map_cons, hrest,
      List.flatMap_cons, List.append_assoc, List.append_assoc]

/-- Items with a text between them and a closing text behind are determined, if each of them is,
where no digit follows. -/
theorem joined_append_inj {α : Type} {text : α → List Char} {between : String}
    {close : List Char} {xs ys : List α}
    (item : ∀ x ∈ xs, ∀ y ∈ ys, ∀ s t, Stops Char.isDigit s → Stops Char.isDigit t →
      text x ++ s = text y ++ t → x = y ∧ s = t)
    (more : ∀ s, Stops Char.isDigit (between.toList ++ s))
    (last : ∀ s, Stops Char.isDigit (close ++ s))
    (apart : ∀ s t, between.toList ++ s ≠ close ++ t)
    (begins : ∀ x, x ∈ xs ∨ x ∈ ys → ∀ s t, text x ++ s ≠ close ++ t)
    (h : joined between (xs.map text) ++ (close ++ s) =
      joined between (ys.map text) ++ (close ++ t)) : xs = ys ∧ s = t := by
  cases xs with
  | nil =>
    cases ys with
    | nil => exact ⟨rfl, List.append_cancel_left (List.append_cancel_left h)⟩
    | cons y ys =>
      rw [joined_cons, List.append_assoc] at h
      exact absurd h.symm (begins y (by simp) _ _)
  | cons x xs =>
    cases ys with
    | nil =>
      rw [joined_cons, List.append_assoc] at h
      exact absurd h (begins x (by simp) _ _)
    | cons y ys =>
      rw [joined_cons, joined_cons, List.append_assoc, List.append_assoc] at h
      have onward : ∀ z u, Stops Char.isDigit ((between.toList ++ text z) ++ u) := by
        intro z u
        rw [List.append_assoc]
        exact more _
      have following := follows_flatMap close (Stops Char.isDigit) onward last
      obtain ⟨rfl, hrest⟩ := item x (by simp) y (by simp) _ _ (following xs s) (following ys t) h
      have inner : ∀ z ∈ xs, ∀ w ∈ ys, ∀ s t, Stops Char.isDigit s → Stops Char.isDigit t →
          (between.toList ++ text z) ++ s = (between.toList ++ text w) ++ t → z = w ∧ s = t := by
        intro z hz w hw s t hs ht hzw
        rw [List.append_assoc, List.append_assoc] at hzw
        exact item z (by simp [hz]) w (by simp [hw]) s t hs ht (List.append_cancel_left hzw)
      have further : ∀ z s t, (between.toList ++ text z) ++ s ≠ close ++ t := by
        intro z s t
        rw [List.append_assoc]
        exact apart _ t
      obtain ⟨rfl, hst⟩ :=
        flatMap_append_inj close (Stops Char.isDigit) inner onward last further hrest
      exact ⟨rfl, hst⟩

/-! ## Values -/

def isNameChar (c : Char) : Bool := c.isAlphanum || c = '_'

structure IsIdentifier (name : String) : Prop where
  nonempty : name ≠ ""
  plain : ∀ c ∈ name.toList, isNameChar c = true

/-- The names of the fields of all records inside are identifiers. -/
inductive Legible : Value → Prop where
  | bool (b : Bool) : Legible (.bool b)
  | int (n : Int64) : Legible (.int n)
  | str (x : String) : Legible (.str x)
  | set {xs : List Value} (inside : ∀ x ∈ xs, Legible x) : Legible (.set xs)
  | seq {xs : List Value} (inside : ∀ x ∈ xs, Legible x) : Legible (.seq xs)
  | fn {es : List (Value × Value)}
      (names : isRecord es = true → ∀ name v, (.str name, v) ∈ es → IsIdentifier name)
      (keys : ∀ e ∈ es, Legible e.1) (values : ∀ e ∈ es, Legible e.2) : Legible (.fn es)

/-- The text of the value, before one that does not begin with a digit, is that of no other value.
-/
def ReadsBack (a : Value) : Prop :=
  ∀ b s t, b.Legible → Stops Char.isDigit s → Stops Char.isDigit t →
    chars a ++ s = chars b ++ t → a = b ∧ s = t

variable {xs ys : List Value} {es fs : List (Value × Value)}

theorem charsAll_append_inj (c : Char) (rest : List Char) (hc : opens c = none)
    (hdigit : c.isDigit = false) (hcomma : c ≠ ',')
    (hxs : ∀ x ∈ xs, x.ReadsBack) (hys : ∀ y ∈ ys, y.Legible)
    (h : joined ", " (charsAll xs) ++ (c :: rest ++ s) =
      joined ", " (charsAll ys) ++ (c :: rest ++ t)) : xs = ys ∧ s = t := by
  rw [charsAll_eq_map, charsAll_eq_map] at h
  refine joined_append_inj ?_ ?_ ?_ ?_ ?_ h
  · exact fun x hx y hy s t hs ht hxy => hxs x hx y s t (hys y hy) hs ht hxy
  · exact fun s => stops_cons.mpr rfl
  · exact fun s => stops_cons.mpr hdigit
  · exact fun s t heq => hcomma (List.head_eq_of_cons_eq heq).symm
  · exact fun x _ s t => chars_append_ne hc x s _

def Named (es : List (Value × Value)) : Prop :=
  ∀ e ∈ es, ∃ name v, e = (.str name, v) ∧ IsIdentifier name

theorem named_of_isRecord (h : isRecord es = true)
    (names : ∀ name v, (.str name, v) ∈ es → IsIdentifier name) : Named es := by
  intro e he
  have hkind : e.1.kind = .str := of_decide_eq_true (List.all_eq_true.mp h e he)
  obtain ⟨k, v⟩ := e
  cases k with
  | str name => exact ⟨name, v, rfl, names name v he⟩
  | _ => cases hkind

theorem fieldText_append_ne {name : String} (h : IsIdentifier name) (v : Value)
    (s t : List Char) : fieldText (.str name, v) ++ s ≠ ']' :: t := by
  intro heq
  rw [fieldText, List.append_assoc] at heq
  cases hname : name.toList with
  | nil => exact h.nonempty (String.toList_eq_nil_iff.mp hname)
  | cons c rest =>
    have hplain : isNameChar c = true := h.plain c (hname ▸ List.mem_cons_self)
    rw [hname] at heq
    obtain rfl : c = ']' := List.head_eq_of_cons_eq heq
    exact absurd hplain (by decide)

theorem fieldText_append_inj {name name' : String} {v w : Value} (hname : IsIdentifier name)
    (hname' : IsIdentifier name') (hv : v.ReadsBack) (hw : w.Legible)
    (hs : Stops Char.isDigit s) (ht : Stops Char.isDigit t)
    (h : fieldText (.str name, v) ++ s = fieldText (.str name', w) ++ t) :
    (Value.str name, v) = (Value.str name', w) ∧ s = t := by
  simp only [fieldText, List.append_assoc] at h
  have hspace (l : List Char) : Stops isNameChar (" |-> ".toList ++ l) := stops_cons.mpr rfl
  obtain ⟨hnames, hrest⟩ :=
    append_inj_of_stops hname.plain hname'.plain (hspace _) (hspace _) h
  obtain ⟨rfl, hst⟩ := hv w s t hw hs ht (List.append_cancel_left hrest)
  obtain rfl : name = name' := String.toList_inj.mp hnames
  exact ⟨rfl, hst⟩

theorem fieldChars_append_inj (hes : Named es) (hfs : Named fs)
    (values : ∀ e ∈ es, e.2.ReadsBack) (values' : ∀ f ∈ fs, f.2.Legible)
    (h : joined ", " (fieldChars es) ++ ([']'] ++ s) =
      joined ", " (fieldChars fs) ++ ([']'] ++ t)) : es = fs ∧ s = t := by
  rw [fieldChars_eq_map, fieldChars_eq_map] at h
  refine joined_append_inj ?_ ?_ ?_ ?_ ?_ h
  · intro e he f hf s t hs ht hef
    obtain ⟨name, v, rfl, hname⟩ := hes e he
    obtain ⟨name', w, rfl, hname'⟩ := hfs f hf
    exact fieldText_append_inj hname hname' (values _ he) (values' _ hf) hs ht hef
  · exact fun s => stops_cons.mpr rfl
  · exact fun s => stops_cons.mpr rfl
  · intro s t heq
    exact absurd (List.head_eq_of_cons_eq heq) (by decide)
  · intro e he s t
    obtain ⟨name, v, rfl, hname⟩ := he.elim (hes e) (hfs e)
    exact fieldText_append_ne hname v s t

theorem bindingChars_append_inj (keys : ∀ e ∈ es, e.1.ReadsBack) (keys' : ∀ e ∈ fs, e.1.Legible)
    (values : ∀ e ∈ es, e.2.ReadsBack) (values' : ∀ e ∈ fs, e.2.Legible)
    (h : joined " @@ " (bindingChars es) ++ ([')'] ++ s) =
      joined " @@ " (bindingChars fs) ++ ([')'] ++ t)) : es = fs ∧ s = t := by
  rw [bindingChars_eq_map, bindingChars_eq_map] at h
  refine joined_append_inj ?_ ?_ ?_ ?_ ?_ h
  · intro e he f hf s t hs ht hef
    simp only [bindingText, List.append_assoc] at hef
    have hspace (l : List Char) : Stops Char.isDigit (" :> ".toList ++ l) := stops_cons.mpr rfl
    obtain ⟨hkey, hrest⟩ := keys e he f.1 _ _ (keys' f hf) (hspace _) (hspace _) hef
    obtain ⟨hvalue, hst⟩ :=
      values e he f.2 s t (values' f hf) hs ht (List.append_cancel_left hrest)
    exact ⟨Prod.ext hkey hvalue, hst⟩
  · exact fun s => stops_cons.mpr rfl
  · exact fun s => stops_cons.mpr rfl
  · exact fun s t heq => by cases heq
  · intro e _ s t heq
    rw [bindingText, List.append_assoc] at heq
    exact chars_append_ne rfl e.1 _ t heq

/-- The text of a value tells the value and where it ends. -/
theorem Legible.readsBack (ha : a.Legible) : a.ReadsBack := by
  induction ha with
  | bool x =>
    intro b s t hb hs ht h
    have hkind := kind_eq_of_chars h
    cases b with
    | bool y =>
      cases x <;> cases y
      · exact ⟨rfl, List.append_cancel_left h⟩
      · exact absurd (List.head_eq_of_cons_eq h) (by decide)
      · exact absurd (List.head_eq_of_cons_eq h) (by decide)
      · exact ⟨rfl, List.append_cancel_left h⟩
    | _ => cases hkind
  | int n =>
    intro b s t hb hs ht h
    have hkind := kind_eq_of_chars h
    cases b with
    | int m =>
      obtain ⟨rfl, hst⟩ := Integer.render_append_inj hs ht h
      exact ⟨rfl, hst⟩
    | _ => cases hkind
  | str x =>
    intro b s t hb hs ht h
    have hkind := kind_eq_of_chars h
    cases b with
    | str y =>
      obtain ⟨rfl, hst⟩ := Text.quote_append_inj h
      exact ⟨rfl, hst⟩
    | _ => cases hkind
  | @set xs inside ih =>
    intro b s t hb hs ht h
    have hkind := kind_eq_of_chars h
    cases hb with
    | set inside' =>
      simp only [chars, List.cons_append, List.append_assoc, List.cons.injEq, true_and] at h
      obtain ⟨rfl, hst⟩ := charsAll_append_inj '\x7d' [] rfl rfl (by decide) ih inside' h
      exact ⟨rfl, hst⟩
    | _ => cases hkind
  | @seq xs inside ih =>
    intro b s t hb hs ht h
    have hkind := kind_eq_of_chars h
    cases hb with
    | seq inside' =>
      simp only [chars, List.cons_append, List.append_assoc, List.cons.injEq, true_and] at h
      obtain ⟨rfl, hst⟩ := charsAll_append_inj '>' ['>'] rfl rfl (by decide) ih inside' h
      exact ⟨rfl, hst⟩
    | _ => cases hkind
  | @fn es names keys values ihk ihv =>
    intro b s t hb hs ht h
    have hkind := kind_eq_of_chars h
    cases hb with
    | @fn fs names' keys' values' =>
      rw [chars, chars] at h
      by_cases hes : isRecord es = true
      · by_cases hfs : isRecord fs = true
        · rw [if_pos hes, if_pos hfs] at h
          simp only [List.cons_append, List.append_assoc, List.cons.injEq, true_and] at h
          obtain ⟨rfl, hst⟩ := fieldChars_append_inj (named_of_isRecord hes (names hes))
            (named_of_isRecord hfs (names' hfs)) ihv values' h
          exact ⟨rfl, hst⟩
        · rw [if_pos hes, if_neg hfs] at h
          exact absurd (List.head_eq_of_cons_eq h) (by decide)
      · by_cases hfs : isRecord fs = true
        · rw [if_neg hes, if_pos hfs] at h
          exact absurd (List.head_eq_of_cons_eq h) (by decide)
        · rw [if_neg hes, if_neg hfs] at h
          simp only [List.cons_append, List.append_assoc, List.cons.injEq, true_and] at h
          obtain ⟨rfl, hst⟩ := bindingChars_append_inj ihk keys' ihv values' h
          exact ⟨rfl, hst⟩
    | _ => cases hkind

/-- Two values with the same text are the same, if the names of record fields are identifiers. -/
theorem eq_of_render_eq (ha : a.Legible) (hb : b.Legible) (h : a.render = b.render) : a = b := by
  have hchars : chars a ++ [] = chars b ++ [] := by
    rw [List.append_nil, List.append_nil]
    exact String.ofList_inj.mp h
  exact (ha.readsBack b [] [] hb (Text.stops_nil _) (Text.stops_nil _) hchars).1

-- A record, and the same fields given in another order.
theorem eq_of_render_eq_fields :
    let a : Value := .fn [(.str "at", .int (-7)), (.str "to_1", .set [.str "a, b", .seq []])]
    let b : Value := ofFields [("to_1", .set [.str "a, b", .seq []]), ("at", .int (-7))]
    a.Legible ∧ b.Legible ∧ a.render = b.render ∧ a = b := by
  intro a b
  have inside : ∀ x ∈ [Value.str "a, b", .seq []], x.Legible := by
    simp only [List.forall_mem_cons]
    exact ⟨.str _, .seq (by simp), by simp⟩
  have ha : a.Legible := by
    refine .fn (fun _ name v hmem => ?_) ?_ ?_
    · simp only [List.mem_cons, Prod.mk.injEq, Value.str.injEq, List.not_mem_nil, or_false] at hmem
      rcases hmem with ⟨rfl, -⟩ | ⟨rfl, -⟩ <;> exact ⟨by decide, List.all_eq_true.mp rfl⟩
    · simp only [List.forall_mem_cons]
      exact ⟨.str _, .str _, by simp⟩
    · simp only [List.forall_mem_cons]
      exact ⟨.int _, .set inside, by simp⟩
  have hfields : b = .fn [(.str "at", .int (-7)), (.str "to_1", .set [.str "a, b", .seq []])] := by
    cbv
  have hb : b.Legible := hfields ▸ ha
  have hrender : a.render = b.render := hfields ▸ rfl
  exact ⟨ha, hb, hrender, eq_of_render_eq ha hb hrender⟩

-- A name that looks like fields makes another record look the same.
example : render (.fn [(.str "a", .int 1), (.str "b", .int 2)]) =
    render (.fn [(.str "a |-> 1, b", .int 2)]) := by
  decide

end Value

end ActionSystem
