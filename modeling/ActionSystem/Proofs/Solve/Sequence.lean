import Mathlib
import ActionSystem.Proofs.Solve.Canonical
import ActionSystem.Proofs.Solve.Cursor

/-!
# The sequence of assignments

Whoever asks an enumeration for one assignment after the other gets what a depth-first recursion
over the variables lists: the assignments in lexicographic order, up to the first error.
-/

namespace ActionSystem

/-! ## Sequences that an error ends -/

def upToError {ε α : Type} : List (Except ε α) → List (Except ε α)
  | [] => []
  | .error e :: _ => [.error e]
  | .ok a :: items => .ok a :: upToError items

section

variable {ε α β : Type} {items more : List (Except ε α)}

theorem sublist_upToError (items : List (Except ε α)) : (upToError items).Sublist items := by
  induction items with
  | nil => exact .slnil
  | cons item items ih =>
    cases item with
    | error e => exact (List.nil_sublist items).cons_cons _
    | ok a => exact ih.cons_cons _

theorem upToError_append (items more : List (Except ε α)) :
    upToError (upToError items ++ more) = upToError (items ++ more) := by
  induction items with
  | nil => rfl
  | cons item items ih =>
    cases item with
    | error e => rfl
    | ok a => exact congrArg (.ok a :: ·) ih

theorem upToError_append_upToError (items more : List (Except ε α)) :
    upToError (items ++ upToError more) = upToError (items ++ more) := by
  induction items with
  | nil => simpa using upToError_append more []
  | cons item items ih =>
    cases item with
    | error e => rfl
    | ok a => exact congrArg (.ok a :: ·) ih

end

namespace Answers

variable {ε α β : Type}

/-- The answers one after the other, and the error that ends them if there is one. -/
def items : Answers ε α → List (Except ε α)
  | done => []
  | fail e => [.error e]
  | yield a rest => .ok a :: items (rest ())

theorem upToError_items (s : Answers ε α) : upToError s.items = s.items := by
  induction s with
  | done => rfl
  | fail e => rfl
  | yield a rest ih => exact congrArg (.ok a :: ·) (ih ())

theorem items_append (s : Answers ε α) (more : Unit → Answers ε α) :
    (s.append more).items = upToError (s.items ++ (more ()).items) := by
  induction s with
  | done => exact (upToError_items (more ())).symm
  | fail e => rfl
  | yield a rest ih => exact congrArg (.ok a :: ·) (ih ())

theorem items_forEach (answers : β → Answers ε α) (bs : List β) :
    (forEach answers bs).items = upToError (bs.flatMap fun b => (answers b).items) := by
  induction bs with
  | nil => rfl
  | cons b bs ih =>
    rw [forEach, items_append, ih, upToError_append_upToError, List.flatMap_cons]

-- An error is the last item.
theorem eq_nil_of_items_eq {s : Answers ε α} {earlier later : List (Except ε α)} {e : ε}
    (h : s.items = earlier ++ .error e :: later) : later = [] := by
  induction s generalizing earlier with
  | done => simp [items] at h
  | fail e =>
    cases earlier with
    | nil =>
      cases h
      rfl
    | cons item earlier => simp [items] at h
  | yield a rest ih =>
    cases earlier with
    | nil => cases h
    | cons item earlier => exact ih () (List.cons.inj h).2

/-- Asking gives the items in turn, and nothing from then on. -/
theorem ask_eq (n : Nat) (s : Unit → Answers ε α) :
    ask n s = ((s ()).items.map some ++ List.replicate n none).take n := by
  induction n generalizing s with
  | zero => rfl
  | succ n ih =>
    -- one `none` fewer at the end is enough for one question fewer
    have hshort : ∀ l : List (Option (Except ε α)),
        (l ++ List.replicate (n + 1) none).take n = (l ++ List.replicate n none).take n := by
      intro l
      rw [List.replicate_succ', ← List.append_assoc, List.take_append_of_le_length]
      simp
    cases hs : s () with
    | done => simp [ask, hs, ih, items, List.replicate_succ]
    | fail e => simp [ask, hs, ih, items]
    | yield a rest =>
      simp only [ask, hs, ih, items, List.map_cons, List.cons_append, List.take_succ_cons, hshort]

end Answers

namespace Relation

/-- The items of a depth-first recursion: it tries the candidates for each variable in increasing
order, each under the choices made for the earlier variables, and keeps the assignments of all
variables that the relation holds of. -/
def items (r : Relation) (env : Env) (current : List Value) :
    List Nat → List (Option Value) → List (Except EvalError (List Value))
  | [], slots =>
    match r.accept env current slots with
    | .error e => [.error e]
    | .ok none => []
    | .ok (some values) => [.ok values]
  | position :: rest, slots =>
    match r.choices env current slots position with
    | .error e => [.error e]
    | .ok vs =>
      upToError ((Sorted.ofList Value.cmp vs).flatMap fun v =>
        items r env current rest (slots.set position (some v)))

variable {r : Relation} {env : Env} {current : List Value} {slots : List (Option Value)}
  {order : List Nat}

theorem items_search (henv : env.Canonical) (hcurrent : ∀ v ∈ current, v.Canonical)
    (order : List Nat) (hslots : (Slots.solving slots).Canonical) :
    (r.search env current order slots).items = r.items env current order slots := by
  induction order generalizing slots with
  | nil =>
    rw [search, items]
    rcases r.accept env current slots with e | _ | values <;> rfl
  | cons p rest ih =>
    rw [search, items]
    cases hvs : r.choices env current slots p with
    | error e => rfl
    | ok vs =>
      have hcanonical := gives_choices henv hcurrent hslots p vs hvs
      have hsorted : Sorted.ofList Value.cmp vs = vs :=
        Sorted.eq_of_increasing (Sorted.increasing_ofList vs) hcanonical.increasing
          fun v => Sorted.mem_ofList
      dsimp only
      rw [Answers.items_forEach, hsorted]
      rw [List.flatMap_def, List.flatMap_def]
      refine congrArg (fun lists => upToError lists.flatten) (List.map_congr_left fun v hv => ?_)
      exact ih (canonical_set hslots (by simpa using hcanonical.elements v hv))

def along (order : List Nat) (values : List Value) : List Value := order.filterMap (values[·]?)

/-- One item comes before another one in lexicographic order, if both are assignments. -/
def Precedes (order : List Nat) (a b : Except EvalError (List Value)) : Prop :=
  match a, b with
  | .ok values, .ok later => Value.cmpAll (along order values) (along order later) = .lt
  | _, _ => True

-- Values that were chosen before are kept.
theorem getElem?_of_mem_items {values : List Value} {q : Nat} {v : Value}
    (h : .ok values ∈ r.items env current order slots) (hq : q ∉ order)
    (hv : slots[q]? = some (some v)) : values[q]? = some v := by
  induction order generalizing slots with
  | nil =>
    rw [items] at h
    split at h
    · simp at h
    · simp at h
    · next found haccept =>
      cases List.mem_singleton.mp h
      obtain ⟨rfl, -⟩ := accept_eq_some.mp haccept
      simpa using hv
  | cons p rest ih =>
    rw [items] at h
    split at h
    · simp at h
    · obtain ⟨w, -, hw⟩ := List.mem_flatMap.mp ((sublist_upToError _).subset h)
      rw [List.mem_cons, not_or] at hq
      refine ih hw hq.2 ?_
      rwa [List.getElem?_set_ne (Ne.symm hq.1)]

theorem lt_of_choices {p : Nat} {vs : List Value} (h : r.choices env current slots p = .ok vs) :
    p < env.vars.length := by
  unfold choices at h
  rw [Result.bind_eq_ok] at h
  obtain ⟨a, ha, -⟩ := h
  rw [Expr.candidates, env_partialContext] at ha
  split at ha
  · next x hx => exact (List.getElem?_eq_some_iff.mp hx).1
  · cases ha

theorem pairwise_items (nodup : order.Nodup) (hlength : slots.length = env.vars.length) :
    (r.items env current order slots).Pairwise (Precedes order) := by
  induction order generalizing slots with
  | nil =>
    rw [items]
    split <;> simp
  | cons p rest ih =>
    obtain ⟨hp, nodup⟩ := List.nodup_cons.mp nodup
    rw [items]
    split
    · simp
    · next vs hvs =>
      have hlt : p < slots.length := hlength ▸ lt_of_choices hvs
      -- the first value is the one tried
      have hfirst : ∀ v values, .ok values ∈ r.items env current rest (slots.set p (some v)) →
          along (p :: rest) values = v :: along rest values := by
        intro v values hmem
        have hget := getElem?_of_mem_items hmem hp (List.getElem?_set_self hlt)
        exact List.filterMap_cons_some hget
      refine List.Pairwise.sublist (sublist_upToError _) (List.pairwise_flatMap.mpr ⟨?_, ?_⟩)
      · intro v _
        refine (ih nodup (by rw [List.length_set, hlength])).imp_of_mem fun {a b} ha hb hab => ?_
        rcases a with e | values
        · trivial
        rcases b with e | later
        · trivial
        change Value.cmpAll _ _ = .lt
        rw [hfirst v values ha, hfirst v later hb, Value.cmpAll_cons_self]
        exact hab
      · refine (Sorted.increasing_ofList vs).imp fun {v w} hvw a ha b hb => ?_
        rcases a with e | values
        · trivial
        rcases b with e | later
        · trivial
        change Value.cmpAll _ _ = .lt
        rw [hfirst v values ha, hfirst w later hb, Value.cmpAll, hvw, Ordering.lt_then]

/-- An enumeration yields what the depth-first recursion lists, item by item, and then nothing any
more. An error is the last item, and the assignments come in lexicographic order along the solving
order, so that none comes twice. -/
theorem ask_assignments {vars : List String}
    (computed : r.order = r.body.solvingOrder vars r.form) (henv : env.Canonical)
    (hcurrent : ∀ v ∈ current, v.Canonical) :
    let items := r.items env current r.order (List.replicate env.vars.length none)
    (∀ n, Answers.ask n (fun _ => r.assignments env current) =
      (items.map some ++ List.replicate n none).take n) ∧
    (∀ earlier e later, items = earlier ++ .error e :: later → later = []) ∧
    items.Pairwise (Precedes r.order) := by
  have nodup : r.order.Nodup := by
    rw [computed]
    exact (Expr.solvingOrder_perm _ _ _).nodup_iff.mpr List.nodup_range
  have hitems : (r.assignments env current).items =
      r.items env current r.order (List.replicate env.vars.length none) := by
    rw [assignments_eq_search nodup]
    exact items_search henv hcurrent _ (canonical_start env).slots
  refine ⟨fun n => ?_, fun earlier e later h => ?_, ?_⟩
  · rw [Answers.ask_eq, hitems]
  · exact Answers.eq_nil_of_items_eq (hitems.trans h)
  · exact pairwise_items nodup List.length_replicate

/-- The action `y' = 1 \div (2 - x') /\ x' \in 0..2` -/
def halted : Expr :=
  .conj [
    .binary .none .eq (.primed .none "y") (.binary .none .div (.literal .none (.int 1))
      (.binary .none .sub (.literal .none (.int 2)) (.primed .none "x"))),
    .binary .none .mem (.primed .none "x")
      (.range .none (.literal .none (.int 0)) (.literal .none (.int 2)))]

-- Two assignments come before the division by zero, and nothing after it.
theorem ask_assignments_halted :
    let env : Env := { vars := ["y", "x"] }
    let r : Relation := .action "Halted" halted env.vars
    r.order = [1, 0] ∧
      r.items env [.int 0, .int 0] r.order [none, none] =
        [.ok [.int 0, .int 0], .ok [.int 1, .int 1], .error ⟨.none, .fault .divisionByZero⟩] ∧
      Answers.ask 5 (fun _ => r.assignments env [.int 0, .int 0]) =
        [some (.ok [.int 0, .int 0]), some (.ok [.int 1, .int 1]),
          some (.error ⟨.none, .fault .divisionByZero⟩), none, none] := by
  intro env r
  have henv : env.Canonical := by intro v hv; cases hv
  have hcurrent : ∀ v ∈ [Value.int 0, .int 0], v.Canonical := by simp [Value.Canonical.int]
  have hitems : r.items env [.int 0, .int 0] r.order (List.replicate env.vars.length none) =
      [.ok [.int 0, .int 0], .ok [.int 1, .int 1], .error ⟨.none, .fault .divisionByZero⟩] := by
    cbv
  have computed : r.order = r.body.solvingOrder env.vars r.form := rfl
  obtain ⟨asked, -, -⟩ := ask_assignments computed henv hcurrent
  refine ⟨by cbv, hitems, ?_⟩
  rw [asked 5, hitems]
  rfl

end Relation

end ActionSystem
