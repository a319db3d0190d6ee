import ActionSystem.Proofs.Eval.Agreement
import ActionSystem.Proofs.Result
import ActionSystem.Proofs.Solve.Cursor
import ActionSystem.Sorted.Lemmas
import ActionSystem.Value.Order

/-!
# Enumeration of solutions

The search through the choices for one variable after the other gives assignments that satisfy the
relation, and it gives all of them that are among the choices at every step.
-/

namespace ActionSystem

/-! ## Solving order -/

namespace Expr

theorem arrange_perm (deps : List Dependency) (turns : Nat) (left : List Nat) :
    (arrange deps turns left).Perm left := by
  induction turns generalizing left with
  | zero => exact .refl _
  | succ turns ih =>
    unfold arrange
    cases hfind : left.find? (isReady deps left) with
    | none => exact .refl _
    | some v =>
      have hmem : v ∈ left := List.mem_of_find?_eq_some hfind
      exact ((ih (left.erase v)).cons v).trans (List.perm_cons_erase hmem).symm

-- Every variable is solved for once.
theorem solvingOrder_perm (vars : List String) (form : Form) (e : Expr) :
    (e.solvingOrder vars form).Perm (List.range vars.length) :=
  arrange_perm _ _ _

theorem mem_solvingOrder {vars : List String} {form : Form} {e : Expr} {i : Nat} :
    i ∈ e.solvingOrder vars form ↔ i < vars.length := by
  rw [(solvingOrder_perm vars form e).mem_iff, List.mem_range]

end Expr

/-! ## Answers -/

namespace Answers

variable {ε α β : Type}

theorem collect_eq_ok {s : Answers ε α} {as : List α} :
    s.collect = .ok as ↔ s.toList = (as, none) := by
  rw [collect_eq]
  cases h : s.toList with
  | mk found error => cases error <;> simp

theorem collect_append {s : Answers ε α} {more : Unit → Answers ε α} {as : List α} :
    (s.append more).collect = .ok as ↔
      ∃ xs ys, s.collect = .ok xs ∧ (more ()).collect = .ok ys ∧ as = xs ++ ys := by
  simp only [collect_eq_ok, toList_append]
  cases hs : s.toList with
  | mk xs error =>
    cases error with
    | some e => simp
    | none =>
      constructor
      · intro h
        obtain ⟨has, herror⟩ := Prod.mk.inj h
        exact ⟨xs, _, rfl, Prod.ext rfl herror, has.symm⟩
      · intro h
        obtain ⟨xs', ys, hxs, hys, has⟩ := h
        cases hxs
        rw [hys, has]

-- The answers for the items of a list are collected from the answers for each of them.
theorem mem_collect_forEach {f : β → Answers ε α} {bs : List β} {as : List α}
    (h : (forEach f bs).collect = .ok as) :
    (∀ b ∈ bs, ∃ found, (f b).collect = .ok found) ∧
      ∀ a, a ∈ as ↔ ∃ b ∈ bs, ∃ found, (f b).collect = .ok found ∧ a ∈ found := by
  induction bs generalizing as with
  | nil =>
    cases h
    simp
  | cons b bs ih =>
    obtain ⟨xs, ys, hxs, hys, rfl⟩ := collect_append.mp h
    obtain ⟨hall, hmem⟩ := ih hys
    refine ⟨List.forall_mem_cons.mpr ⟨⟨xs, hxs⟩, hall⟩, fun a => ?_⟩
    rw [List.mem_append, hmem]
    simp [hxs]

theorem collect_append_eq_error {s : Answers ε α} {more : Unit → Answers ε α} {e : ε}
    (h : (s.append more).collect = .error e) :
    s.collect = .error e ∨ (more ()).collect = .error e := by
  rw [collect_eq, toList_append] at h
  rw [collect_eq, collect_eq]
  cases hs : s.toList with
  | mk found error =>
    rw [hs] at h
    cases error with
    | some e' => exact .inl h
    | none =>
      right
      cases hmore : (more ()).toList with
      | mk later error =>
        rw [hmore] at h
        cases error with
        | some e' => exact h
        | none => cases h

-- What breaks off the answers for the items of a list breaks off those for one of them.
theorem exists_of_collect_forEach {f : β → Answers ε α} {bs : List β} {e : ε}
    (h : (forEach f bs).collect = .error e) : ∃ b ∈ bs, (f b).collect = .error e := by
  induction bs with
  | nil => cases h
  | cons b bs ih =>
    rcases collect_append_eq_error h with hb | hbs
    · exact ⟨b, List.mem_cons_self, hb⟩
    · obtain ⟨b', hb', he⟩ := ih hbs
      exact ⟨b', List.mem_cons_of_mem _ hb', he⟩

end Answers

/-! ## Order of states -/

instance : Std.OrientedCmp State.cmp := ⟨(Value.cmpAll_swap _ _).symm⟩

instance : Std.TransCmp State.cmp := ⟨Value.isLE_trans_all _ _ _⟩

instance : Std.LawfulEqCmp State.cmp where
  eq_of_compare := by
    intro s t h
    cases s; cases t
    rw [State.mk.injEq]
    exact Value.eq_of_cmpAll_eq _ _ h

/-! ## Search -/

namespace Relation

variable {r : Relation} {env : Env} {current values : List Value} {slots : List (Option Value)}
  {found : List (List Value)}

theorem env_partialContext : (r.partialContext env current slots).env = env := by
  unfold partialContext
  cases r.form <;> rfl

theorem complete?_eq_some : complete? slots = some values ↔ slots = values.map some := by
  unfold complete?
  induction slots generalizing values with
  | nil => cases values <;> simp
  | cons slot slots ih =>
    rw [List.mapM_cons]
    cases slot with
    | none => cases values <;> simp
    | some v =>
      cases values with
      | nil => simp [Option.bind_eq_some_iff]
      | cons w values =>
        simp only [id, Option.bind_eq_bind, Option.bind_some, Option.bind_eq_some_iff, ih,
          Option.pure_def, Option.some.injEq, List.map_cons, List.cons.injEq]
        constructor
        · intro h
          obtain ⟨vs, hslots, hv, hvs⟩ := h
          exact ⟨hv, hvs ▸ hslots⟩
        · intro h
          obtain ⟨hv, hslots⟩ := h
          exact ⟨values, hslots, hv, rfl⟩

theorem accept_eq_some :
    r.accept env current slots = .ok (some values) ↔
      slots = values.map some ∧ r.body.holds (r.totalContext env current values) = .ok true := by
  rw [← complete?_eq_some]
  unfold accept
  cases hc : complete? slots with
  | none => simp
  | some vs =>
    simp only [Result.bind_eq_ok, Option.some.injEq]
    constructor
    · intro h
      obtain ⟨b, hb, h⟩ := h
      cases b with
      | true =>
        cases h
        exact ⟨rfl, hb⟩
      | false => cases h
    · intro h
      obtain ⟨hvs, hb⟩ := h
      subst hvs
      exact ⟨true, hb, rfl⟩

theorem mem_search_nil (h : (r.search env current [] slots).collect = .ok found) :
    values ∈ found ↔ r.accept env current slots = .ok (some values) := by
  unfold search at h
  cases ha : r.accept env current slots with
  | error e =>
    rw [ha] at h
    cases h
  | ok answer =>
    rw [ha] at h
    cases answer with
    | none =>
      cases h
      simp
    | some vs =>
      cases h
      simp [eq_comm]

-- At the end of a search that succeeds, what is not false is accepted.
theorem accept_of_search_nil (h : (r.search env current [] slots).collect = .ok found)
    (hslots : slots = values.map some)
    (holds : r.body.holds (r.totalContext env current values) ≠ .ok false) :
    r.accept env current slots = .ok (some values) := by
  unfold search at h
  cases hb : r.body.holds (r.totalContext env current values) with
  | ok b =>
    cases b with
    | true => exact accept_eq_some.mpr ⟨hslots, hb⟩
    | false => exact absurd hb holds
  | error e =>
    have herror : r.accept env current slots = .error e := by
      unfold accept
      rw [complete?_eq_some.mpr hslots]
      simp only [hb]
      rfl
    rw [herror] at h
    cases h

theorem mem_search_cons {p : Nat} {rest : List Nat}
    (h : (r.search env current (p :: rest) slots).collect = .ok found) :
    ∃ vs, r.choices env current slots p = .ok vs ∧
      (∀ v ∈ vs, ∃ later,
        (r.search env current rest (slots.set p (some v))).collect = .ok later) ∧
      ∀ values, values ∈ found ↔ ∃ v ∈ vs, ∃ later,
        (r.search env current rest (slots.set p (some v))).collect = .ok later ∧
          values ∈ later := by
  unfold search at h
  cases hvs : r.choices env current slots p with
  | error e =>
    rw [hvs] at h
    cases h
  | ok vs =>
    rw [hvs] at h
    exact ⟨vs, rfl, Answers.mem_collect_forEach h⟩

/-- An answer satisfies the relation, leaves what was known as it was, and has a value for every
variable that was solved for, chosen while the variable was pending. -/
structure Solves (r : Relation) (env : Env) (current : List Value) (order : List Nat)
    (slots : List (Option Value)) (values : List Value) : Prop where
  holds : r.body.holds (r.totalContext env current values) = .ok true
  length_eq : values.length = slots.length
  known : ∀ i, i ∉ order → (values.map some)[i]? = slots[i]?
  chosen : ∀ p ∈ order, p < slots.length → ∃ slots' vs v, slots'[p]? = some none ∧
    (Slots.solving slots').FilledBy (.total values) ∧
    r.choices env current slots' p = .ok vs ∧ v ∈ vs ∧ values[p]? = some v

-- An answer fills in what is pending.
theorem filledBy_of_known {order : List Nat} (length_eq : values.length = slots.length)
    (known : ∀ i, i ∉ order → (values.map some)[i]? = slots[i]?)
    (pending : ∀ p ∈ order, p < slots.length → slots[p]? = some none) :
    (Slots.solving slots).FilledBy (.total values) := by
  intro i hi
  change values[i]? = slots[i]?.join
  by_cases hmem : i ∈ order
  · have hge : slots.length ≤ i := by
      refine Nat.le_of_not_lt fun hlt => ?_
      rw [Slots.isPending, pending i hmem hlt] at hi
      simp at hi
    rw [List.getElem?_eq_none hge, List.getElem?_eq_none (by omega)]
    rfl
  · rw [← known i hmem, List.getElem?_map]
    cases values[i]? <;> rfl

theorem solves_of_mem_search {order : List Nat} (nodup : order.Nodup)
    (h : (r.search env current order slots).collect = .ok found) (hmem : values ∈ found)
    (pending : ∀ p ∈ order, p < slots.length → slots[p]? = some none) :
    r.Solves env current order slots values := by
  induction order generalizing slots found with
  | nil =>
    obtain ⟨hslots, hholds⟩ := accept_eq_some.mp ((mem_search_nil h).mp hmem)
    exact ⟨hholds, by rw [hslots, List.length_map], fun i _ => by rw [hslots], by simp⟩
  | cons p rest ih =>
    obtain ⟨hp, hrest⟩ := List.nodup_cons.mp nodup
    obtain ⟨vs, hvs, -, hfound⟩ := mem_search_cons h
    obtain ⟨v, hv, later, hlater, hmem'⟩ := (hfound values).mp hmem
    have hsolves := ih hrest hlater hmem' fun q hq hlt => by
      have hne : p ≠ q := fun heq => hp (heq ▸ hq)
      rw [List.length_set] at hlt
      rw [List.getElem?_set_ne hne]
      exact pending q (List.mem_cons_of_mem _ hq) hlt
    have hlength : values.length = slots.length := by
      rw [hsolves.length_eq, List.length_set]
    have hknown : ∀ i, i ∉ p :: rest → (values.map some)[i]? = slots[i]? := by
      intro i hi
      rw [List.mem_cons, not_or] at hi
      rw [hsolves.known i hi.2, List.getElem?_set_ne (Ne.symm hi.1)]
    refine ⟨hsolves.holds, hlength, hknown, fun q hq hlt => ?_⟩
    rcases List.mem_cons.mp hq with hqp | hq
    · subst hqp
      have hvalue := hsolves.known q hp
      rw [List.getElem?_set_self hlt, List.getElem?_map, Option.map_eq_some_iff] at hvalue
      obtain ⟨w, hw, heq⟩ := hvalue
      cases heq
      exact ⟨slots, vs, v, pending q hq hlt, filledBy_of_known hlength hknown pending, hvs, hv, hw⟩
    · exact hsolves.chosen q hq (by rw [List.length_set]; exact hlt)

-- A value for the next variable leaves the variables behind it pending.
theorem pending_set {p : Nat} {rest : List Nat} (hp : p ∉ rest)
    (pending : ∀ q, slots[q]? = some none ↔ q ∈ p :: rest) (v : Value) (q : Nat) :
    (slots.set p (some v))[q]? = some none ↔ q ∈ rest := by
  have hlt : p < slots.length :=
    (List.getElem?_eq_some_iff.mp ((pending p).mpr List.mem_cons_self)).1
  by_cases hqp : p = q
  · subst hqp
    rw [List.getElem?_set_self hlt]
    simp [hp]
  · rw [List.getElem?_set_ne hqp, pending, List.mem_cons]
    simp [Ne.symm hqp]

/-- A search fails at the choices for a variable, when those before it are known and those behind
it are pending, or when a complete assignment is checked. -/
theorem exists_of_search_eq_error {order : List Nat} {err : EvalError} (nodup : order.Nodup)
    (h : (r.search env current order slots).collect = .error err)
    (pending : ∀ q, slots[q]? = some none ↔ q ∈ order) :
    (∃ before p rest slots', order = before ++ p :: rest ∧
      (∀ q : Nat, slots'[q]? = some none ↔ q ∈ p :: rest) ∧
      r.choices env current slots' p = .error err) ∨
      ∃ slots', r.accept env current slots' = .error err := by
  induction order generalizing slots with
  | nil =>
    unfold search at h
    cases ha : r.accept env current slots with
    | error e =>
      rw [ha] at h
      cases h
      exact .inr ⟨slots, ha⟩
    | ok answer =>
      rw [ha] at h
      cases answer <;> cases h
  | cons p rest ih =>
    obtain ⟨hp, hrest⟩ := List.nodup_cons.mp nodup
    unfold search at h
    cases hvs : r.choices env current slots p with
    | error e =>
      rw [hvs] at h
      cases h
      exact .inl ⟨[], p, rest, slots, rfl, pending, hvs⟩
    | ok vs =>
      rw [hvs] at h
      obtain ⟨v, -, hv⟩ := Answers.exists_of_collect_forEach h
      rcases ih hrest hv (pending_set hp pending v) with ⟨before, q, later, slots', hsplit, hq⟩ | ha
      · exact .inl ⟨p :: before, q, later, slots', by rw [hsplit]; rfl, hq⟩
      · exact .inr ha

/-! ## Completeness -/

-- When nothing is pending, the slots hold the values that fill them in.
theorem eq_map_of_filledBy
    (fill : (Slots.solving slots).FilledBy (.total values))
    (none_pending : ∀ i : Nat, slots[i]? ≠ some none) : slots = values.map some := by
  apply List.ext_getElem?
  intro i
  have hnot := none_pending i
  have hfill : values[i]? = slots[i]?.join := fill i (by simpa [Slots.isPending] using hnot)
  rw [List.getElem?_map, hfill]
  cases hi : slots[i]? with
  | none => rfl
  | some slot =>
    cases slot with
    | none => exact absurd hi hnot
    | some v => rfl

-- A pending variable may be given any value.
theorem filledBy_set {p : Nat} {v : Value} (length_eq : slots.length = values.length)
    (fill : (Slots.solving slots).FilledBy (.total values)) (hpending : slots[p]? = some none) :
    (Slots.solving slots).FilledBy (.total (values.set p v)) ∧
      (Slots.solving (slots.set p (some v))).FilledBy (.total (values.set p v)) := by
  have hlt : p < slots.length := (List.getElem?_eq_some_iff.mp hpending).1
  have hother : ∀ i, p ≠ i → (values.set p v)[i]? = values[i]? := fun i hi =>
    List.getElem?_set_ne hi
  constructor
  · intro i hi
    have hip : p ≠ i := fun heq => by
      rw [← heq, Slots.isPending, hpending] at hi
      simp at hi
    change (values.set p v)[i]? = slots[i]?.join
    rw [hother i hip]
    exact fill i hi
  · intro i hi
    change (values.set p v)[i]? = (slots.set p (some v))[i]?.join
    by_cases hip : p = i
    · rw [← hip, List.getElem?_set_self hlt, List.getElem?_set_self (length_eq ▸ hlt)]
      rfl
    · change ((slots.set p (some v))[i]? = some none : Bool) = false at hi
      rw [List.getElem?_set_ne hip] at hi
      rw [hother i hip, List.getElem?_set_ne hip]
      exact fill i hi

theorem set_eq_self {p : Nat} {v : Value} (h : values[p]? = some v) : values.set p v = values := by
  obtain ⟨hp, hv⟩ := List.getElem?_eq_some_iff.mp h
  rw [← hv, List.set_getElem_self]

/-- Whatever is known of an assignment with the property, one of the choices for a pending variable
keeps the property. -/
def Sustains (r : Relation) (env : Env) (current : List Value) (P : List Value → Prop) : Prop :=
  ∀ values slots p vs, P values → slots.length = values.length →
    (Slots.solving slots).FilledBy (.total values) → slots[p]? = some none →
    r.choices env current slots p = .ok vs → ∃ v ∈ vs, P (values.set p v)

/-- A search finds an assignment with a property that is sustained. The relation has no error where
the search succeeds, so that it is enough that it is not false. -/
theorem exists_mem_search {P : List Value → Prop} {order : List Nat} (nodup : order.Nodup)
    (h : (r.search env current order slots).collect = .ok found)
    (holds : ∀ vs, P vs → r.body.holds (r.totalContext env current vs) ≠ .ok false)
    (sustains : r.Sustains env current P) (hP : P values) (length_eq : slots.length = values.length)
    (fill : (Slots.solving slots).FilledBy (.total values))
    (pending : ∀ p, slots[p]? = some none ↔ p ∈ order) : ∃ vs ∈ found, P vs := by
  induction order generalizing slots found values with
  | nil =>
    have hslots := eq_map_of_filledBy fill fun i hi => List.not_mem_nil ((pending i).mp hi)
    have haccept := accept_of_search_nil h hslots (holds values hP)
    exact ⟨values, (mem_search_nil h).mpr haccept, hP⟩
  | cons p rest ih =>
    obtain ⟨hp, hrest⟩ := List.nodup_cons.mp nodup
    obtain ⟨vs, hvs, hlater, hfound⟩ := mem_search_cons h
    have hpending : slots[p]? = some none := (pending p).mpr List.mem_cons_self
    obtain ⟨v, hv, hP'⟩ := sustains values slots p vs hP length_eq fill hpending hvs
    obtain ⟨later, hsearch⟩ := hlater v hv
    have hpending' := pending_set hp pending v
    obtain ⟨ws, hws, hPws⟩ := ih hrest hsearch hP'
      (by rw [List.length_set, List.length_set, length_eq])
      (filledBy_set length_eq fill hpending).2 hpending'
    exact ⟨ws, (hfound ws).mpr ⟨v, hv, later, hsearch, hws⟩, hPws⟩

def Offered (r : Relation) (env : Env) (current values : List Value) : Prop :=
  ∀ slots p vs, slots.length = values.length →
    (Slots.solving slots).FilledBy (.total values) → slots[p]? = some none →
    r.choices env current slots p = .ok vs → ∃ v ∈ vs, values[p]? = some v

theorem Offered.sustains (h : r.Offered env current values) :
    r.Sustains env current (· = values) := by
  intro values' slots p vs heq length_eq fill hpending hvs
  subst heq
  obtain ⟨v, hv, hvalue⟩ := h slots p vs length_eq fill hpending hvs
  exact ⟨v, hv, set_eq_self hvalue⟩

/-! ## States -/

theorem states_eq_ok {states : List State} (h : r.states env current = .ok states) :
    ∃ found, (r.assignments env current).collect = .ok found ∧
      states = Sorted.ofList State.cmp (found.map .mk) := by
  unfold Relation.states at h
  rw [Result.bind_eq_ok] at h
  obtain ⟨found, hfound, h⟩ := h
  cases h
  exact ⟨found, hfound, rfl⟩

-- The states are listed in order, each once.
theorem increasing_states {states : List State} (h : r.states env current = .ok states) :
    Sorted.Increasing State.cmp states := by
  obtain ⟨found, -, rfl⟩ := states_eq_ok h
  exact Sorted.increasing_ofList _

theorem nodup_states {states : List State} (h : r.states env current = .ok states) :
    states.Nodup := Sorted.nodup_of_increasing (increasing_states h)

variable {states : List State} {s : State}

def IsOrdered (r : Relation) (env : Env) : Prop := r.order.Perm (List.range env.vars.length)

theorem isOrdered_action (name : String) (body : Expr) (env : Env) :
    (action name body env.vars).IsOrdered env := Expr.solvingOrder_perm _ _ _

theorem isOrdered_initial (body : Expr) (env : Env) :
    (initial body env.vars).IsOrdered env := Expr.solvingOrder_perm _ _ _

theorem IsOrdered.nodup (ordered : r.IsOrdered env) : r.order.Nodup :=
  ordered.nodup_iff.mpr List.nodup_range

-- At first all variables are pending.
theorem IsOrdered.pending_replicate (ordered : r.IsOrdered env) (p : Nat) :
    (List.replicate env.vars.length (none : Option Value))[p]? = some none ↔ p ∈ r.order := by
  rw [ordered.mem_iff, List.mem_range, List.getElem?_replicate]
  simp

theorem solves_of_mem_states (ordered : r.IsOrdered env) (h : r.states env current = .ok states)
    (hs : s ∈ states) :
    r.Solves env current r.order (List.replicate env.vars.length none) s.values := by
  obtain ⟨found, hfound, rfl⟩ := states_eq_ok h
  rw [assignments_eq_search ordered.nodup] at hfound
  rw [Sorted.mem_ofList, List.mem_map] at hs
  obtain ⟨values, hvalues, rfl⟩ := hs
  refine solves_of_mem_search ordered.nodup hfound hvalues ?_
  intro p _ hlt
  rw [List.length_replicate] at hlt
  rw [List.getElem?_replicate, if_pos hlt]

theorem length_of_mem_states (ordered : r.IsOrdered env) (h : r.states env current = .ok states)
    (hs : s ∈ states) : s.values.length = env.vars.length := by
  rw [(solves_of_mem_states ordered h hs).length_eq, List.length_replicate]

/-- The states include one with a property that is sustained. -/
theorem exists_mem_states {P : List Value → Prop} (ordered : r.IsOrdered env)
    (h : r.states env current = .ok states) (length_eq : values.length = env.vars.length)
    (holds : ∀ vs, P vs → r.body.holds (r.totalContext env current vs) ≠ .ok false)
    (sustains : r.Sustains env current P) (hP : P values) : ∃ s ∈ states, P s.values := by
  obtain ⟨found, hfound, rfl⟩ := states_eq_ok h
  rw [assignments_eq_search ordered.nodup] at hfound
  have hfill : (Slots.solving (List.replicate env.vars.length none)).FilledBy (.total values) := by
    intro i hi
    -- nothing is known yet, so that the variable would have to be undeclared
    have hle : env.vars.length ≤ i := by
      rw [Slots.isPending, List.getElem?_replicate] at hi
      by_cases hlt : i < env.vars.length
      · simp [hlt] at hi
      · omega
    change values[i]? = (List.replicate env.vars.length none)[i]?.join
    rw [List.getElem?_eq_none (by omega), List.getElem?_eq_none (by simpa using hle)]
    rfl
  obtain ⟨vs, hvs, hPvs⟩ := exists_mem_search ordered.nodup hfound holds sustains hP
    (by rw [List.length_replicate, length_eq]) hfill ordered.pending_replicate
  exact ⟨⟨vs⟩, Sorted.mem_ofList.mpr (List.mem_map_of_mem hvs), hPvs⟩

/-- Nothing that is offered is missed, unless the relation is false of it. -/
theorem mem_states_of_ne_false (ordered : r.IsOrdered env)
    (h : r.states env current = .ok states) (length_eq : s.values.length = env.vars.length)
    (holds : r.body.holds (r.totalContext env current s.values) ≠ .ok false)
    (offered : r.Offered env current s.values) : s ∈ states := by
  have holds' : ∀ vs, vs = s.values → r.body.holds (r.totalContext env current vs) ≠ .ok false :=
    fun vs heq => heq ▸ holds
  obtain ⟨t, ht, heq⟩ := exists_mem_states ordered h length_eq holds' offered.sustains rfl
  have hts : t = s := congrArg State.mk heq
  exact hts ▸ ht

theorem mem_states (ordered : r.IsOrdered env) (h : r.states env current = .ok states)
    (length_eq : s.values.length = env.vars.length)
    (holds : r.body.holds (r.totalContext env current s.values) = .ok true)
    (offered : r.Offered env current s.values) : s ∈ states := by
  refine mem_states_of_ne_false ordered h length_eq ?_ offered
  rw [holds]
  simp

end Relation

end ActionSystem
