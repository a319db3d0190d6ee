import ActionSystem.Proofs.Eval.Agreement
import ActionSystem.Proofs.Eval.Truth

/-!
# Meaning of expressions

The value of an expression without regard to the order of evaluation. A conjunction with a false
side is false and a disjunction with a true side is true, even if the other side has no value.
Evaluation stops at the first error instead, but where it gives a value, this is the meaning.
-/

namespace ActionSystem

namespace Value

def bool? : Value → Option Bool
  | bool b => some b
  | _ => none

theorem bool?_eq_some {v : Value} {b : Bool} : v.bool? = some b ↔ v = .bool b := by
  cases v <;> simp [bool?]

end Value

namespace Connective

/-- The result of a connective. Either side decides a conjunction or a disjunction alone, if it
can. -/
def weigh : Connective → Option Bool → Option Bool → Option Bool
  | and, some true, q => q
  | and, some false, _ => some false
  | and, none, some false => some false
  | and, none, _ => none
  | or, some false, q => q
  | or, some true, _ => some true
  | or, none, some true => some true
  | or, none, _ => none
  | implies, some true, q => q
  | implies, some false, _ => some true
  | implies, none, _ => none

variable {op : Connective} {p q : Option Bool} {a b : Bool}

theorem weigh_of_decided (h : op.decided? a = some b) (q : Option Bool) :
    op.weigh (some a) q = some b := by
  cases op <;> cases a <;> cases h <;> rfl

theorem weigh_of_undecided (h : op.decided? a = none) (q : Option Bool) :
    op.weigh (some a) q = q := by
  cases op <;> cases a <;> first | rfl | cases h

theorem weigh_comm (h : op ≠ implies) (p q : Option Bool) : op.weigh p q = op.weigh q p := by
  cases op with
  | and | or => rcases p with _ | _ | _ <;> rcases q with _ | _ | _ <;> rfl
  | implies => exact absurd rfl h

theorem weigh_assoc (h : op ≠ implies) (p q r : Option Bool) :
    op.weigh (op.weigh p q) r = op.weigh p (op.weigh q r) := by
  cases op with
  | and | or =>
    rcases p with _ | _ | _ <;> rcases q with _ | _ | _ <;> rcases r with _ | _ | _ <;> rfl
  | implies => exact absurd rfl h

theorem weigh_and : and.weigh p q = some true ↔ p = some true ∧ q = some true := by
  rcases p with _ | _ | _ <;> rcases q with _ | _ | _ <;> simp [weigh]

theorem weigh_or : or.weigh p q = some true ↔ p = some true ∨ q = some true := by
  rcases p with _ | _ | _ <;> rcases q with _ | _ | _ <;> simp [weigh]

theorem weigh_implies :
    implies.weigh p q = some true ↔ p = some false ∨ p = some true ∧ q = some true := by
  rcases p with _ | _ | _ <;> rcases q with _ | _ | _ <;> simp [weigh]

end Connective

def Binder.collect (binder : Binder) (items : List Value) (body : Value → Option Value) :
    Option Value :=
  let holds (v : Value) : Option Bool := do (← body v).bool?
  match binder with
  | function => do
    let es ← items.mapM fun k => do return (k, ← body k)
    return .ofEntries es
  | all => do return .bool (← items.allM holds)
  | any => do return .bool (← items.anyM holds)
  | choose => do (← items.findM? holds)
  | filter => do return .ofElements (← items.filterM holds)
  | image => do return .ofElements (← items.mapM body)

namespace Expr

mutual

/-- The value of an expression, if it has one. -/
def meaning : Expr → Context → Option Value
  | literal _ l, _ => some l.value
  | name _ x, c => c.value? x
  | primed _ x, c => c.nextValue? x
  | unchanged _ xs, c => do return .bool (← (c.isUnchanged .none xs).toOption)
  | unary _ op e, c => do
    let v ← meaning e c
    (op.apply v).toOption
  | logical _ op l r, c => do
    return .bool (← op.weigh ((meaning l c).bind Value.bool?) ((meaning r c).bind Value.bool?))
  | binary _ op l r, c => do
    let v ← meaning l c
    let w ← meaning r c
    (op.apply v w).toOption
  | range _ lo hi, c => do
    let v ← meaning lo c
    let m ← (v.expectInt "..").toOption
    let w ← meaning hi c
    let n ← (w.expectInt "..").toOption
    (Value.range .none m n).toOption
  | set _ es, c => do return .ofElements (← meaningAll es c)
  | seq _ es, c => do return .seq (← meaningAll es c)
  | record _ fs, c => do return .ofFields (← meaningFields fs c)
  | apply _ f a, c => do
    let v ← meaning f c
    let w ← meaning a c
    (v.apply w).toOption
  | field _ r x, c => do
    let v ← meaning r c
    (v.field x).toOption
  | except _ f k e, c => do
    let v ← meaning f c
    let key ← meaning k c
    let w ← meaning e c
    (v.except key w).toOption
  | append _ q x, c => do
    let v ← meaning q c
    let w ← meaning x c
    (v.append w).toOption
  | bind _ b x d e, c => do
    let v ← meaning d c
    let items ← v.elements?
    b.collect items fun item => meaning e (c.bind x item)
  | letIn _ x v e, c => do
    let w ← meaning v c
    meaning e (c.bind x w)
  | ite _ p t e, c => do
    let v ← meaning p c
    if ← v.bool? then meaning t c else meaning e c
termination_by structural e => e

def meaningAll : List Expr → Context → Option (List Value)
  | [], _ => some []
  | e :: es, c => do
    let v ← meaning e c
    let vs ← meaningAll es c
    return v :: vs
termination_by structural es => es

def meaningFields : List (String × Expr) → Context → Option (List (String × Value))
  | [], _ => some []
  | (x, e) :: fs, c => do
    let v ← meaning e c
    let vs ← meaningFields fs c
    return (x, v) :: vs
termination_by structural fs => fs

end

def truth? (e : Expr) (c : Context) : Option Bool := (e.meaning c).bind Value.bool?

def items? (e : Expr) (c : Context) : Option (List Value) := (e.meaning c).bind Value.elements?

section

variable {c : Context} {s : Span} {l r p y n d body : Expr} {x : String}

theorem truth?_eq_some {e : Expr} {b : Bool} :
    e.truth? c = some b ↔ e.meaning c = some (.bool b) := by
  rw [truth?, Option.bind_eq_some_iff]
  simp [Value.bool?_eq_some]

theorem meaning_logical {op : Connective} :
    (logical s op l r).meaning c = (op.weigh (l.truth? c) (r.truth? c)).map .bool := by
  show (op.weigh (l.truth? c) (r.truth? c)).bind (fun b => some (Value.bool b)) = _
  cases op.weigh _ _ <;> rfl

theorem truth?_logical {op : Connective} :
    (logical s op l r).truth? c = op.weigh (l.truth? c) (r.truth? c) := by
  rw [truth?, meaning_logical]
  cases op.weigh _ _ <;> rfl

theorem meaning_binary {op : BinaryOp} :
    (binary s op l r).meaning c = (l.meaning c).bind fun v => (r.meaning c).bind fun w =>
      (op.apply v w).toOption := rfl

theorem meaning_bind {b : Binder} :
    (Expr.bind s b x d body).meaning c = (d.items? c).bind fun items =>
      b.collect items fun v => body.meaning (c.bind x v) :=
  (Option.bind_assoc ..).symm

theorem meaning_ite :
    (ite s p y n).meaning c =
      (p.truth? c).bind fun b => if b then y.meaning c else n.meaning c :=
  (Option.bind_assoc ..).symm

end

end Expr

/-! ## Evaluation gives the meaning -/

open Result

theorem Fault.yields {α : Type} {s : Span} {x : Except Fault α} :
    Yields (Fault.at s x) x.toOption := by
  intro a h
  rw [Fault.at_eq_ok.mp h]
  rfl

namespace Value

theorem yields_truth {s : Span} {v : Value} : Yields (v.truth s) v.bool? := by
  intro b h
  rw [bool?_eq_some]
  exact truth_eq_ok.mp h

theorem yields_domainElements {s : Span} {v : Value} :
    Yields (v.domainElements s) v.elements? := fun _ h => domainElements_eq_ok.mp h

-- The span of an interval counts for the error only.
theorem yields_range {s : Span} {m n : Int64} :
    Yields (Value.range s m n) (Value.range .none m n).toOption := by
  unfold Value.range
  split
  · exact .error
  · exact .ok

end Value

theorem Context.yields_isUnchanged {c : Context} {s : Span} {xs : List String} :
    Yields (c.isUnchanged s xs) (c.isUnchanged .none xs).toOption := by
  induction xs with
  | nil => exact .ok
  | cons x xs ih =>
    unfold isUnchanged lookup lookupNext
    cases c.value? x with
    | none => exact .error
    | some v =>
      cases c.nextValue? x with
      | none => exact .error
      | some w =>
        show Yields (if v = w then c.isUnchanged s xs else pure false)
          (if v = w then c.isUnchanged .none xs else pure false).toOption
        by_cases hvw : v = w
        · rw [if_pos hvw, if_pos hvw]
          exact ih
        · rw [if_neg hvw, if_neg hvw]
          exact .ok

theorem Binder.yields_collect {b : Binder} {s t : Span} {items : List Value}
    {body : Value → Except EvalError Value} {body' : Value → Option Value}
    (h : ∀ v, Yields (body v) (body' v)) :
    Yields (b.gather s t items body) (b.collect items body') := by
  have holds : ∀ v, Yields (do (← body v).truth t) (do (← body' v).bool?) := fun v =>
    (h v).bind fun w => Value.yields_truth
  unfold gather collect
  cases b with
  | function => exact .bind (.mapM fun k => (h k).bind fun v => .pure) fun es => .pure
  | all => exact .bind (.allM holds) fun b => .pure
  | any => exact .bind (.anyM holds) fun b => .pure
  | choose =>
    refine .bind (.findM? holds) fun found => ?_
    cases found with
    | some v => exact .pure
    | none => exact .error
  | filter => exact .bind (.filterM holds) fun vs => .pure
  | image => exact .bind (.mapM h) fun vs => .pure

namespace Expr

variable {c c' : Context}

theorem yields_meaningAll {es : List Expr} (h : ∀ e ∈ es, Yields (e.eval c) (e.meaning c)) :
    Yields (evalAll es c) (meaningAll es c) := by
  induction es with
  | nil => exact .ok
  | cons e es ih =>
    obtain ⟨he, hes⟩ := List.forall_mem_cons.mp h
    exact he.bind fun v => (ih hes).bind fun vs => .pure

theorem yields_meaningFields {fs : List (String × Expr)}
    (h : ∀ f ∈ fs, Yields (f.2.eval c) (f.2.meaning c)) :
    Yields (evalFields fs c) (meaningFields fs c) := by
  induction fs with
  | nil => exact .ok
  | cons f fs ih =>
    obtain ⟨hf, hfs⟩ := List.forall_mem_cons.mp h
    exact hf.bind fun v => (ih hfs).bind fun vs => .pure

theorem yields_meaning (e : Expr) (c : Context) : Yields (e.eval c) (e.meaning c) := by
  induction e using of_parts generalizing c with
  | step e ih =>
    have part : ∀ p ∈ e.parts, Yields (p.eval c) (p.meaning c) := fun p hp => ih p hp c
    cases e with
    | literal s l => exact .ok
    | name s x =>
      intro v h
      exact lookup_eq_ok.mp h
    | primed s x =>
      intro v h
      exact lookupNext_eq_ok.mp h
    | unchanged s xs => exact Context.yields_isUnchanged.bind fun b => .pure
    | unary s op e => exact (part e (by simp [parts])).bind fun v => Fault.yields
    | logical s op l r =>
      intro v h
      simp only [eval, bind_eq_ok, Fault.at_eq_ok, Value.expectBool_eq_ok] at h
      obtain ⟨_, hl, p, rfl, h⟩ := h
      have hl' : l.meaning c = some (.bool p) := part l (by simp [parts]) _ hl
      cases hd : op.decided? p with
      | some b =>
        simp only [hd, pure_eq_ok] at h
        subst h
        rw [meaning_logical, truth?_eq_some.mpr hl', Connective.weigh_of_decided hd]
        rfl
      | none =>
        simp only [hd, bind_eq_ok, pure_eq_ok, Fault.at_eq_ok, Value.expectBool_eq_ok] at h
        obtain ⟨_, hr, q, rfl, rfl⟩ := h
        have hr' : r.meaning c = some (.bool q) := part r (by simp [parts]) _ hr
        rw [meaning_logical, truth?_eq_some.mpr hl', truth?_eq_some.mpr hr',
          Connective.weigh_of_undecided hd]
        rfl
    | binary s op l r =>
      exact (part l (by simp [parts])).bind fun v =>
        (part r (by simp [parts])).bind fun w => Fault.yields
    | range s lo hi =>
      exact (part lo (by simp [parts])).bind fun v => Fault.yields.bind fun m =>
        (part hi (by simp [parts])).bind fun w => Fault.yields.bind fun n => Value.yields_range
    | set s es => exact (yields_meaningAll part).bind fun vs => .pure
    | seq s es => exact (yields_meaningAll part).bind fun vs => .pure
    | record s fs =>
      have fields : ∀ f ∈ fs, Yields (f.2.eval c) (f.2.meaning c) := fun f hf =>
        part f.2 (List.mem_map_of_mem hf)
      exact (yields_meaningFields fields).bind fun vs => .pure
    | apply s f a =>
      exact (part f (by simp [parts])).bind fun v =>
        (part a (by simp [parts])).bind fun w => Fault.yields
    | field s r x => exact (part r (by simp [parts])).bind fun v => Fault.yields
    | except s f k e =>
      exact (part f (by simp [parts])).bind fun v => (part k (by simp [parts])).bind fun key =>
        (part e (by simp [parts])).bind fun w => Fault.yields
    | append s q x =>
      exact (part q (by simp [parts])).bind fun v =>
        (part x (by simp [parts])).bind fun w => Fault.yields
    | bind s b x d e =>
      exact (part d (by simp [parts])).bind fun v => Value.yields_domainElements.bind fun items =>
        Binder.yields_collect fun item => ih e (by simp [parts]) (c.bind x item)
    | letIn s x v e =>
      exact (part v (by simp [parts])).bind fun w => ih e (by simp [parts]) (c.bind x w)
    | ite s p t e =>
      refine (part p (by simp [parts])).bind fun v => ?_
      refine Yields.bind (o := v.bool?) ?_ fun b => ?_
      · intro b h
        exact Value.bool?_eq_some.mpr (Value.expectBool_eq_ok.mp (Fault.at_eq_ok.mp h))
      · cases b with
        | true => exact part t (by simp [parts])
        | false => exact part e (by simp [parts])

/-! ## Conditions -/

def Means (e : Expr) (c : Context) : Prop := e.meaning c = some (.bool true)

theorem meaning_of_holds {e : Expr} {b : Bool} (h : e.holds c = .ok b) :
    e.meaning c = some (.bool b) := yields_meaning e c _ (holds_eq_ok.mp h)

theorem items?_of_domain {e : Expr} {items : List Value} (h : e.domain c = .ok items) :
    e.items? c = some items :=
  (yields_meaning e c).bind (fun _ => Value.yields_domainElements) items h

-- A condition that is true by its meaning is not found to be false.
theorem Means.holds_ne_false {e : Expr} (h : e.Means c) : e.holds c ≠ .ok false := by
  intro hfalse
  have hmeaning := meaning_of_holds hfalse
  rw [h] at hmeaning
  cases hmeaning

section

variable {s : Span} {l r p y n d body : Expr} {x : String}

theorem means_and : (logical s .and l r).Means c ↔ l.Means c ∧ r.Means c := by
  rw [Means, ← truth?_eq_some, truth?_logical, Connective.weigh_and, truth?_eq_some,
    truth?_eq_some]
  rfl

theorem means_or : (logical s .or l r).Means c ↔ l.Means c ∨ r.Means c := by
  rw [Means, ← truth?_eq_some, truth?_logical, Connective.weigh_or, truth?_eq_some,
    truth?_eq_some]
  rfl

theorem means_implies :
    (logical s .implies l r).Means c ↔
      l.meaning c = some (.bool false) ∨ l.Means c ∧ r.Means c := by
  rw [Means, ← truth?_eq_some, truth?_logical, Connective.weigh_implies, truth?_eq_some,
    truth?_eq_some, truth?_eq_some]
  rfl

theorem means_ite :
    (ite s p y n).Means c ↔
      p.Means c ∧ y.Means c ∨ p.meaning c = some (.bool false) ∧ n.Means c := by
  rw [Means, meaning_ite, Option.bind_eq_some_iff]
  simp only [truth?_eq_some]
  constructor
  · intro h
    obtain ⟨b, hp, h⟩ := h
    cases b with
    | true => exact .inl ⟨hp, h⟩
    | false => exact .inr ⟨hp, h⟩
  · intro h
    rcases h with ⟨hp, h⟩ | ⟨hp, h⟩
    · exact ⟨true, hp, h⟩
    · exact ⟨false, hp, h⟩

theorem means_letIn {v : Expr} :
    (letIn s x v body).Means c ↔ ∃ w, v.meaning c = some w ∧ body.Means (c.bind x w) :=
  Option.bind_eq_some_iff

theorem means_all :
    (Expr.bind s .all x d body).Means c ↔
      ∃ items, d.items? c = some items ∧ ∀ v ∈ items, body.Means (c.bind x v) := by
  rw [Means, meaning_bind]
  simp only [Binder.collect, Option.bind_eq_bind, Option.bind_eq_some_iff, Option.pure_def,
    Option.some.injEq, Value.bool.injEq, exists_eq_right, allM_eq_some_true, Value.bool?_eq_some]
  rfl

theorem means_any (h : (Expr.bind s .any x d body).Means c) :
    ∃ items, d.items? c = some items ∧ ∃ v ∈ items, body.Means (c.bind x v) := by
  rw [Means, meaning_bind] at h
  simp only [Binder.collect, Option.bind_eq_bind, Option.bind_eq_some_iff, Option.pure_def,
    Option.some.injEq, Value.bool.injEq, exists_eq_right] at h
  obtain ⟨items, hitems, hany⟩ := h
  obtain ⟨item, hitem, hbody⟩ := exists_of_anyM_eq_some hany
  exact ⟨items, hitems, item, hitem, truth?_eq_some.mp hbody⟩

theorem means_eq :
    (binary s .eq l r).Means c ↔ ∃ v, l.meaning c = some v ∧ r.meaning c = some v := by
  rw [Means, meaning_binary]
  simp only [BinaryOp.apply, Except.toOption, Option.bind_eq_some_iff, Option.some.injEq,
    Value.bool.injEq, decide_eq_true_eq]
  constructor
  · intro h
    obtain ⟨v, hv, w, hw, heq⟩ := h
    exact ⟨v, hv, heq ▸ hw⟩
  · intro h
    obtain ⟨v, hv, hw⟩ := h
    exact ⟨v, hv, v, hw, rfl⟩

theorem means_mem (h : (binary s .mem l r).Means c) :
    ∃ v vs, l.meaning c = some v ∧ r.meaning c = some (.set vs) ∧ v ∈ vs := by
  rw [Means, meaning_binary] at h
  simp only [BinaryOp.apply, Value.contains, Option.bind_eq_some_iff, toOption_eq_some, bind_eq_ok,
    pure_eq_ok, Value.bool.injEq, exists_eq_right, Value.expectSet_eq_ok] at h
  obtain ⟨v, hv, w, hw, vs, rfl, hmem⟩ := h
  exact ⟨v, vs, hv, hw, Sorted.mem_of_contains hmem⟩

theorem means_unchanged {xs : List String} :
    (unchanged s xs).Means c ↔
      ∀ x ∈ xs, ∃ v, c.value? x = some v ∧ c.nextValue? x = some v := by
  rw [← isUnchanged_eq_ok_true (s := .none), ← toOption_eq_some]
  show (c.isUnchanged .none xs).toOption.bind (fun b => some (Value.bool b)) = _ ↔ _
  simp [Option.bind_eq_some_iff]

end

end Expr

/-! ## Contexts -/

def Context.Same (c c' : Context) : Prop :=
  ∀ x, c.value? x = c'.value? x ∧ c.nextValue? x = c'.nextValue? x

theorem Context.Same.bind {c c' : Context} (h : c.Same c') (x : String) (v : Value) :
    (c.bind x v).Same (c'.bind x v) :=
  fun y => ⟨value?_bind_congr (h y).1 x v, (h y).2⟩

namespace Expr

variable {c c' : Context}

theorem meaningAll_of_same {es : List Expr} (h : ∀ e ∈ es, e.meaning c = e.meaning c') :
    meaningAll es c = meaningAll es c' := by
  induction es with
  | nil => rfl
  | cons e es ih =>
    obtain ⟨he, hes⟩ := List.forall_mem_cons.mp h
    simp only [meaningAll, he, ih hes]

theorem meaningFields_of_same {fs : List (String × Expr)}
    (h : ∀ f ∈ fs, f.2.meaning c = f.2.meaning c') :
    meaningFields fs c = meaningFields fs c' := by
  induction fs with
  | nil => rfl
  | cons f fs ih =>
    obtain ⟨hf, hfs⟩ := List.forall_mem_cons.mp h
    simp only [meaningFields, hf, ih hfs]

theorem meaning_of_same {e : Expr} (h : c.Same c') : e.meaning c = e.meaning c' := by
  induction e using of_parts generalizing c c' with
  | step e ih =>
    have part : ∀ p ∈ e.parts, p.meaning c = p.meaning c' := fun p hp => ih p hp h
    have body : ∀ p ∈ e.parts, ∀ x v, p.meaning (c.bind x v) = p.meaning (c'.bind x v) :=
      fun p hp x v => ih p hp (h.bind x v)
    cases e with
    | literal s l => rfl
    | name s x => exact (h x).1
    | primed s x => exact (h x).2
    | unchanged s xs => simp only [meaning, Context.isUnchanged_congr .none fun x _ => h x]
    | unary s op e | field s e x => simp only [meaning, part e (by simp [parts])]
    | logical s op l r | binary s op l r | range s l r | apply s l r | append s l r =>
      simp only [meaning, part l (by simp [parts]), part r (by simp [parts])]
    | set s es | seq s es =>
      have hes : meaningAll es c = meaningAll es c' := meaningAll_of_same part
      simp only [meaning, hes]
    | record s fs =>
      have fields : ∀ f ∈ fs, f.2.meaning c = f.2.meaning c' := fun f hf =>
        part f.2 (List.mem_map_of_mem hf)
      simp only [meaning, meaningFields_of_same fields]
    | except s f k v | ite s f k v =>
      simp only [meaning, part f (by simp [parts]), part k (by simp [parts]),
        part v (by simp [parts])]
    | bind s b x d e | letIn s x d e =>
      simp only [meaning, part d (by simp [parts]), body e (by simp [parts])]

end Expr

/-! ## Pending variables -/

namespace Context.FilledBy

variable {c c' : Context} {e : Expr}

-- What can be evaluated before the pending variables have values has this meaning afterwards.
theorem meaning_of_eval (h : c.FilledBy c') (resolved : c.resolves e [] = true) {v : Value}
    (hv : e.eval c = .ok v) : e.meaning c' = some v := by
  rw [h.eval resolved] at hv
  exact Expr.yields_meaning e c' v hv

theorem meaning_of_holds (h : c.FilledBy c') (resolved : c.resolves e [] = true) {b : Bool}
    (hb : e.holds c = .ok b) : e.meaning c' = some (.bool b) :=
  h.meaning_of_eval resolved (Expr.holds_eq_ok.mp hb)

theorem items?_of_domain (h : c.FilledBy c') (resolved : c.resolves e [] = true)
    {items : List Value} (hitems : e.domain c = .ok items) : e.items? c' = some items := by
  rw [h.domain resolved] at hitems
  exact Expr.items?_of_domain hitems

/-! What was known of a condition, a domain or a definition selects the parts that have to be true
where the whole is. -/

theorem eq_true_of_means (h : c.FilledBy c') (resolved : c.resolves e [] = true) {b : Bool}
    (known : e.holds c = .ok b) (means : e.Means c') : b = true := by
  have hb := h.meaning_of_holds resolved known
  rw [means] at hb
  cases hb
  rfl

section

variable {s : Span} {l r p y n d v body : Expr} {x : String}

theorem means_conclusion (h : c.FilledBy c') (resolved : c.resolves l [] = true)
    (known : l.holds c = .ok true) (means : (Expr.logical s .implies l r).Means c') :
    r.Means c' := by
  rcases Expr.means_implies.mp means with hl | ⟨-, hr⟩
  · rw [h.meaning_of_holds resolved known] at hl
    cases hl
  · exact hr

theorem means_branch (h : c.FilledBy c') (resolved : c.resolves p [] = true) {b : Bool}
    (known : p.holds c = .ok b) (means : (Expr.ite s p y n).Means c') :
    (if b then y else n).Means c' := by
  have hb := h.meaning_of_holds resolved known
  rcases Expr.means_ite.mp means with ⟨hp, hy⟩ | ⟨hp, hn⟩
  · cases hp.symm.trans hb
    exact hy
  · cases hp.symm.trans hb
    exact hn

theorem exists_means_item (h : c.FilledBy c') (resolved : c.resolves d [] = true)
    {items : List Value} (ranges : d.domain c = .ok items)
    (means : (Expr.bind s .any x d body).Means c') : ∃ w ∈ items, body.Means (c'.bind x w) := by
  obtain ⟨items', hitems, hany⟩ := Expr.means_any means
  rw [h.items?_of_domain resolved ranges] at hitems
  cases hitems
  exact hany

theorem forall_means_item (h : c.FilledBy c') (resolved : c.resolves d [] = true)
    {items : List Value} (ranges : d.domain c = .ok items)
    (means : (Expr.bind s .all x d body).Means c') : ∀ w ∈ items, body.Means (c'.bind x w) := by
  obtain ⟨items', hitems, hall⟩ := Expr.means_all.mp means
  rw [h.items?_of_domain resolved ranges] at hitems
  cases hitems
  exact hall

theorem means_body (h : c.FilledBy c') (resolved : c.resolves v [] = true) {w : Value}
    (known : v.eval c = .ok w) (means : (Expr.letIn s x v body).Means c') :
    body.Means (c'.bind x w) := by
  obtain ⟨w', hw, hbody⟩ := Expr.means_letIn.mp means
  rw [h.meaning_of_eval resolved known] at hw
  cases hw
  exact hbody

end

end Context.FilledBy

end ActionSystem
