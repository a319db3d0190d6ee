import ActionSystem.Proofs.Comparison
import ActionSystem.Proofs.Eval.Regrouping

/-!
# Expressions with other parts

What an expression refers to, and what it evaluates to, depends on what its parts refer to and
evaluate to. Parts may be replaced by others that cannot be told apart from them.
-/

namespace ActionSystem

open Result (Matches)

/-! ## Results up to places -/

section

variable {firm : Prop} {s s' t t' : Span}

theorem Fault.matches_at {α : Type} (x : Except Fault α) :
    Matches firm Eq (Fault.at s x) (Fault.at s' x) :=
  .of_toOption_eq (by cases x <;> rfl)

theorem Value.matches_truth (v : Value) : Matches firm Eq (v.truth s) (v.truth s') :=
  Fault.matches_at _

theorem Value.matches_domainElements (v : Value) :
    Matches firm Eq (v.domainElements s) (v.domainElements s') := by
  unfold domainElements
  cases v.elements? with
  | some xs => exact .refl _
  | none => exact .error

theorem Binder.matches_gather (b : Binder) {items : List Value}
    {f g : Value → Except EvalError Value} (h : ∀ v ∈ items, Matches firm Eq (f v) (g v)) :
    Matches firm Eq (b.gather s t items f) (b.gather s' t' items g) := by
  have holds : ∀ v ∈ items,
      Matches firm Eq (do (← f v).truth t) (do (← g v).truth t') := fun v hv =>
    .bind_eq (h v hv) fun w => w.matches_truth
  cases b with
  | function =>
    exact .bind_eq (.mapM_eq fun v hv => .bind_eq (h v hv) fun w => .refl _) fun _ => .refl _
  | all => exact .bind_eq (.allM holds) fun _ => .refl _
  | any => exact .bind_eq (.anyM holds) fun _ => .refl _
  | choose =>
    refine .bind_eq (.findM? holds) fun found => ?_
    cases found with
    | some v => exact .refl _
    | none => exact .error
  | filter => exact .bind_eq (.filterM holds) fun _ => .refl _
  | image => exact .bind_eq (.mapM_eq h) fun _ => .refl _

end

namespace Expr

variable {e : Expr} {ps : List Expr} {bound : List String}

/-! ## References of parts -/

def taken : Expr → Nat → List String
  | bind _ _ x _ _, 1 | letIn _ x _ _, 1 => [x]
  | _, _ => []

/-- The other parts are related to those of the expression, each below the names that the
expression binds in it. -/
structure Paired (R : List String → Expr → Expr → Prop) (e : Expr) (ps : List Expr) : Prop where
  length : ps.length = e.parts.length
  rel : ∀ {i : Nat} {p q : Expr}, e.parts[i]? = some p → ps[i]? = some q → R (e.taken i) p q

section

variable {R S : List String → Expr → Expr → Prop} {T : Expr → Expr → Prop}

theorem Paired.imp (h : e.Paired R ps) (hRS : ∀ b p q, R b p q → S b p q) : e.Paired S ps :=
  ⟨h.length, fun hp hq => hRS _ _ _ (h.rel hp hq)⟩

theorem Paired.forall₂ (h : e.Paired (fun _ => T) ps) : List.Forall₂ T e.parts ps :=
  List.forall₂_iff_get.mpr ⟨h.length.symm, fun _ hi hi' =>
    h.rel (List.getElem?_eq_getElem hi) (List.getElem?_eq_getElem hi')⟩

theorem paired_set {i : Nat} {p q : Expr} (part : e.parts[i]? = some p) (refl : ∀ b p, R b p p)
    (h : R (e.taken i) p q) : e.Paired R (e.parts.set i q) := by
  refine ⟨List.length_set .., fun {j p' q'} hp hq => ?_⟩
  by_cases hij : i = j
  · subst hij
    rw [List.getElem?_set_self (List.getElem?_eq_some_iff.mp part).1] at hq
    cases part.symm.trans hp
    cases hq
    exact h
  · rw [List.getElem?_set_ne hij, hp] at hq
    cases hq
    exact refl _ _

theorem paired_map {f : Expr → Expr}
    (h : ∀ {i : Nat} {p : Expr}, e.parts[i]? = some p → R (e.taken i) p (f p)) :
    e.Paired R (e.parts.map f) := by
  refine ⟨List.length_map _, fun {i p q} hp hq => ?_⟩
  rw [List.getElem?_map, hp] at hq
  cases hq
  exact h hp

end

theorem withParts_parts (e : Expr) : e.withParts e.parts = e := by
  cases e with
  | record s fs => simp [parts, withParts, List.zip_map']
  | _ => rfl

theorem withParts_withParts (h : ps.length = e.parts.length) :
    (e.withParts ps).withParts e.parts = e := by
  cases e with
  | literal s l | name s x | primed s x | unchanged s xs | set s es | seq s es => rfl
  | record s fs =>
    rw [parts, List.length_map] at h
    simp [withParts, parts, List.map_fst_zip, List.zip_map', h]
  | unary s op e | field s e x =>
    obtain ⟨p, rfl⟩ := List.length_eq_one_iff.mp h
    rfl
  | logical s op l r | binary s op l r | range s l r | apply s l r | append s l r
  | bind s b x l r | letIn s x l r =>
    obtain ⟨p, q, rfl⟩ := List.length_eq_two.mp h
    rfl
  | except s f k v | ite s f k v =>
    obtain ⟨p, q, r, rfl⟩ := List.length_eq_three.mp h
    rfl

def ownReferences (e : Expr) (bound : List String) : List Reference :=
  match e with
  | name _ _ | primed _ _ | unchanged _ _ => e.references bound
  | _ => []

theorem taken_withParts {i : Nat} : (e.withParts ps).taken i = e.taken i := by
  unfold withParts
  split
  · rfl
  all_goals match i with | 0 | 1 | i + 2 => rfl

theorem Paired.symm {R : List String → Expr → Expr → Prop} (h : e.Paired R ps) :
    (e.withParts ps).Paired (fun b p q => R b q p) e.parts where
  length := by rw [parts_withParts h.length, h.length]
  rel hp hq := by
    rw [parts_withParts h.length] at hp
    rw [taken_withParts]
    exact h.rel hq hp

theorem ownReferences_withParts : (e.withParts ps).ownReferences bound = e.ownReferences bound := by
  unfold withParts
  split <;> rfl

section

variable {P : Nat → Expr → Prop} {Q : Expr → Prop} {p : Expr}

theorem exists_part_iff : (∃ (i : Nat) (p : Expr), ps[i]? = some p ∧ Q p) ↔ ∃ p ∈ ps, Q p := by
  simp only [List.mem_iff_getElem?]
  exact ⟨fun ⟨i, p, hp, h⟩ => ⟨p, ⟨i, hp⟩, h⟩, fun ⟨p, ⟨i, hp⟩, h⟩ => ⟨i, p, hp, h⟩⟩

theorem exists_part_nil : ¬ ∃ i p, ([] : List Expr)[i]? = some p ∧ P i p := by
  simp

theorem exists_part_cons : (∃ i q, (p :: ps)[i]? = some q ∧ P i q) ↔
    P 0 p ∨ ∃ i q, ps[i]? = some q ∧ P (i + 1) q := by
  constructor
  · intro ⟨i, q, hq, h⟩
    cases i with
    | zero =>
      cases hq
      exact .inl h
    | succ i => exact .inr ⟨i, q, hq, h⟩
  · rintro (h | ⟨i, q, hq, h⟩)
    · exact ⟨0, p, rfl, h⟩
    · exact ⟨i + 1, q, hq, h⟩

end

/-- An expression refers to what it is itself, and to what its parts refer to. -/
theorem mem_references {r : Reference} : r ∈ e.references bound ↔
    r ∈ e.ownReferences bound ∨
      ∃ (i : Nat) (p : Expr), e.parts[i]? = some p ∧ r ∈ p.references (e.taken i ++ bound) := by
  cases e with
  | literal s l | name s x | primed s x | unchanged s xs =>
    simp [ownReferences, parts, references]
  | set s es | seq s es =>
    change r ∈ referencesAll es bound ↔
      r ∈ [] ∨ ∃ (i : Nat) (p : Expr), es[i]? = some p ∧ r ∈ p.references bound
    simp [mem_referencesAll, exists_part_iff]
  | record s fs =>
    change r ∈ referencesFields fs bound ↔
      r ∈ [] ∨ ∃ (i : Nat) (p : Expr), (fs.map (·.2))[i]? = some p ∧ r ∈ p.references bound
    rw [mem_referencesFields, exists_part_iff]
    simp only [List.not_mem_nil, false_or, List.mem_map, exists_exists_and_eq_and]
  | _ =>
    simp only [ownReferences, parts, references, exists_part_cons, exists_part_nil, taken,
      List.mem_append, List.not_mem_nil, List.nil_append, List.cons_append, false_or, or_false]

theorem exists_reference {P : Reference → Prop} : (∃ r ∈ e.references bound, P r) ↔
    (∃ r ∈ e.ownReferences bound, P r) ∨ ∃ (i : Nat) (p : Expr), e.parts[i]? = some p ∧
      ∃ r ∈ p.references (e.taken i ++ bound), P r := by
  constructor
  · intro ⟨r, hr, hP⟩
    rcases mem_references.mp hr with hr | ⟨i, p, hp, hr⟩
    · exact .inl ⟨r, hr, hP⟩
    · exact .inr ⟨i, p, hp, r, hr, hP⟩
  · rintro (⟨r, hr, hP⟩ | ⟨i, p, hp, r, hr, hP⟩)
    · exact ⟨r, mem_references.mpr (.inl hr), hP⟩
    · exact ⟨r, mem_references.mpr (.inr ⟨i, p, hp, hr⟩), hP⟩

-- Binders around an expression only hide names of theirs from what looks for references.
theorem exists_reference_append {P : Reference → Prop} {taken : List String}
    (names : ∀ y ∈ bound, ¬ P (.name y)) (frames : ∀ xs b b', P (.frame xs b) → P (.frame xs b')) :
    (∃ r ∈ e.references (taken ++ bound), P r) ↔ ∃ r ∈ e.references taken, P r := by
  induction e using of_parts generalizing taken with
  | step e ih =>
    have own : (∃ r ∈ e.ownReferences (taken ++ bound), P r) ↔
        ∃ r ∈ e.ownReferences taken, P r := by
      cases e with
      | name s x =>
        by_cases ht : x ∈ taken
        · simp [ownReferences, references, ht]
        · by_cases hb : x ∈ bound
          · simp [ownReferences, references, ht, hb, names x hb]
          · simp [ownReferences, references, ht, hb]
      | unchanged s xs =>
        simp only [ownReferences, references, List.mem_singleton, exists_eq_left]
        exact ⟨frames xs _ _, frames xs _ _⟩
      | _ => rfl
    rw [exists_reference, exists_reference, own]
    refine or_congr_right (exists₂_congr fun i p => and_congr_right fun hp => ?_)
    rw [← List.append_assoc]
    exact ih p (List.mem_of_getElem? hp)

-- What is referred to by name is not taken by the binders around the expression.
theorem not_mem_of_name_mem {y : String} (h : .name y ∈ e.references bound) : y ∉ bound := by
  induction e using of_parts generalizing bound with
  | step e ih =>
    rcases mem_references.mp h with hown | ⟨i, p, hp, hr⟩
    · cases e with
      | name s x =>
        by_cases hx : x ∈ bound
        · simp [ownReferences, references, hx] at hown
        · simp only [ownReferences, references, List.contains_eq_mem, hx, decide_false,
            Bool.false_eq_true, if_false, List.mem_singleton, Reference.name.injEq] at hown
          exact hown ▸ hx
      | _ => simp [ownReferences, references] at hown
    · exact fun hb => ih p (List.mem_of_getElem? hp) hr (List.mem_append_right _ hb)

theorem name_mem_references {y : String} :
    .name y ∈ e.references bound ↔ .name y ∈ e.references [] ∧ y ∉ bound := by
  have hiff (hy : y ∉ bound) : (∃ r ∈ e.references ([] ++ bound), r = .name y) ↔
      ∃ r ∈ e.references [], r = .name y :=
    exists_reference_append (fun z hz heq => hy (Reference.name.inj heq ▸ hz)) (by simp)
  simp only [List.nil_append, exists_eq_right] at hiff
  constructor
  · intro h
    have hy := not_mem_of_name_mem h
    exact ⟨(hiff hy).mp h, hy⟩
  · intro ⟨h, hy⟩
    exact (hiff hy).mpr h

-- Binders do not take primed names.
theorem mem_namesIn_primed {x : String} (h : x ∈ e.namesIn .primed bound) (bound' : List String) :
    x ∈ e.namesIn .primed bound' := by
  have hiff (b : List String) : (∃ r ∈ e.references ([] ++ b), x ∈ r.names .primed) ↔
      ∃ r ∈ e.references [], x ∈ r.names .primed :=
    exists_reference_append (by simp [Reference.names]) fun _ _ _ h => h
  exact mem_namesIn.mpr ((hiff bound').mpr ((hiff bound).mp (mem_namesIn.mp h)))

/-- What is found among the references of an expression is found among those of its parts. -/
theorem exists_reference_withParts {P : Reference → Prop}
    (h : e.Paired (fun b p q => (∃ r ∈ p.references (b ++ bound), P r) ↔
      ∃ r ∈ q.references (b ++ bound), P r) ps) :
    (∃ r ∈ e.references bound, P r) ↔ ∃ r ∈ (e.withParts ps).references bound, P r := by
  rw [exists_reference, exists_reference, parts_withParts h.length, ownReferences_withParts]
  simp only [taken_withParts]
  refine or_congr_right ⟨?_, ?_⟩
  · intro ⟨i, p, hp, hr⟩
    have hi : i < ps.length := h.length ▸ (List.getElem?_eq_some_iff.mp hp).1
    have hq : ps[i]? = some ps[i] := List.getElem?_eq_getElem hi
    exact ⟨i, _, hq, (h.rel hp hq).mp hr⟩
  · intro ⟨i, q, hq, hr⟩
    have hi : i < e.parts.length := h.length ▸ (List.getElem?_eq_some_iff.mp hq).1
    have hp : e.parts[i]? = some e.parts[i] := List.getElem?_eq_getElem hi
    exact ⟨i, _, hp, (h.rel hp hq).mpr hr⟩

end Expr

/-! ## Contexts with binders -/

namespace Context

variable {c : Context} {e : Expr} {bound : List String}

theorem resolves_eq_false_iff :
    c.resolves e bound = false ↔ ∃ r ∈ e.references bound, c.settles r = false := by
  rw [resolves, List.all_eq_false]
  simp

-- Names that are taken in the context may as well be taken by binders.
theorem resolves_append (h : ∀ y ∈ bound, c.isLocal y = true) :
    c.resolves e bound = c.resolves e [] := by
  have hiff : (∃ r ∈ e.references ([] ++ bound), c.settles r = false) ↔
      ∃ r ∈ e.references [], c.settles r = false :=
    Expr.exists_reference_append (fun y hy => by simp [settles, h y hy]) fun xs b b' h => h
  rw [Bool.eq_iff_iff, ← not_iff_not, Bool.not_eq_true, Bool.not_eq_true, resolves_eq_false_iff,
    resolves_eq_false_iff]
  exact hiff

end Context

theorem Unknown.isMentioned_append {u : Unknown} {c : Context} {e : Expr} {bound : List String}
    (h : ∀ y ∈ bound, c.isLocal y = true) :
    (e.references bound).any (u.isAmong c) = u.isMentioned c e := by
  have hiff : (∃ r ∈ e.references ([] ++ bound), u.isAmong c r = true) ↔
      ∃ r ∈ e.references [], u.isAmong c r = true :=
    Expr.exists_reference_append (fun y hy => by simp [isAmong, h y hy]) fun xs b b' h => h
  rw [Bool.eq_iff_iff, isMentioned, List.any_eq_true, List.any_eq_true]
  exact hiff

/-! ## Evaluation -/

namespace Expr

section

variable {firm : Prop} {c : Context} {e : Expr} {ps : List Expr}

theorem matches_evalAll {es : List Expr}
    (h : List.Forall₂ (fun p q => Matches firm Eq (p.eval c) (q.eval c)) es ps) :
    Matches firm Eq (evalAll es c) (evalAll ps c) := by
  induction h with
  | nil => exact .refl _
  | cons hp _ ih => exact .bind_eq hp fun v => .bind_eq ih fun vs => .refl _

theorem matches_evalFields {fs : List (String × Expr)}
    (h : List.Forall₂ (fun p q => Matches firm Eq (p.eval c) (q.eval c)) (fs.map (·.2)) ps) :
    Matches firm Eq (evalFields fs c) (evalFields ((fs.map (·.1)).zip ps) c) := by
  induction fs generalizing ps with
  | nil => exact .refl _
  | cons f fs ih =>
    cases h with
    | cons hp hps => exact .bind_eq hp fun v => .bind_eq (ih hps) fun vs => .refl _

theorem matches_domain {d d' : Expr} (h : Matches firm Eq (d.eval c) (d'.eval c)) :
    Matches firm Eq (d.domain c) (d'.domain c) :=
  .bind_eq h fun v => v.matches_domainElements

theorem matches_holds {d d' : Expr} (h : Matches firm Eq (d.eval c) (d'.eval c)) :
    Matches firm Eq (d.holds c) (d'.holds c) :=
  .bind_eq h fun v => v.matches_truth

/-- An expression evaluates to what it evaluates to with other parts that evaluate to the same. -/
theorem matches_eval_withParts
    (h : e.Paired (fun _ p q => ∀ c, Matches firm Eq (p.eval c) (q.eval c)) ps) :
    Matches firm Eq (e.eval c) ((e.withParts ps).eval c) := by
  replace h := h.forall₂
  cases e with
  | literal s l | name s x | primed s x | unchanged s xs => exact .refl _
  | set s es | seq s es =>
    exact .bind_eq (matches_evalAll (h.imp fun _ _ hpq => hpq c)) fun vs => .refl _
  | record s fs =>
    exact .bind_eq (matches_evalFields (h.imp fun _ _ hpq => hpq c)) fun vs => .refl _
  | unary s op e | field s e x =>
    match h with
    | .cons he .nil => exact .bind_eq (he c) fun v => .refl _
  | binary s op l r | apply s l r | append s l r =>
    match h with
    | .cons hl (.cons hr .nil) => exact .bind_eq (hl c) fun v => .bind_eq (hr c) fun w => .refl _
  | logical s op l r =>
    match h with
    | .cons hl (.cons hr .nil) =>
      refine .bind_eq (hl c) fun v => .bind_eq (Fault.matches_at _) fun p => ?_
      cases op.decided? p with
      | some b => exact .refl _
      | none => exact .bind_eq (hr c) fun w => .bind_eq (Fault.matches_at _) fun q => .refl _
  | range s l r =>
    match h with
    | .cons hl (.cons hr .nil) =>
      exact .bind_eq (hl c) fun v => .bind_eq (.refl _) fun m => .bind_eq (hr c) fun w => .refl _
  | bind s b x d body =>
    match h with
    | .cons hd (.cons hbody .nil) =>
      exact .bind_eq (hd c) fun v => .bind_eq v.matches_domainElements fun items =>
        b.matches_gather fun w _ => hbody (c.bind x w)
  | letIn s x v body =>
    match h with
    | .cons hv (.cons hbody .nil) => exact .bind_eq (hv c) fun w => hbody (c.bind x w)
  | except s f k v =>
    match h with
    | .cons hf (.cons hk (.cons hv .nil)) =>
      exact .bind_eq (hf c) fun f => .bind_eq (hk c) fun k => .bind_eq (hv c) fun v => .refl _
  | ite s p y n =>
    match h with
    | .cons hp (.cons hy (.cons hn .nil)) =>
      refine .bind_eq (hp c) fun v => .bind_eq (Fault.matches_at _) fun b => ?_
      cases b with
      | true => exact hy c
      | false => exact hn c

end

end Expr

end ActionSystem
