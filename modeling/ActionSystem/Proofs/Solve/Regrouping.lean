import ActionSystem.Proofs.Eval.Regrouping
import ActionSystem.Proofs.Solve.Commitment

/-!
# Solutions of regrouped relations

A regrouped relation has the same solutions.
-/

namespace ActionSystem

namespace Expr

variable {e e' : Expr} {ps : List Expr} {x : String} {s : Span}

theorem parts_withSpan : (e.withSpan s).parts = e.parts := by
  cases e <;> rfl

/-! ## What is found somewhere in an expression -/

/-- An expression has the property if it has it by itself or a part of it has it. Places,
connectives and equations do not bring it in. -/
structure Inherits (own P : Expr → Prop) : Prop where
  iff : ∀ e, P e ↔ own e ∨ ∃ p ∈ e.parts, P p
  own_withParts : ∀ e ps, own (e.withParts ps) ↔ own e
  own_withSpan : ∀ s e, own (e.withSpan s) ↔ own e
  not_logical : ∀ s op l r, ¬ own (logical s op l r)
  not_eq : ∀ s l r, ¬ own (binary s .eq l r)

theorem Inherits.regroups {own P : Expr → Prop} (h : Inherits own P) (step : Regroups e e') :
    P e ↔ P e' := by
  have logical_iff : ∀ {s op l r}, P (logical s op l r) ↔ P l ∨ P r := by
    intro s op l r
    simp [h.iff (logical s op l r), h.not_logical, parts]
  have eq_iff : ∀ {s l r}, P (binary s .eq l r) ↔ P l ∨ P r := by
    intro s l r
    simp [h.iff (binary s .eq l r), h.not_eq, parts]
  induction step with
  | commute _ => rw [logical_iff, logical_iff, or_comm]
  | associate _ => rw [logical_iff, logical_iff, logical_iff, logical_iff, or_assoc]
  | swap => rw [eq_iff, eq_iff, or_comm]
  | @move e s => rw [h.iff e, h.iff (e.withSpan s), h.own_withSpan, parts_withSpan]
  | @inside e p q i part _ ih =>
    have hmap : (e.parts.set i q).map P = e.parts.map P := map_set_eq part (propext ih)
    have mem_map : ∀ ps : List Expr, (∃ p ∈ ps, P p) ↔ True ∈ ps.map P := by
      intro ps
      simp
    rw [h.iff e, h.iff (e.withParts _), h.own_withParts,
      parts_withParts (List.length_set ..), mem_map e.parts, mem_map (e.parts.set i q), hmap]

def takes (x : String) : Expr → Prop
  | bind _ _ y _ _ | letIn _ y _ _ => y = x
  | _ => False

theorem inherits_binders (x : String) : Inherits (takes x) (x ∈ ·.binders) where
  iff e := by
    cases e with
    | literal s l | name s y | primed s y | unchanged s ys => simp [binders, takes, parts]
    | set s es | seq s es => simp [binders, takes, parts, mem_bindersAll]
    | record s fs =>
      simp only [binders, takes, parts, mem_bindersFields, false_or, List.mem_map,
        exists_exists_and_eq_and]
    | bind s b y d e | letIn s y d e => simp [binders, takes, parts, eq_comm]
    | _ => simp [binders, takes, parts]
  own_withParts e ps := by
    unfold withParts
    split <;> rfl
  own_withSpan s e := by cases e <;> rfl
  not_logical _ _ _ _ := id
  not_eq _ _ _ := id

def refersNext (x : String) : Expr → Prop
  | primed _ y => y = x
  | unchanged _ ys => x ∈ ys
  | _ => False

theorem inherits_namesIn (x : String) : Inherits (refersNext x) (x ∈ ·.namesIn .primed []) where
  iff e := by
    constructor
    · intro h
      cases e with
      | literal s l => cases h
      | name s y => simp [namesIn, references, Reference.names] at h
      | primed s y => exact .inl (List.mem_singleton.mp h).symm
      | unchanged s ys =>
        left
        simpa [namesIn, references, Reference.names, refersNext] using h
      | unary s op e | field s e y => exact .inr ⟨e, by simp [parts], h⟩
      | set s es | seq s es =>
        obtain ⟨r, hr, hx⟩ := mem_namesIn.mp h
        obtain ⟨e, he, hre⟩ := mem_referencesAll.mp hr
        exact .inr ⟨e, he, mem_namesIn.mpr ⟨r, hre, hx⟩⟩
      | record s fs =>
        obtain ⟨r, hr, hx⟩ := mem_namesIn.mp h
        obtain ⟨f, hf, hrf⟩ := mem_referencesFields.mp hr
        exact .inr ⟨f.2, List.mem_map_of_mem hf, mem_namesIn.mpr ⟨r, hrf, hx⟩⟩
      | logical s op l r | binary s op l r | range s l r | apply s l r | append s l r =>
        simp only [namesIn, references, List.flatMap_append, List.mem_append] at h
        rcases h with h | h
        · exact .inr ⟨l, by simp [parts], h⟩
        · exact .inr ⟨r, by simp [parts], h⟩
      | except s f k v | ite s f k v =>
        simp only [namesIn, references, List.flatMap_append, List.mem_append] at h
        rcases h with h | h | h
        · exact .inr ⟨f, by simp [parts], h⟩
        · exact .inr ⟨k, by simp [parts], h⟩
        · exact .inr ⟨v, by simp [parts], h⟩
      | bind s b y d e | letIn s y d e =>
        simp only [namesIn, references, List.flatMap_append, List.mem_append] at h
        rcases h with h | h
        · exact .inr ⟨d, by simp [parts], h⟩
        · exact .inr ⟨e, by simp [parts], mem_namesIn_primed h []⟩
    · intro h
      rcases h with h | ⟨p, hp, h⟩
      · cases e with
        | primed s y => exact List.mem_singleton.mpr h.symm
        | unchanged s ys => simpa [namesIn, references, Reference.names, refersNext] using h
        | _ => exact h.elim
      · exact mem_namesIn_of_part hp h
  own_withParts e ps := by
    unfold withParts
    split <;> rfl
  own_withSpan s e := by cases e <;> rfl
  not_logical _ _ _ _ := id
  not_eq _ _ _ := id

/-! ## What becomes of a variable -/

theorem isNext_withParts : (e.withParts ps).isNext x = e.isNext x := by
  unfold withParts
  split <;> rfl

theorem Regroups.isNext_eq (h : Regroups e e') : e.isNext x = e'.isNext x := by
  cases h with
  | commute _ | associate _ | swap => rfl
  | @move e s => cases e <;> rfl
  | inside part _ => exact isNext_withParts.symm

theorem settlesNext_withSpan : (e.withSpan s).settlesNext x = e.settlesNext x := by
  cases e with
  | logical s op l r => cases op <;> rfl
  | binary s op l r => cases op <;> rfl
  | bind s b y d e => cases b <;> rfl
  | _ => rfl

theorem settlesNext_withParts (hnext : ps.map (isNext x) = e.parts.map (isNext x))
    (hsettles : ps.map (settlesNext x) = e.parts.map (settlesNext x)) :
    (e.withParts ps).settlesNext x = e.settlesNext x := by
  have hlength : ps.length = e.parts.length := by simpa using congrArg List.length hnext
  cases e with
  | literal s l | name s y | primed s y | unchanged s ys | set s es | seq s es | record s fs => rfl
  | unary s op e | field s e y =>
    obtain ⟨p, rfl⟩ := List.length_eq_one_iff.mp hlength
    rfl
  | range s l r | apply s l r | append s l r =>
    obtain ⟨p, q, rfl⟩ := List.length_eq_two.mp hlength
    rfl
  | except s f k v =>
    obtain ⟨p, q, r, rfl⟩ := List.length_eq_three.mp hlength
    rfl
  | logical s op l r =>
    obtain ⟨p, q, rfl⟩ := List.length_eq_two.mp hlength
    simp only [parts, List.map_cons, List.map_nil, List.cons.injEq, and_true] at hsettles
    cases op <;> simp [withParts, settlesNext, hsettles]
  | binary s op l r =>
    obtain ⟨p, q, rfl⟩ := List.length_eq_two.mp hlength
    simp only [parts, List.map_cons, List.map_nil, List.cons.injEq, and_true] at hnext
    cases op <;> simp [withParts, settlesNext, hnext]
  | bind s b y d e =>
    obtain ⟨p, q, rfl⟩ := List.length_eq_two.mp hlength
    simp only [parts, List.map_cons, List.map_nil, List.cons.injEq, and_true] at hsettles
    cases b <;> simp [withParts, settlesNext, hsettles]
  | letIn s y v e =>
    obtain ⟨p, q, rfl⟩ := List.length_eq_two.mp hlength
    simp only [parts, List.map_cons, List.map_nil, List.cons.injEq, and_true] at hsettles
    simp [withParts, settlesNext, hsettles]
  | ite s c y n =>
    obtain ⟨p, q, r, rfl⟩ := List.length_eq_three.mp hlength
    simp only [parts, List.map_cons, List.map_nil, List.cons.injEq, and_true] at hsettles
    simp [withParts, settlesNext, hsettles]

theorem Regroups.settlesNext_eq (h : Regroups e e') : e.settlesNext x = e'.settlesNext x := by
  induction h with
  | @commute s t op l r h => cases op <;> simp [settlesNext, Bool.or_comm, Bool.and_comm] at h ⊢
  | @associate s₁ s₂ t₁ t₂ op a b d h =>
    cases op <;> simp [settlesNext, Bool.or_assoc, Bool.and_assoc] at h ⊢
  | swap => simp [settlesNext, Bool.or_comm]
  | move => exact settlesNext_withSpan.symm
  | inside part regroups ih =>
    exact (settlesNext_withParts (map_set_eq part regroups.isNext_eq) (map_set_eq part ih)).symm

theorem isBalanced_withSpan : (e.withSpan s).isBalanced x = e.isBalanced x := by
  cases e with
  | logical s op l r => cases op <;> rfl
  | bind s b y d e => cases b <;> rfl
  | _ => rfl

theorem isBalanced_withParts
    (hnames : ps.map (x ∈ ·.namesIn .primed []) = e.parts.map (x ∈ ·.namesIn .primed []))
    (hsettles : ps.map (settlesNext x) = e.parts.map (settlesNext x))
    (hbalanced : ps.map (isBalanced x) = e.parts.map (isBalanced x)) :
    (e.withParts ps).isBalanced x = e.isBalanced x := by
  have hlength : ps.length = e.parts.length := by simpa using congrArg List.length hnames
  cases e with
  | literal s l | name s y | primed s y | unchanged s ys | set s es | seq s es | record s fs => rfl
  | unary s op e | field s e y =>
    obtain ⟨p, rfl⟩ := List.length_eq_one_iff.mp hlength
    rfl
  | range s l r | apply s l r | append s l r | binary s op l r =>
    obtain ⟨p, q, rfl⟩ := List.length_eq_two.mp hlength
    rfl
  | except s f k v =>
    obtain ⟨p, q, r, rfl⟩ := List.length_eq_three.mp hlength
    rfl
  | logical s op l r =>
    obtain ⟨p, q, rfl⟩ := List.length_eq_two.mp hlength
    simp only [parts, List.map_cons, List.map_nil, List.cons.injEq, and_true, eq_iff_iff] at *
    cases op <;> simp [withParts, isBalanced, isEven, alternatives, settlesNext, *]
  | bind s b y d e =>
    obtain ⟨p, q, rfl⟩ := List.length_eq_two.mp hlength
    simp only [parts, List.map_cons, List.map_nil, List.cons.injEq, and_true, eq_iff_iff] at *
    cases b <;> simp [withParts, isBalanced, isEven, alternatives, settlesNext, *]
  | letIn s y v e =>
    obtain ⟨p, q, rfl⟩ := List.length_eq_two.mp hlength
    simp only [parts, List.map_cons, List.map_nil, List.cons.injEq, and_true] at hbalanced
    simp [withParts, isBalanced, hbalanced]
  | ite s c y n =>
    obtain ⟨p, q, r, rfl⟩ := List.length_eq_three.mp hlength
    simp only [parts, List.map_cons, List.map_nil, List.cons.injEq, and_true, eq_iff_iff] at *
    simp [withParts, isBalanced, isEven, alternatives, settlesNext, *]

theorem mem_namesIn_logical {op : Connective} {l r : Expr} {bound : List String} :
    x ∈ (logical s op l r).namesIn .primed bound ↔
      x ∈ l.namesIn .primed bound ∨ x ∈ r.namesIn .primed bound := by
  simp only [namesIn, references, List.flatMap_append, List.mem_append]

theorem isBalanced_and {l r : Expr} : (logical s .and l r).isBalanced x = true ↔
    l.isBalanced x = true ∧ r.isBalanced x = true := by
  simp [isBalanced, isEven, alternatives]

theorem isBalanced_or {l r : Expr} : (logical s .or l r).isBalanced x = true ↔
    (x ∉ l.namesIn .primed [] ∧ x ∉ r.namesIn .primed [] ∨
        l.settlesNext x = true ∧ r.settlesNext x = true) ∧
      l.isBalanced x = true ∧ r.isBalanced x = true := by
  simp [isBalanced, isEven, alternatives, settlesNext, and_assoc]

theorem Regroups.isBalanced_eq (h : Regroups e e') : e.isBalanced x = e'.isBalanced x := by
  induction h with
  | @commute s t op l r h =>
    rw [Bool.eq_iff_iff]
    cases op with
    | and => rw [isBalanced_and, isBalanced_and, and_comm]
    | or =>
      simp only [isBalanced_or]
      tauto
    | implies => exact absurd rfl h
  | @associate s₁ s₂ t₁ t₂ op a b d h =>
    rw [Bool.eq_iff_iff]
    cases op with
    | and => simp only [isBalanced_and, and_assoc]
    | or =>
      -- either no alternative mentions the variable, or all of them settle it
      simp only [isBalanced_or, mem_namesIn_logical, settlesNext, Bool.and_eq_true]
      tauto
    | implies => exact absurd rfl h
  | swap => rfl
  | move => exact isBalanced_withSpan.symm
  | inside part regroups ih =>
    have hnames := propext ((inherits_namesIn x).regroups regroups)
    exact (isBalanced_withParts (map_set_eq part hnames)
      (map_set_eq part regroups.settlesNext_eq) (map_set_eq part ih)).symm

theorem commits_withSpan : (e.withSpan s).Commits x = e.Commits x := by
  cases e with
  | logical s op l r => cases op <;> rfl
  | binary s op l r => cases op <;> rfl
  | bind s b y d e => cases b <;> rfl
  | _ => rfl

theorem commits_withParts (hmeaning : ps.map meaning = e.parts.map meaning)
    (hnext : ps.map (isNext x) = e.parts.map (isNext x))
    (hsettles : ps.map (settlesNext x) = e.parts.map (settlesNext x))
    (hcommits : ps.map (Commits x) = e.parts.map (Commits x)) :
    (e.withParts ps).Commits x = e.Commits x := by
  have hsettled : ((e.withParts ps).settlesNext x = true) = (e.settlesNext x = true) := by
    rw [settlesNext_withParts hnext hsettles]
  have hlength : ps.length = e.parts.length := by simpa using congrArg List.length hnext
  funext c
  cases e with
  | literal s l | name s y | primed s y | unchanged s ys | set s es | seq s es | record s fs =>
    exact hsettled
  | unary s op e | field s e y =>
    obtain ⟨p, rfl⟩ := List.length_eq_one_iff.mp hlength
    exact hsettled
  | range s l r | apply s l r | append s l r | binary s op l r =>
    obtain ⟨p, q, rfl⟩ := List.length_eq_two.mp hlength
    exact hsettled
  | except s f k v =>
    obtain ⟨p, q, r, rfl⟩ := List.length_eq_three.mp hlength
    exact hsettled
  | logical s op l r =>
    obtain ⟨p, q, rfl⟩ := List.length_eq_two.mp hlength
    simp only [parts, List.map_cons, List.map_nil, List.cons.injEq, and_true] at hmeaning hcommits
    cases op with
    | and => simp only [withParts, Commits, hcommits]
    | or => exact hsettled
    | implies => simp only [withParts, Commits, Means, hmeaning, hcommits]
  | bind s b y d e =>
    obtain ⟨p, q, rfl⟩ := List.length_eq_two.mp hlength
    simp only [parts, List.map_cons, List.map_nil, List.cons.injEq, and_true] at hmeaning hcommits
    cases b with
    | all => simp only [withParts, Commits, items?, hmeaning, hcommits]
    | _ => exact hsettled
  | letIn s y v e =>
    obtain ⟨p, q, rfl⟩ := List.length_eq_two.mp hlength
    simp only [parts, List.map_cons, List.map_nil, List.cons.injEq, and_true] at hmeaning hcommits
    simp only [withParts, Commits, hmeaning, hcommits]
  | ite s b y n =>
    obtain ⟨p, q, r, rfl⟩ := List.length_eq_three.mp hlength
    simp only [parts, List.map_cons, List.map_nil, List.cons.injEq, and_true] at hmeaning hcommits
    simp only [withParts] at hsettled
    simp only [withParts, Commits, Means, hmeaning, hcommits, hsettled]

theorem Regroups.commits_eq (h : Regroups e e') : e.Commits x = e'.Commits x := by
  induction h with
  | @commute s t op l r h =>
    funext c
    cases op with
    | and => exact propext or_comm
    | or =>
      show (_ = true) = (_ = true)
      rw [(Regroups.commute h).settlesNext_eq]
    | implies => exact absurd rfl h
  | @associate s₁ s₂ t₁ t₂ op a b d h =>
    funext c
    cases op with
    | and => exact propext or_assoc
    | or =>
      show (_ = true) = (_ = true)
      rw [(Regroups.associate h).settlesNext_eq]
    | implies => exact absurd rfl h
  | swap =>
    funext c
    show (_ = true) = (_ = true)
    rw [Regroups.swap.settlesNext_eq]
  | move => exact commits_withSpan.symm
  | inside part regroups ih =>
    exact (commits_withParts (map_set_eq part regroups.meaning_eq)
      (map_set_eq part regroups.isNext_eq) (map_set_eq part regroups.settlesNext_eq)
      (map_set_eq part ih)).symm

/-- A regrouped action commits itself to the same variables. -/
theorem Regrouped.commits_eq (h : e.Regrouped e') : e.Commits x = e'.Commits x :=
  h.eq_of_step fun h => h.commits_eq

theorem Regrouped.uniform {vars : List String} (h : e.Regrouped e') (uniform : e.Uniform vars) :
    e'.Uniform vars where
  fresh x hx := by
    have hbinders : (x ∈ e.binders) = (x ∈ e'.binders) :=
      Regrouped.eq_of_step h fun step => propext ((inherits_binders x).regroups step)
    rw [← hbinders]
    exact uniform.fresh x hx
  balanced x hx := by
    rw [← h.eq_of_step fun step => step.isBalanced_eq]
    exact uniform.balanced x hx

end Expr

/-! ## Solutions -/

namespace Relation

variable {r r' : Relation} {env : Env} {current : List Value} {s : State}
  {states states' : List State}

/-- What is found for a relation is found for the regrouped relation. -/
theorem mem_states_of_regrouped (hform : r.form = r'.form) (regrouped : r.body.Regrouped r'.body)
    (nodup : env.vars.Nodup) (uniform : r.form = .primed → r.body.Uniform env.vars)
    (ordered : r.IsOrdered env) (ordered' : r'.IsOrdered env)
    (h : r.states env current = .ok states) (h' : r'.states env current = .ok states')
    (hs : s ∈ states) : s ∈ states' := by
  have htotal : r.totalContext env current s.values = r'.totalContext env current s.values := by
    unfold totalContext
    rw [hform]
  have same : (r.totalContext env current s.values).Same
      (r'.totalContext env current s.values) := by
    rw [htotal]
    exact fun x => ⟨rfl, rfl⟩
  have uniform' : r'.form = .primed → r'.body.Uniform env.vars := fun hprimed =>
    regrouped.uniform (uniform (hform.trans hprimed))
  apply mem_states_of_commits hform (.refl _) nodup uniform uniform' ordered ordered' h h'
    (length_of_mem_states ordered h hs) same _ _ hs
  · rw [regrouped.meaning_eq, htotal]
  · intro x hcommits
    rw [← regrouped.commits_eq, ← htotal]
    exact hcommits

/-- A relation and the regrouped relation have the same solutions. -/
theorem states_eq_of_regrouped (hform : r.form = r'.form) (regrouped : r.body.Regrouped r'.body)
    (nodup : env.vars.Nodup) (uniform : r.form = .primed → r.body.Uniform env.vars)
    (ordered : r.IsOrdered env) (ordered' : r'.IsOrdered env)
    (h : r.states env current = .ok states) (h' : r'.states env current = .ok states') :
    states = states' := by
  refine Sorted.eq_of_increasing (increasing_states h) (increasing_states h') fun s => ⟨?_, ?_⟩
  · exact mem_states_of_regrouped hform regrouped nodup uniform ordered ordered' h h'
  · have back : r'.body.Regrouped r.body := regrouped.symm
    have uniform' : r'.form = .primed → r'.body.Uniform env.vars := fun hprimed =>
      regrouped.uniform (uniform (hform.trans hprimed))
    exact mem_states_of_regrouped hform.symm back nodup uniform' ordered' ordered h' h

end Relation

namespace Model

variable {spec : Spec} {constants : List Value}

/-- The initial states under a regrouped initial predicate are the same, and so are the successors
under a regrouped action that treats every variable alike in all alternatives of a choice. -/
theorem states_eq_of_regrouped_body (nodup : spec.variableNames.Nodup) :
    (∀ init states states', spec.init.Regrouped init →
      (ofSpec spec constants).initialStates = .ok states →
      (ofSpec { spec with init } constants).initialStates = .ok states' → states = states') ∧
    ∀ (action : Nat) d body (s : State) states states', spec.actions[action]? = some d →
      d.body.Regrouped body → d.body.Uniform spec.variableNames →
      (ofSpec spec constants).successors action s = .ok states →
      (ofSpec { spec with actions := spec.actions.set action { d with body } }
        constants).successors action s = .ok states' → states = states' := by
  let env := (ofSpec spec constants).env
  constructor
  · intro init states states' regrouped h h'
    have hform : (Relation.initial spec.init env.vars).form =
        (Relation.initial init env.vars).form := rfl
    have unprimed : (Relation.initial spec.init env.vars).form ≠ .primed := by
      simp [Relation.initial]
    exact Relation.states_eq_of_regrouped hform regrouped nodup (absurd · unprimed)
      (Relation.isOrdered_initial spec.init env) (Relation.isOrdered_initial init env) h h'
  · intro action d body s states states' hd regrouped uniform h h'
    have hform : (Relation.action d.name d.body env.vars).form =
        (Relation.action d.name body env.vars).form := rfl
    rw [successors_eq hd] at h
    rw [successors_set_eq hd] at h'
    exact Relation.states_eq_of_regrouped hform regrouped nodup (fun _ => uniform)
      (Relation.isOrdered_action d.name d.body env) (Relation.isOrdered_action d.name body env) h h'

/-- The predicate `(0 = z /\ x \in 0..1) /\ (2 = y \/ y = x)`, which is `start` regrouped -/
def restart : Expr :=
  .logical .none .and
    (.logical .none .and
      (.binary .none .eq (.literal .none (.int 0)) (.name .none "z"))
      (.binary .none .mem (.name .none "x")
        (.range .none (.literal .none (.int 0)) (.literal .none (.int 1)))))
    (.logical .none .or (.binary .none .eq (.literal .none (.int 2)) (.name .none "y"))
      (.binary .none .eq (.name .none "y") (.name .none "x")))

/-- The action `(0 = y' \/ y' = x) /\ (\E k \in 1..2 : x' = k)`, which is `draw` regrouped -/
def redraw : Expr :=
  .logical .none .and
    (.logical .none .or (.binary .none .eq (.literal .none (.int 0)) (.primed .none "y"))
      (.binary .none .eq (.primed .none "y") (.name .none "x")))
    (.bind .none .any "k"
      (.range .none (.literal .none (.int 1)) (.literal .none (.int 2)))
      (.binary .none .eq (.primed .none "x") (.name .none "k")))

theorem regrouped_restart : start.Regrouped restart := by
  have hand : Connective.and ≠ .implies := by decide
  have hor : Connective.or ≠ .implies := by decide
  -- the last condition comes first, with its sides swapped, and so do the alternatives
  refine .trans (.right (.comm hand)) (.trans (.symm (.assoc hand)) ?_)
  refine .trans (.left (.trans (.comm hand) (.left .swap))) ?_
  exact .right (.trans (.comm hor) (.left .swap))

theorem regrouped_redraw : draw.Regrouped redraw := by
  refine .trans (.comm (by decide)) (.left ?_)
  exact .trans (.comm (by decide)) (.left .swap)

theorem states_eq_of_regrouped_body_drawing :
    let s : State := ⟨[.int 1, .int 1, .int 0]⟩
    let init' : Spec := { drawing with init := restart }
    let next' : Spec := { drawing with actions := [⟨"Draw", redraw, draw.span⟩] }
    ∃ starts starts' nexts nexts', start.Regrouped restart ∧
      (ofSpec drawing []).initialStates = .ok starts ∧
      (ofSpec init' []).initialStates = .ok starts' ∧ starts = starts' ∧ starts.length = 4 ∧
      draw.Regrouped redraw ∧ draw.Uniform drawing.variableNames ∧
      (ofSpec drawing []).successors 0 s = .ok nexts ∧
      (ofSpec next' []).successors 0 s = .ok nexts' ∧ nexts = nexts' ∧ nexts.length = 4 := by
  intro s init' next'
  let starts : List State := [⟨[.int 0, .int 0, .int 0]⟩, ⟨[.int 0, .int 2, .int 0]⟩,
    ⟨[.int 1, .int 1, .int 0]⟩, ⟨[.int 1, .int 2, .int 0]⟩]
  let nexts : List State := [⟨[.int 1, .int 0, .int 0]⟩, ⟨[.int 1, .int 1, .int 0]⟩,
    ⟨[.int 2, .int 0, .int 0]⟩, ⟨[.int 2, .int 1, .int 0]⟩]
  have hs : (ofSpec drawing []).initialStates = .ok starts := by cbv
  have hs' : (ofSpec init' []).initialStates = .ok starts := by cbv
  have hn : (ofSpec drawing []).successors 0 s = .ok nexts := by cbv
  have hn' : (ofSpec next' []).successors 0 s = .ok nexts := by cbv
  have hd : drawing.actions[0]? = some ⟨"Draw", draw, draw.span⟩ := rfl
  obtain ⟨initial, step⟩ := @states_eq_of_regrouped_body drawing [] (by decide)
  exact ⟨starts, starts, nexts, nexts, regrouped_restart, hs, hs',
    initial _ _ _ regrouped_restart hs hs', rfl, regrouped_redraw, framed_draw.uniform, hn, hn',
    step 0 _ _ s _ _ hd regrouped_redraw framed_draw.uniform hn hn', rfl⟩

/-- The action `((FALSE /\ y' = 1) /\ x' = 2) \/ y' = 3` -/
def barred : Expr :=
  .logical .none .or
    (.logical .none .and
      (.logical .none .and (.truth false)
        (.binary .none .eq (.primed .none "y") (.literal .none (.int 1))))
      (.binary .none .eq (.primed .none "x") (.literal .none (.int 2))))
    (.binary .none .eq (.primed .none "y") (.literal .none (.int 3)))

/-- The action `(FALSE /\ (y' = 1 /\ x' = 2)) \/ y' = 3` -/
def barredWhole : Expr :=
  .logical .none .or
    (.logical .none .and (.truth false)
      (.logical .none .and
        (.binary .none .eq (.primed .none "y") (.literal .none (.int 1)))
        (.binary .none .eq (.primed .none "x") (.literal .none (.int 2)))))
    (.binary .none .eq (.primed .none "y") (.literal .none (.int 3)))

/-- Two variables, one of which the action leaves alone in its only alternative that can be
taken. -/
def barring (body : Expr) : Spec where
  name := "Barring"
  vars := [⟨"x", .none⟩, ⟨"y", .none⟩]
  actions := [⟨"Bar", body, .none⟩]

-- While `y` is pending, the first alternative is seen to be false where `FALSE` is a side of its
-- own. Grouped with the condition on `y` it waits for `y`, and `x` is offered its value.
theorem successors_ne_barred :
    let s : State := ⟨[.int 0, .int 0]⟩
    let states : List State := [⟨[.int 0, .int 3]⟩, ⟨[.int 2, .int 3]⟩]
    let states' : List State := [⟨[.int 0, .int 3]⟩]
    barred.Regrouped barredWhole ∧ (ofSpec (barring barred) []).successors 0 s = .ok states ∧
      (ofSpec (barring barredWhole) []).successors 0 s = .ok states' ∧ states ≠ states' := by
  intro s states states'
  have regrouped : barred.Regrouped barredWhole := .left (.assoc (by decide))
  have h : (ofSpec (barring barred) []).successors 0 s = .ok states := by cbv
  have h' : (ofSpec (barring barredWhole) []).successors 0 s = .ok states' := by cbv
  refine ⟨regrouped, h, h', fun heq => ?_⟩
  have hlength := congrArg List.length heq
  cases hlength

end Model

end ActionSystem
