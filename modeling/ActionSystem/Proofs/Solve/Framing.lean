import ActionSystem.Proofs.Eval.Replacement
import ActionSystem.Proofs.Solve.Derivation

/-!
# Framed actions

An action is framed if it says of every variable what becomes of it: a variable that it mentions
in the next state is given its value by an equation, a membership or a frame, in every alternative
of a choice or in none. The candidates for such a variable are never the default that it is left
as it is.
-/

namespace ActionSystem

namespace Expr

variable {x : String} {e : Expr}

/-! ## Names taken by binders -/

mutual

def binders : Expr → List String
  | literal _ _ | name _ _ | primed _ _ | unchanged _ _ => []
  | unary _ _ e | field _ e _ => binders e
  | logical _ _ l r | binary _ _ l r | range _ l r | apply _ l r | append _ l r =>
    binders l ++ binders r
  | set _ es | seq _ es => bindersAll es
  | record _ fs => bindersFields fs
  | except _ f k v => binders f ++ (binders k ++ binders v)
  | bind _ _ x d e => x :: (binders d ++ binders e)
  | letIn _ x v e => x :: (binders v ++ binders e)
  | ite _ c t e => binders c ++ (binders t ++ binders e)
termination_by structural e => e

def bindersAll : List Expr → List String
  | [] => []
  | e :: es => binders e ++ bindersAll es
termination_by structural es => es

def bindersFields : List (String × Expr) → List String
  | [] => []
  | (_, e) :: fs => binders e ++ bindersFields fs
termination_by structural fs => fs

end

/-! ## Settled variables -/

def isNext (x : String) : Expr → Bool
  | primed _ y => y = x
  | _ => false

/-- The expression says what becomes of the variable: by an equation, a membership or a frame, on
one side of a conjunction or in all alternatives. -/
def settlesNext (x : String) : Expr → Bool
  | unchanged _ xs => xs.contains x
  | binary _ .eq l r => l.isNext x || r.isNext x
  | binary _ .mem l _ => l.isNext x
  | logical _ .and l r => settlesNext x l || settlesNext x r
  | logical _ .or l r => settlesNext x l && settlesNext x r
  | ite _ _ y n => settlesNext x y && settlesNext x n
  | bind _ .any _ _ body | letIn _ _ _ body => settlesNext x body
  | _ => false
termination_by structural e => e

/-- The alternatives of a choice: of a disjunction, of `IF`, and of `\E`, where there is one for
each item. -/
def alternatives : Expr → List Expr
  | logical _ .or l r => [l, r]
  | ite _ _ y n => [y, n]
  | bind _ .any _ _ body => [body]
  | _ => []

/-- No alternative mentions the variable in the next state, or all of them settle it. -/
def isEven (x : String) (e : Expr) : Bool :=
  e.alternatives.all (fun a => !(a.namesIn .primed []).contains x) || e.settlesNext x

/-- All choices that the truth of the expression depends on are even in the variable. -/
def isBalanced (x : String) : Expr → Bool
  | logical s op l r => isEven x (logical s op l r) && isBalanced x l && isBalanced x r
  | ite s p y n => isEven x (ite s p y n) && isBalanced x y && isBalanced x n
  | bind s .any y d body => isEven x (bind s .any y d body) && isBalanced x body
  | bind _ .all _ _ body | letIn _ _ _ body => isBalanced x body
  | _ => true
termination_by structural e => e

/-- Whatever becomes of one of the variables, every choice says it in all of its alternatives or
in none, and no binder takes the name of the variable. -/
structure Uniform (vars : List String) (e : Expr) : Prop where
  fresh : ∀ x ∈ vars, x ∉ e.binders
  balanced : ∀ x ∈ vars, e.isBalanced x = true

theorem Uniform.subset {vars vars' : List String} (h : e.Uniform vars) (sub : vars' ⊆ vars) :
    e.Uniform vars' :=
  ⟨fun x hx => h.fresh x (sub hx), fun x hx => h.balanced x (sub hx)⟩

structure Framed (vars : List String) (e : Expr) : Prop where
  fresh : ∀ x ∈ vars, x ∉ e.binders
  settled : ∀ x ∈ vars, x ∈ e.vars .primed → e.settlesNext x = true
  balanced : ∀ x ∈ vars, e.isBalanced x = true

theorem Framed.uniform {vars : List String} (h : e.Framed vars) : e.Uniform vars :=
  ⟨h.fresh, h.balanced⟩

/-- The parts of which the truth of an expression is made up, without conditions and domains. -/
def branches : Expr → List Expr
  | logical _ _ l r => [l, r]
  | ite _ _ y n => [y, n]
  | bind _ .any _ _ body | bind _ .all _ _ body | letIn _ _ _ body => [body]
  | _ => []

theorem mem_parts_of_branch {p : Expr} (hp : p ∈ e.branches) : p ∈ e.parts := by
  unfold branches at hp
  split at hp
  · exact hp
  · exact List.mem_cons_of_mem _ hp
  · exact List.mem_cons_of_mem _ hp
  · exact List.mem_cons_of_mem _ hp
  · exact List.mem_cons_of_mem _ hp
  · cases hp

theorem isBalanced_of_branch {p : Expr} (hp : p ∈ e.branches) (h : e.isBalanced x = true) :
    p.isBalanced x = true := by
  unfold branches at hp
  split at hp
  · simp only [isBalanced, Bool.and_eq_true] at h
    simp only [List.mem_cons, List.not_mem_nil, or_false] at hp
    rcases hp with rfl | rfl
    · exact h.1.2
    · exact h.2
  · simp only [isBalanced, Bool.and_eq_true] at h
    simp only [List.mem_cons, List.not_mem_nil, or_false] at hp
    rcases hp with rfl | rfl
    · exact h.1.2
    · exact h.2
  · simp only [isBalanced, Bool.and_eq_true] at h
    exact List.mem_singleton.mp hp ▸ h.2
  · exact List.mem_singleton.mp hp ▸ h
  · exact List.mem_singleton.mp hp ▸ h
  · cases hp

-- A balanced expression is even as far as it is a choice itself.
theorem isEven_of_isBalanced (h : e.isBalanced x = true) : e.isEven x = true := by
  cases e with
  | logical s op l r =>
    simp only [isBalanced, Bool.and_eq_true] at h
    exact h.1.1
  | ite s p y n =>
    simp only [isBalanced, Bool.and_eq_true] at h
    exact h.1.1
  | bind s b y d body =>
    cases b with
    | any =>
      simp only [isBalanced, Bool.and_eq_true] at h
      exact h.1
    | _ => rfl
  | _ => rfl

-- What a choice settles, each alternative settles.
theorem settlesNext_of_alternative {p : Expr} (hp : p ∈ e.alternatives)
    (h : e.settlesNext x = true) : p.settlesNext x = true := by
  unfold alternatives at hp
  split at hp
  · rw [settlesNext, Bool.and_eq_true] at h
    simp only [List.mem_cons, List.not_mem_nil, or_false] at hp
    rcases hp with rfl | rfl
    · exact h.1
    · exact h.2
  · rw [settlesNext, Bool.and_eq_true] at h
    simp only [List.mem_cons, List.not_mem_nil, or_false] at hp
    rcases hp with rfl | rfl
    · exact h.1
    · exact h.2
  · exact List.mem_singleton.mp hp ▸ h
  · cases hp

-- In an even choice, a variable that one alternative mentions is settled.
theorem settlesNext_of_mentioned {p : Expr} (balanced : e.isBalanced x = true)
    (hp : p ∈ e.alternatives) (hx : x ∈ p.namesIn .primed []) : e.settlesNext x = true := by
  have heven := isEven_of_isBalanced balanced
  rw [isEven, Bool.or_eq_true, List.all_eq_true] at heven
  rcases heven with hnone | hsettled
  · have hfree := hnone p hp
    rw [Bool.not_eq_true', List.contains_eq_mem, decide_eq_false_iff_not] at hfree
    exact absurd hx hfree
  · exact hsettled

theorem mem_bindersAll {es : List Expr} : x ∈ bindersAll es ↔ ∃ e ∈ es, x ∈ e.binders := by
  induction es with
  | nil => simp [bindersAll]
  | cons e es ih => simp [bindersAll, ih]

theorem mem_bindersFields {fs : List (String × Expr)} :
    x ∈ bindersFields fs ↔ ∃ f ∈ fs, x ∈ f.2.binders := by
  induction fs with
  | nil => simp [bindersFields]
  | cons f fs ih => simp [bindersFields, ih]

theorem mem_binders_of_part {p : Expr} (hp : p ∈ e.parts) (h : x ∈ p.binders) :
    x ∈ e.binders := by
  cases e with
  | literal s l | name s y | primed s y | unchanged s ys => cases hp
  | set s es | seq s es => exact mem_bindersAll.mpr ⟨p, hp, h⟩
  | record s fs =>
    obtain ⟨f, hf, rfl⟩ := List.mem_map.mp hp
    exact mem_bindersFields.mpr ⟨f, hf, h⟩
  | _ =>
    simp only [parts, List.mem_cons, List.not_mem_nil, or_false] at hp
    simp only [binders, List.mem_cons, List.mem_append]
    grind

/-! ## Mentioned variables -/

theorem mem_namesIn_of_isNext (h : e.isNext x = true) : x ∈ e.namesIn .primed [] := by
  unfold isNext at h
  split at h
  · rw [of_decide_eq_true h]
    exact List.mem_singleton_self x
  · cases h

-- What a part mentions in the next state, the whole mentions.
theorem mem_namesIn_of_part {p : Expr} (hp : p ∈ e.parts) (h : x ∈ p.namesIn .primed []) :
    x ∈ e.namesIn .primed [] := by
  obtain ⟨i, hi⟩ := List.getElem?_of_mem hp
  obtain ⟨r, hr, hx⟩ := mem_namesIn.mp (mem_namesIn_primed h (e.taken i ++ []))
  exact mem_namesIn.mpr ⟨r, mem_references.mpr (.inr ⟨i, p, hi, hr⟩), hx⟩

-- What settles a variable mentions it.
theorem mem_namesIn_of_settlesNext (h : e.settlesNext x = true) : x ∈ e.namesIn .primed [] := by
  induction e using of_parts with
  | step e ih =>
    have part : ∀ p ∈ e.parts, p.settlesNext x = true → x ∈ e.namesIn .primed [] :=
      fun p hp hset => mem_namesIn_of_part hp (ih p hp hset)
    have side : ∀ p ∈ e.parts, p.isNext x = true → x ∈ e.namesIn .primed [] :=
      fun p hp hnext => mem_namesIn_of_part hp (mem_namesIn_of_isNext hnext)
    unfold settlesNext at h
    split at h
    · simpa [namesIn, references, Reference.names] using h
    · exact ((Bool.or_eq_true _ _).mp h).elim (side _ (by simp [parts])) (side _ (by simp [parts]))
    · exact side _ (by simp [parts]) h
    · exact ((Bool.or_eq_true _ _).mp h).elim (part _ (by simp [parts])) (part _ (by simp [parts]))
    · exact part _ (by simp [parts]) ((Bool.and_eq_true _ _).mp h).1
    · exact part _ (by simp [parts]) ((Bool.and_eq_true _ _).mp h).1
    · exact part _ (by simp [parts]) h
    · exact part _ (by simp [parts]) h
    · cases h

end Expr

end ActionSystem
