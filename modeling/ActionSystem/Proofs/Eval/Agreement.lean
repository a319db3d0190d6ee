import ActionSystem.Solve.Infer
import ActionSystem.Sorted.Lemmas

/-!
# Agreement of contexts

The value of an expression depends on its free references only: two contexts that agree on them
give the same value or the same error. What the expression reads can be told from its text, as the
names that it refers to in the current and in the next state. An expression that reads no pending
variable has the same value however the pending variables are filled in.
-/

namespace ActionSystem

namespace Context

variable {c c' : Context} {x y : String} {v : Value}

/-! ## Binders -/

@[simp] theorem local?_bind_self (c : Context) (x : String) (v : Value) :
    (c.bind x v).local? x = some v := by
  simp [bind, local?]

theorem local?_bind_of_ne (h : y ≠ x) : (c.bind x v).local? y = c.local? y := by
  unfold local? bind
  rw [List.lookup_cons]
  have hne : (y == x) = false := beq_false_of_ne h
  rw [hne]

@[simp] theorem value?_bind_self (c : Context) (x : String) (v : Value) :
    (c.bind x v).value? x = some v := by
  unfold value?
  rw [local?_bind_self]

theorem value?_bind_of_ne (h : y ≠ x) : (c.bind x v).value? y = c.value? y := by
  unfold value?
  rw [local?_bind_of_ne h]
  rfl

theorem isLocal_bind : (c.bind x v).isLocal y = (y == x || c.isLocal y) := by
  by_cases hy : y = x
  · subst hy
    simp [isLocal]
  · simp [isLocal, local?_bind_of_ne hy, hy]

/-! ## Agreement -/

def Agrees (c c' : Context) : Reference → Prop
  | .name x => c.value? x = c'.value? x
  | .primed x => c.nextValue? x = c'.nextValue? x
  | .frame xs bound =>
    ∀ x ∈ xs, (x ∉ bound → c.value? x = c'.value? x) ∧ c.nextValue? x = c'.nextValue? x

theorem value?_bind_congr (h : c.value? y = c'.value? y) (x : String) (v : Value) :
    (c.bind x v).value? y = (c'.bind x v).value? y := by
  by_cases hy : y = x
  · rw [hy, value?_bind_self, value?_bind_self]
  · rw [value?_bind_of_ne hy, value?_bind_of_ne hy, h]

-- Contexts that agree still do so below a binder.
theorem Agrees.bind {r : Reference} (h : c.Agrees c' r) (x : String) (v : Value) :
    (c.bind x v).Agrees (c'.bind x v) r := by
  cases r with
  | name y => exact value?_bind_congr h x v
  | primed y => exact h
  | frame ys bound =>
    intro y hy
    obtain ⟨hvalue, hnext⟩ := h y hy
    exact ⟨fun hb => value?_bind_congr (hvalue hb) x v, hnext⟩

theorem lookup_congr (h : c.value? x = c'.value? x) (s : Span) : c.lookup s x = c'.lookup s x := by
  unfold lookup
  rw [h]

theorem lookupNext_congr (h : c.nextValue? x = c'.nextValue? x) (s : Span) :
    c.lookupNext s x = c'.lookupNext s x := by
  unfold lookupNext
  rw [h]

theorem isUnchanged_congr {xs : List String} (s : Span)
    (h : ∀ x ∈ xs, c.value? x = c'.value? x ∧ c.nextValue? x = c'.nextValue? x) :
    c.isUnchanged s xs = c'.isUnchanged s xs := by
  induction xs with
  | nil => rfl
  | cons x xs ih =>
    obtain ⟨hx, hxs⟩ := List.forall_mem_cons.mp h
    unfold isUnchanged
    rw [lookup_congr hx.1, lookupNext_congr hx.2, ih hxs]

end Context

namespace Expr

variable {c c' : Context}

/-! ## References -/

theorem mem_namesIn {x : String} {e : Expr} {form : Form} {bound : List String} :
    x ∈ e.namesIn form bound ↔ ∃ r ∈ e.references bound, x ∈ r.names form :=
  List.mem_flatMap

theorem mem_vars {x : String} {e : Expr} {form : Form} :
    x ∈ e.vars form ↔ x ∈ e.namesIn form [] :=
  Sorted.mem_ofList

theorem mem_referencesAll {r : Reference} {es : List Expr} {bound : List String} :
    r ∈ referencesAll es bound ↔ ∃ e ∈ es, r ∈ e.references bound := by
  induction es with
  | nil => simp [referencesAll]
  | cons e es ih => simp [referencesAll, ih]

theorem mem_referencesFields {r : Reference} {fs : List (String × Expr)} {bound : List String} :
    r ∈ referencesFields fs bound ↔ ∃ f ∈ fs, r ∈ f.2.references bound := by
  induction fs with
  | nil => simp [referencesFields]
  | cons f fs ih => simp [referencesFields, ih]

theorem evalAll_congr {es : List Expr} (h : ∀ e ∈ es, e.eval c = e.eval c') :
    evalAll es c = evalAll es c' := by
  induction es with
  | nil => rfl
  | cons e es ih =>
    obtain ⟨he, hes⟩ := List.forall_mem_cons.mp h
    simp only [evalAll, he, ih hes]

theorem evalFields_congr {fs : List (String × Expr)} (h : ∀ f ∈ fs, f.2.eval c = f.2.eval c') :
    evalFields fs c = evalFields fs c' := by
  induction fs with
  | nil => rfl
  | cons f fs ih =>
    obtain ⟨hf, hfs⟩ := List.forall_mem_cons.mp h
    simp only [evalFields, hf, ih hfs]

/-! ## Evaluation -/

/-- Only the free references of an expression count for its value. -/
theorem eval_congr {e : Expr} {bound : List String}
    (hbound : ∀ x ∈ bound, c.value? x = c'.value? x)
    (h : ∀ r ∈ e.references bound, c.Agrees c' r) : e.eval c = e.eval c' := by
  induction e using of_parts generalizing c c' bound with
  | step e ih =>
    -- a part of the same scope, and the body of a binder
    have part : ∀ p ∈ e.parts, (∀ r ∈ p.references bound, c.Agrees c' r) → p.eval c = p.eval c' :=
      fun p hp => ih p hp hbound
    have body : ∀ p ∈ e.parts, ∀ x v, (∀ r ∈ p.references (x :: bound), c.Agrees c' r) →
        p.eval (c.bind x v) = p.eval (c'.bind x v) := by
      intro p hp x v hr
      have hbound' : ∀ y ∈ x :: bound, (c.bind x v).value? y = (c'.bind x v).value? y := by
        intro y hy
        by_cases hyx : y = x
        · rw [hyx, Context.value?_bind_self, Context.value?_bind_self]
        · exact Context.value?_bind_congr (hbound y (List.mem_of_ne_of_mem hyx hy)) x v
      exact ih p hp hbound' fun r hrp => (hr r hrp).bind x v
    cases e with
    | literal s l => rfl
    | name s x =>
      refine Context.lookup_congr ?_ s
      by_cases hx : x ∈ bound
      · exact hbound x hx
      · exact h (.name x) (by simp [references, hx])
    | primed s x => exact Context.lookupNext_congr (h (.primed x) (by simp [references])) s
    | unchanged s xs =>
      have hframe := h (.frame xs bound) (by simp [references])
      have hsame : c.isUnchanged s xs = c'.isUnchanged s xs := by
        refine Context.isUnchanged_congr s fun x hx => ⟨?_, (hframe x hx).2⟩
        by_cases hb : x ∈ bound
        · exact hbound x hb
        · exact (hframe x hx).1 hb
      simp only [eval, hsame]
    | unary s op e =>
      have he := part e (by simp [parts]) h
      simp only [eval, he]
    | field s e x =>
      have he := part e (by simp [parts]) h
      simp only [eval, he]
    | logical s op l r | binary s op l r | range s l r | apply s l r | append s l r =>
      simp only [references, List.forall_mem_append] at h
      have hl := part l (by simp [parts]) h.1
      have hr := part r (by simp [parts]) h.2
      simp only [eval, hl, hr]
    | set s es | seq s es =>
      have hes : evalAll es c = evalAll es c' :=
        evalAll_congr fun e he => part e he fun r hr => h r (mem_referencesAll.mpr ⟨e, he, hr⟩)
      simp only [eval, hes]
    | record s fs =>
      have hfs : evalFields fs c = evalFields fs c' := by
        refine evalFields_congr fun f hf => part f.2 (List.mem_map_of_mem hf) fun r hr => ?_
        exact h r (mem_referencesFields.mpr ⟨f, hf, hr⟩)
      simp only [eval, hfs]
    | except s f k v =>
      simp only [references, List.forall_mem_append] at h
      have hf := part f (by simp [parts]) h.1
      have hk := part k (by simp [parts]) h.2.1
      have hv := part v (by simp [parts]) h.2.2
      simp only [eval, hf, hk, hv]
    | ite s p y n =>
      simp only [references, List.forall_mem_append] at h
      have hp := part p (by simp [parts]) h.1
      have hy := part y (by simp [parts]) h.2.1
      have hn := part n (by simp [parts]) h.2.2
      simp only [eval, hp, hy, hn]
    | bind s b x d e =>
      simp only [references, List.forall_mem_append] at h
      have hd := part d (by simp [parts]) h.1
      have he : ∀ item, e.eval (c.bind x item) = e.eval (c'.bind x item) :=
        fun item => body e (by simp [parts]) x item h.2
      simp only [eval, hd, he]
    | letIn s x v e =>
      simp only [references, List.forall_mem_append] at h
      have hv := part v (by simp [parts]) h.1
      have he : ∀ item, e.eval (c.bind x item) = e.eval (c'.bind x item) :=
        fun item => body e (by simp [parts]) x item h.2
      simp only [eval, hv, he]

end Expr

/-! ## Footprints -/

namespace Context

variable {c c' : Context} {e : Expr} {x : String}

/-- The contexts have the same declarations, constants and local binders, and the same values of
the declared variables that the expression refers to, in the current and in the next state. -/
structure SharesFootprint (c c' : Context) (e : Expr) : Prop where
  env : c.env = c'.env
  locals : c.locals = c'.locals
  current : ∀ x ∈ e.vars .unprimed, ∀ i ∈ c.env.variableIndex? x,
    c.current.get? i = c'.current.get? i
  next : ∀ x ∈ e.vars .primed, ∀ i ∈ c.env.variableIndex? x, c.next.get? i = c'.next.get? i

namespace SharesFootprint

theorem value?_eq (h : c.SharesFootprint c' e) (hx : x ∈ e.vars .unprimed) :
    c.value? x = c'.value? x := by
  unfold value? local?
  rw [← h.locals, ← h.env]
  cases c.locals.lookup x with
  | some v => rfl
  | none =>
    cases hi : c.env.variableIndex? x with
    | none => rfl
    | some i => exact h.current x hx i hi

theorem nextValue?_eq (h : c.SharesFootprint c' e) (hx : x ∈ e.vars .primed) :
    c.nextValue? x = c'.nextValue? x := by
  unfold nextValue?
  rw [← h.env]
  cases hi : c.env.variableIndex? x with
  | none => rfl
  | some i => exact h.next x hx i hi

-- A frame refers to its names in both forms, but for those that a binder takes in the current state.
theorem agrees (h : c.SharesFootprint c' e) {r : Reference} (hr : r ∈ e.references []) :
    c.Agrees c' r := by
  have read : ∀ form, ∀ x ∈ r.names form, x ∈ e.vars form := fun form x hx =>
    Expr.mem_vars.mpr (Expr.mem_namesIn.mpr ⟨r, hr, hx⟩)
  cases r with
  | name x => exact h.value?_eq (read .unprimed x (by simp [Reference.names]))
  | primed x => exact h.nextValue?_eq (read .primed x (by simp [Reference.names]))
  | frame xs bound =>
    intro x hx
    have hnext := h.nextValue?_eq (read .primed x hx)
    refine ⟨fun hb => h.value?_eq (read .unprimed x ?_), hnext⟩
    simp [Reference.names, hx, hb]

end SharesFootprint

end Context

namespace Expr

variable {c c' : Context} {e : Expr}

/-- An expression has the same value, or the same error, in two contexts that differ only in
variables that it does not refer to. -/
theorem eval_eq_of_sharesFootprint (h : c.SharesFootprint c' e) : e.eval c = e.eval c' := by
  have hbound : ∀ x ∈ [], c.value? x = c'.value? x := by simp
  exact eval_congr hbound fun _ hr => h.agrees hr

/-- The expression `\E x \in {y} : UNCHANGED <<x, y>> /\ x' = k` -/
def returning : Expr :=
  bind .none .any "x" (set .none [name .none "y"])
    (logical .none .and (unchanged .none ["x", "y"])
      (binary .none .eq (primed .none "x") (name .none "k")))

-- The binder hides the current value of `x`, so that it may differ, and be missing, as that of `z`.
theorem eval_eq_of_sharesFootprint_returning :
    let env : Env := ⟨["x", "y", "z"], ["k"], [.int 7]⟩
    let c : Context := ⟨env, .total [.int 1, .int 7, .int 2], .total [.int 7, .int 7, .int 3], []⟩
    let c' : Context := ⟨env, .solving [none, some (.int 7)], .solving [some (.int 7), some (.int 7)],
      []⟩
    c.SharesFootprint c' returning ∧ returning.eval c = .ok (.bool true) ∧
      returning.eval c' = .ok (.bool true) := by
  intro env c c'
  have shares : c.SharesFootprint c' returning := by
    refine ⟨rfl, rfl, ?_, ?_⟩
    · decide
    · decide
  have heval : returning.eval c = .ok (.bool true) := rfl
  exact ⟨shares, heval, (eval_eq_of_sharesFootprint shares).symm.trans heval⟩

end Expr

/-! ## Pending variables -/

namespace Slots

/-- The variables that are not pending in `s` have the same values in `t`. -/
def FilledBy (s t : Slots) : Prop := ∀ i, s.isPending i = false → t.get? i = s.get? i

theorem FilledBy.refl (s : Slots) : s.FilledBy s := fun _ _ => rfl

end Slots

namespace Context

variable {c c' : Context} {x : String}

/-- The second context is the first with some of the pending variables filled in. -/
structure FilledBy (c c' : Context) : Prop where
  env : c'.env = c.env
  current : c.current.FilledBy c'.current
  next : c.next.FilledBy c'.next
  locals : c'.locals = c.locals

theorem FilledBy.bind (h : c.FilledBy c') (x : String) (v : Value) :
    (c.bind x v).FilledBy (c'.bind x v) where
  env := h.env
  current := h.current
  next := h.next
  locals := by
    unfold Context.bind
    rw [h.locals]

theorem FilledBy.isLocal (h : c.FilledBy c') (x : String) : c'.isLocal x = c.isLocal x := by
  unfold Context.isLocal local?
  rw [h.locals]

theorem FilledBy.value? (h : c.FilledBy c')
    (hx : (c.isLocal x || !c.pendingIn c.current x) = true) : c.value? x = c'.value? x := by
  unfold Context.value?
  unfold Context.isLocal pendingIn at hx
  have hlocal : c'.local? x = c.local? x := by
    unfold local?
    rw [h.locals]
  rw [hlocal, h.env]
  cases hl : c.local? x with
  | some v => rfl
  | none =>
    rw [hl] at hx
    cases hi : c.env.variableIndex? x with
    | none => rfl
    | some i =>
      rw [hi] at hx
      exact (h.current i (by simpa using hx)).symm

theorem FilledBy.nextValue? (h : c.FilledBy c') (hx : c.pendingIn c.next x = false) :
    c.nextValue? x = c'.nextValue? x := by
  unfold Context.nextValue?
  unfold pendingIn at hx
  rw [h.env]
  cases hi : c.env.variableIndex? x with
  | none => rfl
  | some i =>
    rw [hi] at hx
    exact (h.next i hx).symm

-- What reads no pending variable has the same value after it is filled in.
theorem FilledBy.agrees (h : c.FilledBy c') {r : Reference} (hr : c.settles r = true) :
    c.Agrees c' r := by
  cases r with
  | name x => exact h.value? hr
  | primed x => exact h.nextValue? (by simpa [settles] using hr)
  | frame xs bound =>
    intro x hx
    have hall : (!c.pendingIn c.current x && !c.pendingIn c.next x) = true :=
      List.all_eq_true.mp hr x hx
    rw [Bool.and_eq_true] at hall
    exact ⟨fun _ => h.value? (by rw [hall.1, Bool.or_true]),
      h.nextValue? (by simpa using hall.2)⟩

/-- A resolved expression can be evaluated before the pending variables have values. -/
theorem FilledBy.eval (h : c.FilledBy c') {e : Expr} (he : c.resolves e [] = true) :
    e.eval c = e.eval c' := by
  have hbound : ∀ x ∈ [], c.value? x = c'.value? x := by simp
  exact Expr.eval_congr hbound fun r hr => h.agrees (List.all_eq_true.mp he r hr)

theorem FilledBy.holds (h : c.FilledBy c') {e : Expr} (he : c.resolves e [] = true) :
    e.holds c = e.holds c' := by
  unfold Expr.holds
  rw [h.eval he]

theorem FilledBy.domain (h : c.FilledBy c') {e : Expr} (he : c.resolves e [] = true) :
    e.domain c = e.domain c' := by
  unfold Expr.domain
  rw [h.eval he]

end Context

end ActionSystem
