import ActionSystem.Proofs.Eval.Replacement
import ActionSystem.Proofs.Eval.Truth

/-!
# Frames written out

A frame condition says that each of its names has the same value in both states. It may be written
out as equations, one for each name, anywhere in an expression. The value stays as it is.
-/

namespace ActionSystem

open Result (Matches)

/-- As far as its values in both states are known, the variable keeps its value. -/
def Context.Keeps (c : Context) (x : String) : Prop :=
  ∀ v w, c.value? x = some v → c.nextValue? x = some w → v = w

namespace Expr

def keeps (x : String) : Expr := binary .none .eq (primed .none x) (name .none x)

/-- A frame written out: `x' = x` for each name, combined to the right. -/
def equations (xs : List String) : Expr := conj (xs.map keeps)

mutual

def expandFrames : Expr → Expr
  | unchanged _ xs => equations xs
  | literal s l => literal s l
  | name s x => name s x
  | primed s x => primed s x
  | unary s op e => unary s op (expandFrames e)
  | logical s op l r => logical s op (expandFrames l) (expandFrames r)
  | binary s op l r => binary s op (expandFrames l) (expandFrames r)
  | range s lo hi => range s (expandFrames lo) (expandFrames hi)
  | set s es => set s (expandFramesAll es)
  | seq s es => seq s (expandFramesAll es)
  | record s fs => record s (expandFramesFields fs)
  | apply s f a => apply s (expandFrames f) (expandFrames a)
  | field s r x => field s (expandFrames r) x
  | except s f k v => except s (expandFrames f) (expandFrames k) (expandFrames v)
  | append s q x => append s (expandFrames q) (expandFrames x)
  | bind s b x d e => bind s b x (expandFrames d) (expandFrames e)
  | letIn s x v e => letIn s x (expandFrames v) (expandFrames e)
  | ite s c t e => ite s (expandFrames c) (expandFrames t) (expandFrames e)
termination_by structural e => e

def expandFramesAll : List Expr → List Expr
  | [] => []
  | e :: es => expandFrames e :: expandFramesAll es
termination_by structural es => es

def expandFramesFields : List (String × Expr) → List (String × Expr)
  | [] => []
  | (x, e) :: fs => (x, expandFrames e) :: expandFramesFields fs
termination_by structural fs => fs

end

variable {c : Context} {s : Span} {x y : String} {xs bound : List String} {b : Bool} {v : Value}
  {e : Expr}

theorem expandFramesAll_eq {es : List Expr} : expandFramesAll es = es.map expandFrames := by
  induction es with
  | nil => rfl
  | cons e es ih => rw [expandFramesAll, ih, List.map_cons]

theorem expandFramesFields_eq {fs : List (String × Expr)} :
    expandFramesFields fs = (fs.map (·.1)).zip ((fs.map (·.2)).map expandFrames) := by
  induction fs with
  | nil => rfl
  | cons f fs ih => rw [expandFramesFields, ih, List.map_cons, List.map_cons, List.map_cons,
      List.zip_cons_cons]

/-- What is not a frame itself has its frames in its parts. -/
theorem expandFrames_eq_withParts (h : ∀ s xs, e ≠ unchanged s xs) :
    e.expandFrames = e.withParts (e.parts.map expandFrames) := by
  cases e with
  | unchanged s xs => exact absurd rfl (h s xs)
  | set s es | seq s es => simp only [expandFrames, expandFramesAll_eq, parts, withParts]
  | record s fs => simp only [expandFrames, expandFramesFields_eq, parts, withParts]
  | _ => rfl

/-- What holds of a frame and its equations, and passes from the parts of an expression to the
whole, holds of every expression and the one with its frames written out. -/
theorem of_frames {P : Expr → Expr → Prop} (frame : ∀ s xs, P (unchanged s xs) (equations xs))
    (inside : ∀ e, (∀ p ∈ e.parts, P p p.expandFrames) →
      P e (e.withParts (e.parts.map expandFrames))) (e : Expr) : P e e.expandFrames := by
  induction e using of_parts with
  | step e ih =>
    by_cases hframe : ∃ s xs, e = unchanged s xs
    · obtain ⟨s, xs, rfl⟩ := hframe
      exact frame s xs
    · rw [expandFrames_eq_withParts (by simpa using hframe)]
      exact inside e ih

/-! ## References -/

theorem equations_cons :
    equations (x :: y :: xs) = logical .none .and (keeps x) (equations (y :: xs)) := rfl

-- Each equation refers to the variable in the next state, and to the name.
theorem mem_references_equations {r : Reference} : r ∈ (equations xs).references bound ↔
    ∃ x ∈ xs, r = .primed x ∨ x ∉ bound ∧ r = .name x := by
  have mem_keeps : ∀ x, r ∈ (keeps x).references bound ↔
      r = .primed x ∨ x ∉ bound ∧ r = .name x := by
    intro x
    by_cases hx : x ∈ bound <;> simp [keeps, references, hx]
  induction xs with
  | nil => simp [equations, conj, combine, truth, references]
  | cons x xs ih =>
    simp only [List.mem_cons, or_and_right, exists_or, exists_eq_left, ← ih, ← mem_keeps x]
    cases xs with
    | nil =>
      show r ∈ (keeps x).references bound ↔ _ ∨ r ∈ []
      simp
    | cons y ys => rw [equations_cons, references, List.mem_append]

theorem exists_reference_equations {P : Reference → Prop} (hname : ∀ x, ¬ P (.name x)) :
    (∃ r ∈ (equations xs).references bound, P r) ↔ ∃ x ∈ xs, P (.primed x) := by
  simp only [mem_references_equations]
  constructor
  · rintro ⟨r, ⟨x, hx, rfl | ⟨-, rfl⟩⟩, hr⟩
    · exact ⟨x, hx, hr⟩
    · exact absurd hr (hname x)
  · rintro ⟨x, hx, hr⟩
    exact ⟨.primed x, ⟨x, hx, .inl rfl⟩, hr⟩

/-! ## Evaluation -/

theorem eval_keeps_eq_ok : (keeps x).eval c = .ok v ↔
    ∃ w w', c.value? x = some w ∧ c.nextValue? x = some w' ∧ v = .bool (w = w') := by
  simp only [keeps, eval, Result.bind_eq_ok, lookup_eq_ok, lookupNext_eq_ok, Fault.at_eq_ok,
    BinaryOp.apply, Except.ok.injEq]
  constructor
  · rintro ⟨w', hw', w, hw, h⟩
    exact ⟨w, w', hw, hw', by simp [← h, eq_comm]⟩
  · rintro ⟨w, w', hw, hw', h⟩
    exact ⟨w', hw', w, hw, by simp [h, eq_comm]⟩

-- A frame goes through its names as the equations do.
theorem isUnchanged_cons_eq_ok : c.isUnchanged s (x :: xs) = .ok b ↔
    ∃ p, (keeps x).holds c = .ok p ∧
      (p = false ∧ b = false ∨ p = true ∧ c.isUnchanged s xs = .ok b) := by
  simp only [Context.isUnchanged, Result.bind_eq_ok, lookup_eq_ok, lookupNext_eq_ok, holds_eq_ok,
    eval_keeps_eq_ok]
  constructor
  · rintro ⟨w, hw, w', hw', h⟩
    refine ⟨w = w', ⟨w, w', hw, hw', rfl⟩, ?_⟩
    by_cases heq : w = w'
    · rw [if_pos heq] at h
      exact .inr ⟨decide_eq_true heq, h⟩
    · rw [if_neg heq, Result.pure_eq_ok] at h
      exact .inl ⟨decide_eq_false heq, h.symm⟩
  · rintro ⟨p, ⟨w, w', hw, hw', hp⟩, h⟩
    cases hp
    refine ⟨w, hw, w', hw', ?_⟩
    rcases h with ⟨hne, rfl⟩ | ⟨heq, h⟩
    · rw [if_neg (of_decide_eq_false hne)]
      rfl
    · rw [if_pos (of_decide_eq_true heq)]
      exact h

theorem holds_equations_eq_ok :
    (equations xs).holds c = .ok b ↔ c.isUnchanged s xs = .ok b := by
  induction xs with
  | nil => exact .rfl
  | cons x xs ih =>
    rw [isUnchanged_cons_eq_ok]
    cases xs with
    | nil =>
      show (keeps x).holds c = .ok b ↔ _
      simp only [Context.isUnchanged, Result.pure_eq_ok]
      cases b <;> simp
    | cons y ys =>
      rw [holds_eq_ok, equations_cons, eval_logical_eq_ok]
      refine exists_congr fun p => and_congr_right fun _ => ?_
      cases p with
      | false => simp [Connective.decided?, eq_comm]
      | true => simp [Connective.decided?, ih]

theorem eval_equations_eq_bool (h : (equations xs).eval c = .ok v) : ∃ b, v = .bool b := by
  cases xs with
  | nil => exact ⟨true, (Except.ok.inj h).symm⟩
  | cons x xs =>
    cases xs with
    | nil =>
      obtain ⟨w, w', -, -, hv⟩ := eval_keeps_eq_ok.mp h
      exact ⟨_, hv⟩
    | cons y ys => exact eval_logical_eq_bool h

/-- A frame evaluates to what it evaluates to written out. -/
theorem eval_equations_eq_ok :
    (equations xs).eval c = .ok v ↔ (unchanged s xs).eval c = .ok v := by
  constructor
  · intro h
    obtain ⟨b, rfl⟩ := eval_equations_eq_bool h
    exact Result.bind_eq_ok.mpr ⟨b, holds_equations_eq_ok.mp (holds_eq_ok.mpr h), rfl⟩
  · intro h
    simp only [eval, Result.bind_eq_ok, Result.pure_eq_ok] at h
    obtain ⟨b, hb, rfl⟩ := h
    exact holds_eq_ok.mp (holds_equations_eq_ok.mpr hb)

/-- Any expression evaluates to what it evaluates to with its frames written out. -/
theorem eval_expandFrames_eq_ok : e.expandFrames.eval c = .ok v ↔ e.eval c = .ok v := by
  suffices both : ∀ c, Matches True Eq (e.eval c) (e.expandFrames.eval c) ∧
      Matches True Eq (e.expandFrames.eval c) (e.eval c) by
    constructor
    · intro h
      obtain ⟨w, hw, rfl⟩ := (both c).1.exists_ok h
      exact hw
    · intro h
      obtain ⟨w, hw, rfl⟩ := (both c).2.exists_ok h
      exact hw
  refine of_frames (P := fun e e' => ∀ c, Matches True Eq (e.eval c) (e'.eval c) ∧
    Matches True Eq (e'.eval c) (e.eval c)) (fun s xs c => ?_) (fun e ih c => ?_) e
  · exact ⟨.of_iff fun v => eval_equations_eq_ok.symm, .of_iff fun v => eval_equations_eq_ok⟩
  · have parts : e.Paired (fun _ p q => ∀ c, Matches True Eq (p.eval c) (q.eval c) ∧
        Matches True Eq (q.eval c) (p.eval c)) (e.parts.map expandFrames) :=
      paired_map fun hp => ih _ (List.mem_of_getElem? hp)
    refine ⟨matches_eval_withParts (parts.imp fun _ _ _ h c => (h c).1), ?_⟩
    have back := matches_eval_withParts (c := c) (parts.symm.imp fun _ _ _ h c => (h c).2)
    rw [withParts_withParts parts.length] at back
    exact back

theorem holds_expandFrames_eq_ok : e.expandFrames.holds c = .ok b ↔ e.holds c = .ok b := by
  rw [holds_eq_ok, holds_eq_ok, eval_expandFrames_eq_ok]

-- Equations between values that are kept are not found false.
theorem eq_true_of_holds_equations (h : ∀ x ∈ xs, c.Keeps x)
    (hb : (equations xs).holds c = .ok b) : b = true := by
  rw [@holds_equations_eq_ok c .none] at hb
  induction xs with
  | nil => exact (Except.ok.inj hb).symm
  | cons x xs ih =>
    obtain ⟨hx, hxs⟩ := List.forall_mem_cons.mp h
    obtain ⟨p, hp, hb⟩ := isUnchanged_cons_eq_ok.mp hb
    obtain ⟨w, w', hw, hw', hp⟩ := eval_keeps_eq_ok.mp (holds_eq_ok.mp hp)
    cases hp
    rcases hb with ⟨hne, -⟩ | ⟨-, hb⟩
    · exact absurd (hx w w' hw hw') (of_decide_eq_false hne)
    · exact ih hxs hb

end Expr

end ActionSystem
