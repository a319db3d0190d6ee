import ActionSystem.Proofs.Eval.Expansion
import ActionSystem.Proofs.Solve.Lockstep
import ActionSystem.Proofs.Solve.Regrouping
import ActionSystem.Proofs.Solve.Replacement
import ActionSystem.Proofs.Solve.Sources

/-!
# Successors under frames written out

A frame gives the candidates that its equations give, unless a binder takes one of its names or one
of its variables has been given another value already.
-/

namespace ActionSystem

open Result (Matches)

/-! ## Frames that stand apart -/

namespace Expr

variable {x : String} {e p : Expr} {bound : List String}

/-- No binder around a frame takes one of its names, and a variable that shares a frame with
another one is referred to in the next state by frames only. -/
structure FramesApart (e : Expr) : Prop where
  free : ∀ xs bound, .frame xs bound ∈ e.references [] → ∀ x ∈ xs, x ∉ bound
  alone : ∀ xs bound, .frame xs bound ∈ e.references [] → ∀ x ∈ xs, ∀ y ∈ xs, x ≠ y →
    .primed x ∉ e.references []

/-- Below binders of the names `bound`, the frames are not disturbed: no binder around a frame takes
one of its names, and a variable that shares it with another one keeps its value in the context. -/
structure Undisturbed (c : Context) (bound : List String) (e : Expr) : Prop where
  free : ∀ xs taken, .frame xs taken ∈ e.references bound → ∀ x ∈ xs, x ∉ taken
  keeps : ∀ xs taken, .frame xs taken ∈ e.references bound → ∀ x ∈ xs, ∀ y ∈ xs, x ≠ y → c.Keeps x

theorem Undisturbed.part {c : Context} {i : Nat} (h : e.Undisturbed c bound)
    (hp : e.parts[i]? = some p) : p.Undisturbed c (e.taken i ++ bound) where
  free xs taken hr := h.free xs taken (mem_references.mpr (.inr ⟨i, p, hp, hr⟩))
  keeps xs taken hr := h.keeps xs taken (mem_references.mpr (.inr ⟨i, p, hp, hr⟩))

-- Binders do not take primed names.
theorem primed_mem_references (h : .primed x ∈ e.references bound) (bound' : List String) :
    .primed x ∈ e.references bound' := by
  induction e using of_parts generalizing bound bound' with
  | step e ih =>
    rw [mem_references] at h ⊢
    rcases h with h | ⟨i, p, hp, h⟩
    · left
      unfold ownReferences at h ⊢
      split at h
      · unfold references at h
        split at h <;> simp at h
      · exact h
      · simp [references] at h
      · cases h
    · exact .inr ⟨i, p, hp, ih p (List.mem_of_getElem? hp) h _⟩

theorem not_primed_of_part (hp : p ∈ e.parts) (h : .primed x ∉ e.references []) :
    .primed x ∉ p.references [] := by
  obtain ⟨i, hi⟩ := List.mem_iff_getElem?.mp hp
  exact fun hx => h (mem_references.mpr (.inr ⟨i, p, hi, primed_mem_references hx _⟩))

theorem mem_namesIn_equations {xs : List String} :
    x ∈ (equations xs).namesIn .primed bound ↔ x ∈ xs := by
  rw [mem_namesIn, exists_reference_equations (by simp [Reference.names])]
  simp [Reference.names]

theorem primed_mem_of_isNext (h : e.isNext x = true) : .primed x ∈ e.references [] := by
  unfold isNext at h
  split at h
  · rw [of_decide_eq_true h]
    exact List.mem_singleton_self _
  · cases h

end Expr

namespace Unknown

variable {firm : Prop} {u : Unknown} {outer c : Context} {bound : List String} {e : Expr}
  {s : Span} {x : String} {xs : List String} {r : Candidates} {v : Value}

/-! ## The value of a variable that only frames refer to -/

-- Alternatives list what one of them lists, and the current value at most.
theorem eq_of_disjoin_lists {cs : List Candidates} (h : u.disjoin outer cs = .ok r)
    (each : ∀ a ∈ cs, ∀ v, a.Lists v → outer.value? u.name = some v) (hv : r.Lists v) :
    outer.value? u.name = some v := by
  have hr : r ≠ .constrained := by
    rintro rfl
    exact hv
  rcases ((joins_of_disjoin h).lists hr v).mp hv with ⟨a, ha, hv⟩ | ⟨-, -, hv⟩
  · exact each a ha v hv
  · exact hv

/-- Only the current value is listed for a variable that nothing but frames refers to in the next
state. -/
theorem Infers.value_of_lists (h : u.Infers outer e c r) (hform : u.form = .primed)
    (alone : .primed u.name ∉ e.references []) (hv : r.Lists v) :
    outer.value? u.name = some v := by
  induction h generalizing v with
  | @truth e c b resolved known => cases b <;> cases hv
  | unmentioned free => cases hv
  | constrained unsettled => cases hv
  | leftDisabled unsettled left ihl => cases hv
  | vacuous unsettled resolved known => cases hv
  | oneDisabled unsettled resolved ranges mem one ih => cases hv
  | @equation s l m c a unsettled read =>
    cases a with
    | values vs =>
      have hsettles := settlesNext_of_fromEquation (s := s) read hform
      rw [Expr.settlesNext, Bool.or_eq_true] at hsettles
      rcases hsettles with hl | hr
      · exact absurd (Expr.primed_mem_of_isNext hl)
          (Expr.not_primed_of_part (by simp [Expr.parts]) alone)
      · exact absurd (Expr.primed_mem_of_isNext hr)
          (Expr.not_primed_of_part (by simp [Expr.parts]) alone)
    | _ => cases hv
  | @membership s l m c a unsettled read =>
    cases a with
    | values vs =>
      have hsettles := settlesNext_of_fromMembership (s := s) read hform
      exact absurd (Expr.primed_mem_of_isNext hsettles)
        (Expr.not_primed_of_part (by simp [Expr.parts]) alone)
    | _ => cases hv
  | frame unsettled primed listed kept =>
    rw [List.mem_singleton.mp hv]
    exact Expr.lookup_eq_ok.mp kept
  | both unsettled left right ihl ihr =>
    have hne : Candidates.conjoin _ _ ≠ .disabled := fun heq => by
      rw [heq] at hv
      exact hv
    rcases (Candidates.lists_conjoin hne).mp hv with hv | hv
    · exact ihl (Expr.not_primed_of_part (by simp [Expr.parts]) alone) hv
    · exact ihr (Expr.not_primed_of_part (by simp [Expr.parts]) alone) hv
  | either unsettled left right joined ihl ihr =>
    refine eq_of_disjoin_lists joined ?_ hv
    simp only [List.mem_cons, List.not_mem_nil, or_false, forall_eq_or_imp, forall_eq]
    exact ⟨fun _ => ihl (Expr.not_primed_of_part (by simp [Expr.parts]) alone),
      fun _ => ihr (Expr.not_primed_of_part (by simp [Expr.parts]) alone)⟩
  | branches unsettled yes no joined ihy ihn =>
    refine eq_of_disjoin_lists joined ?_ hv
    simp only [List.mem_cons, List.not_mem_nil, or_false, forall_eq_or_imp, forall_eq]
    exact ⟨fun _ => ihy (Expr.not_primed_of_part (by simp [Expr.parts]) alone),
      fun _ => ihn (Expr.not_primed_of_part (by simp [Expr.parts]) alone)⟩
  | any unsettled resolved ranges each joined ih =>
    refine eq_of_disjoin_lists joined ?_ hv
    rw [List.forall_mem_map]
    exact fun w hw _ => ih w hw (Expr.not_primed_of_part (by simp [Expr.parts]) alone)
  | @all s x dom body c items f unsettled resolved ranges each ih =>
    have hmeets := Candidates.meets_foldl Candidates.meets_nil (items.map f)
    have hne : (items.map f).foldl Candidates.conjoin .unmentioned ≠ .disabled := fun heq => by
      rw [heq] at hv
      exact hv
    obtain ⟨a, ha, hv⟩ := (hmeets.lists hne v).mp hv
    obtain ⟨w, hw, rfl⟩ := List.mem_map.mp ha
    exact ih w hw (Expr.not_primed_of_part (by simp [Expr.parts]) alone) hv
  | conclusion unsettled resolved known right ih =>
    exact ih (Expr.not_primed_of_part (by simp [Expr.parts]) alone) hv
  | @branch s p y n c a b unsettled resolved known taken ih =>
    have hmem : (if b then y else n) ∈ (Expr.ite s p y n).parts := by
      cases b <;> simp [Expr.parts]
    exact ih (Expr.not_primed_of_part hmem alone) hv
  | definition unsettled resolved known inner ih =>
    exact ih (Expr.not_primed_of_part (by simp [Expr.parts]) alone) hv

/-! ## Candidates of equations -/

/-- Written out, frames refer to the same variables and evaluate to the same. -/
theorem alike_equations (hform : u.form = .primed)
    (given : ∀ i, outer.current.isPending i = false) :
    u.Alike firm outer (.unchanged s xs) (Expr.equations xs) where
  side _ := by
    match xs with
    | [] | [_] | _ :: _ :: _ => rfl
  pending c bound hc := by
    have current : ∀ x, c.pendingIn c.current x = false := fun _ => hc.pendingIn_current given
    rw [Expr.exists_reference_equations (by simp [Context.settles, current])]
    simp [Expr.references, Context.settles, current]
  among c bound _ := by
    rw [Expr.exists_reference_equations (by simp [isAmong, hform])]
    simp [Expr.references, isAmong, hform]
  eval _ := .of_iff fun _ => Expr.eval_equations_eq_ok.symm

theorem alike_expandFrames (hform : u.form = .primed)
    (given : ∀ i, outer.current.isPending i = false) (e : Expr) :
    u.Alike firm outer e e.expandFrames :=
  Expr.of_frames (fun _ _ => alike_equations hform given)
    (fun _ ih => .withParts (Expr.paired_map fun hp => ih _ (List.mem_of_getElem? hp))) e

/-- The unknown is a variable of the next state that is pending, and no binder is around. -/
structure Sought (u : Unknown) (p : Nat) (outer : Context) : Prop extends u.Faces p [] outer where
  primed : u.form = .primed

namespace Sought

variable {p : Nat}

theorem current (sought : u.Sought p outer) (i : Nat) : outer.current.isPending i = false := by
  have := sought.given i
  rwa [sought.primed] at this

-- Where no binder takes a name, it has the value that it has outside.
theorem value?_eq (sought : u.Sought p outer) (hc : outer.Below bound c) (hx : x ∉ bound) :
    c.value? x = outer.value? x := by
  have hlocal : c.local? x = none := by
    simpa [Context.isLocal, hx] using hc.taken x
  have houter : outer.local? x = none := by
    simpa [Context.isLocal] using sought.taken x
  unfold Context.value?
  rw [hlocal, houter, hc.env, hc.current]

theorem keeps (sought : u.Sought p outer) (hc : outer.Below bound c) (hx : x ∉ bound)
    (h : outer.Keeps x) : c.Keeps x := by
  intro v w hv hw
  rw [sought.value?_eq hc hx] at hv
  rw [Context.nextValue?, hc.env, hc.next] at hw
  exact h v w hv hw

theorem open_equations (sought : u.Sought p outer) (hc : outer.Below bound c) (hu : u.name ∈ xs) :
    u.Open c (Expr.equations xs) := by
  have mem : u.name ∈ (Expr.equations xs).namesIn .primed [] := Expr.mem_namesIn_equations.mpr hu
  have pending : c.pendingIn c.next u.name = true := by
    have := sought.pendingIn_solved
    rw [sought.primed] at this
    rw [Context.pendingIn, hc.env, hc.next]
    exact this
  exact ⟨resolves_eq_false mem pending, (isMentioned_iff sought.primed).mpr mem⟩

-- Equations for other variables have nothing to say.
theorem infer_equations_of_not_mem (sought : u.Sought p outer) (hu : u.name ∉ xs)
    (keeps : ∀ x ∈ xs, c.Keeps x) (h : u.infer outer (Expr.equations xs) c = .ok r) :
    r = .unmentioned := by
  by_cases hresolved : c.resolves (Expr.equations xs) [] = true
  · rw [infer_of_resolves hresolved] at h
    simp only [Result.bind_eq_ok, Result.pure_eq_ok] at h
    obtain ⟨b, hb, rfl⟩ := h
    rw [Expr.eq_true_of_holds_equations keeps hb]
    rfl
  · have hfree : u.isMentioned c (Expr.equations xs) = false := by
      rw [← Bool.not_eq_true, isMentioned_iff sought.primed, Expr.mem_namesIn_equations]
      exact hu
    rw [infer_of_not_mentioned (by simpa using hresolved) hfree] at h
    exact (Except.ok.inj h).symm

theorem infer_keeps (sought : u.Sought p outer) (hc : outer.Below bound c) (hu : u.name ∉ bound)
    (h : u.infer outer (Expr.keeps u.name) c = .ok r) :
    ∃ v, outer.value? u.name = some v ∧ r = .values [v] := by
  have hopen : u.Open c (Expr.equations [u.name]) :=
    sought.open_equations hc (List.mem_singleton_self _)
  have hresolved : c.resolves (.name .none u.name) [] = true := by
    simp [Context.resolves, Expr.references, Context.settles, hc.pendingIn_current sought.current]
  have hside : u.isSide c (.primed .none u.name) = true := by
    simp [isSide, sought.primed]
  rw [Expr.keeps, infer_eq hopen, fromEquation, fromSide,
    if_pos (by rw [hside, hresolved]; rfl)] at h
  simp only [Result.bind_eq_ok, Result.pure_eq_ok] at h
  obtain ⟨v, hv, rfl⟩ := h
  exact ⟨v, sought.value?_eq hc hu ▸ Expr.lookup_eq_ok.mp hv, rfl⟩

/-- Equations list the current value of the unknown if it is one of their variables. -/
theorem infer_equations_of_mem (sought : u.Sought p outer) (hc : outer.Below bound c)
    (hu : u.name ∈ xs) (hfree : u.name ∉ bound) (keeps : ∀ x ∈ xs, x ≠ u.name → c.Keeps x)
    (h : u.infer outer (Expr.equations xs) c = .ok r) :
    ∃ v, outer.value? u.name = some v ∧ r.Same (.values [v]) := by
  induction xs generalizing r with
  | nil => cases hu
  | cons x xs ih =>
    obtain ⟨hx, hxs⟩ := List.forall_mem_cons.mp keeps
    cases xs with
    | nil =>
      cases List.mem_singleton.mp hu
      obtain ⟨v, hv, rfl⟩ := sought.infer_keeps hc hfree h
      exact ⟨v, hv, .refl _⟩
    | cons y ys =>
      have hopen : u.Open c (.logical .none .and (Expr.keeps x) (Expr.equations (y :: ys))) :=
        sought.open_equations hc hu
      rw [Expr.equations_cons, infer_and hopen, Result.bind_eq_ok] at h
      obtain ⟨a, ha, h⟩ := h
      have later : ∀ b, u.infer outer (Expr.equations (y :: ys)) c = .ok b →
          u.name ∉ y :: ys → b = .unmentioned := fun b hb hnot =>
        sought.infer_equations_of_not_mem hnot
          (fun z hz => hxs z hz fun heq => hnot (heq ▸ hz)) hb
      by_cases heq : x = u.name
      · subst heq
        obtain ⟨v, hv, rfl⟩ := sought.infer_keeps hc hfree ha
        rw [if_neg (by simp), Result.bind_eq_ok] at h
        obtain ⟨b, hb, h⟩ := h
        cases h
        refine ⟨v, hv, ?_⟩
        by_cases hmem : u.name ∈ y :: ys
        · obtain ⟨v', hv', hsame⟩ := ih hmem hxs hb
          cases hv.symm.trans hv'
          exact ((Candidates.Same.refl _).conjoin hsame).trans (Candidates.conjoin_self_same _)
        · rw [later b hb hmem]
          exact .refl _
      · have hnot : u.name ∉ [x] := by simpa using Ne.symm heq
        have hkeeps : ∀ z ∈ [x], c.Keeps z := by simpa using hx heq
        rw [sought.infer_equations_of_not_mem hnot hkeeps ha, if_neg (by simp),
          Result.bind_eq_ok] at h
        obtain ⟨b, hb, h⟩ := h
        cases h
        have hmem : u.name ∈ y :: ys := (List.mem_cons.mp hu).resolve_left (Ne.symm heq)
        obtain ⟨v, hv, hsame⟩ := ih hmem hxs hb
        exact ⟨v, hv, (Candidates.Same.refl _).conjoin hsame⟩

end Sought

/-- A frame and its equations say the same, if no binder takes a name of the frame and each variable
that shares it with another one keeps its value. -/
theorem infersSame_equations {p : Nat} (sought : u.Sought p outer) (free : ∀ x ∈ xs, x ∉ bound)
    (keeps : ∀ x ∈ xs, ∀ y ∈ xs, x ≠ y → outer.Keeps x) :
    u.InfersSame firm outer bound (.unchanged s xs) (Expr.equations xs) := by
  refine .of_open (alike_equations sought.primed sought.current) fun c hc hopen _ b hb => ?_
  have hu : u.name ∈ xs := by
    have := hopen.mentioned
    simpa [isMentioned, Expr.references, isAmong] using this
  obtain ⟨v, hv, hsame⟩ := sought.infer_equations_of_mem hc hu (free _ hu)
    (fun x hx hne => sought.keeps hc (free x hx) (keeps x hx _ hu hne)) hb
  have hframe : u.infer outer (.unchanged s xs) c = .ok (.values [v]) := by
    rw [infer_unchanged hopen, if_pos (by simp [sought.primed, hu]), Expr.lookup_eq_ok.mpr hv]
    rfl
  refine ⟨fun _ => ⟨_, hframe⟩, fun a ha => ?_⟩
  cases hframe.symm.trans ha
  exact hsame.symm

/-- An expression and the one with its frames written out say the same, if the frames are not
disturbed. -/
theorem infersSame_expandFrames {p : Nat} (sought : u.Sought p outer) {e : Expr}
    (undisturbed : e.Undisturbed outer bound) : u.InfersSame firm outer bound e e.expandFrames := by
  refine Expr.of_frames (P := fun e e' => ∀ bound, e.Undisturbed outer bound →
    u.InfersSame firm outer bound e e') ?_ ?_ e bound undisturbed
  · intro s xs bound h
    have mem : .frame xs bound ∈ (Expr.unchanged s xs).references bound :=
      List.mem_singleton_self _
    exact infersSame_equations sought (h.free xs bound mem) (h.keeps xs bound mem)
  · intro e ih bound h
    exact .withParts (Expr.paired_map fun _ => alike_expandFrames sought.primed sought.current _)
      (Expr.paired_map fun hp => ih _ (List.mem_of_getElem? hp) _ (h.part hp))

end Unknown

/-! ## Successors -/

namespace Relation

variable {firm : Prop} {r : Relation} {env : Env} {current : List Value}
  {slots : List (Option Value)} {p : Nat} {x : String} {v : Value} {vs : List Value}

theorem sought_partialContext (hform : r.form = .primed) (nodup : env.vars.Nodup)
    (hx : env.vars[p]? = some x) (hpending : slots[p]? = some none) :
    (Unknown.mk x r.form).Sought p (r.partialContext env current slots) where
  toFaces := faces_partialContext nodup hx hpending
  primed := hform

-- The value of a name depends on the current state only, not on what is chosen for the next one.
theorem value?_partialContext (hform : r.form = .primed) :
    (r.partialContext env current slots).value? x = (Context.ofState env current).value? x := by
  rw [partialContext_of_primed hform]
  rfl

theorem nextValue?_partialContext (hform : r.form = .primed) :
    (r.partialContext env current slots).nextValue? x =
      (env.variableIndex? x).bind fun i => slots[i]?.join := by
  rw [partialContext_of_primed hform]
  rfl

theorem matches_choices_expandFrames (hform : r.form = .primed) (nodup : env.vars.Nodup)
    (undisturbed : r.body.Undisturbed (r.partialContext env current slots) [])
    (hpending : slots[p]? = some none) :
    Matches firm SameMembers (r.choices env current slots p)
      ({ r with body := r.body.expandFrames }.choices env current slots p) := by
  refine matches_choices fun x hx => ?_
  have sought : (Unknown.mk x r.form).Sought p (r.partialContext env current slots) :=
    sought_partialContext hform nodup hx hpending
  exact Unknown.infersSame_expandFrames sought undisturbed _ (Context.below_self sought.taken)

-- A variable that nothing but frames refers to is not offered another value than its current one.
theorem value?_of_choices (hform : r.form = .primed) (hx : env.variableIndex? x = some p)
    (alone : .primed x ∉ r.body.references [])
    (h : r.choices env current slots p = .ok vs) (hv : v ∈ vs) :
    (Context.ofState env current).value? x = some v := by
  obtain ⟨a, ha, hcases⟩ := choices_eq_ok (Env.getElem?_of_variableIndex? hx) h
  rcases hcases with ⟨-, rfl⟩ | rfl | ⟨-, -, rfl⟩
  · cases hv
  · rw [← value?_partialContext hform]
    exact ha.value_of_lists hform alone hv
  · simp only [Context.value?, Context.local?, Context.ofState, List.lookup_nil, hx]
    exact Option.mem_toList.mp hv

/-- An action and the one with its frames written out are searched in step, if the frames stand
apart. -/
theorem inStep_expandFrames (hform : r.form = .primed) (nodup : env.vars.Nodup)
    (apart : r.body.FramesApart) :
    InStep firm r r.body.expandFrames env current fun slots =>
      r.body.Undisturbed (r.partialContext env current slots) [] where
  eval _ := .of_iff fun _ => Expr.eval_expandFrames_eq_ok.symm
  choices undisturbed hpending := matches_choices_expandFrames hform nodup undisturbed hpending
  start := by
    refine ⟨apart.free, fun xs taken hr x hx y hy hne v w hv hw => ?_⟩
    rw [nextValue?_partialContext hform, Option.bind_eq_some_iff] at hw
    obtain ⟨i, -, hw⟩ := hw
    rw [List.getElem?_replicate] at hw
    split at hw <;> cases hw
  step {slots p vs v} undisturbed hpending hvs hv := by
    have offered : Matches True SameMembers (r.choices env current slots p) _ :=
      matches_choices_expandFrames hform nodup undisturbed hpending
    obtain ⟨vs', hvs', hmem⟩ := offered.exists_ok hvs
    refine ⟨apart.free, fun xs taken hr x hx y hy hne w w' hw hw' => ?_⟩
    rw [nextValue?_partialContext hform, Option.bind_eq_some_iff] at hw'
    obtain ⟨i, hi, hw'⟩ := hw'
    rw [value?_partialContext hform] at hw
    by_cases hip : i = p
    · -- the variable is the one that is chosen, and it is offered its current value only
      subst hip
      rw [List.getElem?_set_self (List.getElem?_eq_some_iff.mp hpending).1] at hw'
      cases hw'
      have hvalue := value?_of_choices hform hi (apart.alone xs taken hr x hx y hy hne) hvs'
        ((hmem v).mpr hv)
      exact Option.some.inj (hw.symm.trans hvalue)
    · rw [List.getElem?_set_ne (Ne.symm hip)] at hw'
      refine undisturbed.keeps xs taken hr x hx y hy hne w w' ?_ ?_
      · rw [value?_partialContext hform]
        exact hw
      · rw [nextValue?_partialContext hform, hi]
        exact hw'

end Relation

/-! ## Framed actions -/

namespace Expr

variable {x : String} {e : Expr} {vars xs : List String}

theorem settlesNext_equations : (equations xs).settlesNext x = xs.contains x := by
  have settlesNext_keeps : ∀ y, (keeps y).settlesNext x = (x == y) := by
    intro y
    simp [keeps, settlesNext, isNext, Bool.beq_eq_decide_eq, eq_comm]
  induction xs with
  | nil => rfl
  | cons y ys ih =>
    rw [List.contains_cons, ← settlesNext_keeps y, ← ih]
    cases ys with
    | nil => exact (Bool.or_false _).symm
    | cons z zs => rfl

theorem isBalanced_equations : (equations xs).isBalanced x = true := by
  induction xs with
  | nil => rfl
  | cons y ys ih =>
    cases ys with
    | nil => rfl
    | cons z zs => exact isBalanced_and.mpr ⟨rfl, ih⟩

theorem binders_equations : (equations xs).binders = [] := by
  induction xs with
  | nil => rfl
  | cons y ys ih =>
    cases ys with
    | nil => rfl
    | cons z zs => exact ih

-- What is the same for all parts is the same for the lists of the parts.
theorem map_expandFrames {α : Type} {F : Expr → α} (h : ∀ p ∈ e.parts, F p.expandFrames = F p) :
    (e.parts.map expandFrames).map F = e.parts.map F := by
  rw [List.map_map]
  exact List.map_congr_left h

theorem isNext_expandFrames (e : Expr) : e.expandFrames.isNext x = e.isNext x := by
  refine of_frames (P := fun e e' => e'.isNext x = e.isNext x) (fun s xs => ?_)
    (fun e _ => isNext_withParts) e
  match xs with
  | [] | [_] | _ :: _ :: _ => rfl

theorem settlesNext_expandFrames (e : Expr) : e.expandFrames.settlesNext x = e.settlesNext x :=
  of_frames (P := fun e e' => e'.settlesNext x = e.settlesNext x)
    (fun _ _ => settlesNext_equations)
    (fun _ ih => settlesNext_withParts (map_expandFrames fun p _ => isNext_expandFrames p)
      (map_expandFrames ih)) e

theorem mem_namesIn_expandFrames (e : Expr) :
    x ∈ e.expandFrames.namesIn .primed [] ↔ x ∈ e.namesIn .primed [] := by
  let c : Context := .ofState ⟨[], [], []⟩ []
  have alike : (Unknown.mk x .primed).Alike False c e e.expandFrames :=
    Unknown.alike_expandFrames rfl (fun _ => rfl) e
  rw [← Unknown.isMentioned_iff (u := ⟨x, .primed⟩) (c := c) rfl,
    ← Unknown.isMentioned_iff (u := ⟨x, .primed⟩) (c := c) rfl,
    alike.isMentioned ⟨rfl, rfl, rfl⟩]

theorem isBalanced_expandFrames (e : Expr) : e.expandFrames.isBalanced x = e.isBalanced x :=
  of_frames (P := fun e e' => e'.isBalanced x = e.isBalanced x)
    (fun _ _ => isBalanced_equations)
    (fun _ ih => isBalanced_withParts
      (map_expandFrames fun p _ => propext (mem_namesIn_expandFrames p))
      (map_expandFrames fun p _ => settlesNext_expandFrames p) (map_expandFrames ih)) e

theorem mem_binders_expandFrames (e : Expr) : x ∈ e.expandFrames.binders ↔ x ∈ e.binders := by
  have inherits := inherits_binders x
  refine of_frames (P := fun e e' => x ∈ e'.binders ↔ x ∈ e.binders) (fun s xs => ?_)
    (fun e ih => ?_) e
  · rw [binders_equations]
    rfl
  · rw [inherits.iff e, inherits.iff (e.withParts _), inherits.own_withParts,
      parts_withParts (List.length_map _)]
    simp only [List.mem_map, exists_exists_and_eq_and]
    exact or_congr_right (exists_congr fun p => and_congr_right (ih p))

/-- An action says of the same variables what becomes of them with its frames written out. -/
theorem Framed.expandFrames (h : e.Framed vars) : e.expandFrames.Framed vars where
  fresh x hx := by
    rw [mem_binders_expandFrames]
    exact h.fresh x hx
  settled x hx hmem := by
    rw [mem_vars, mem_namesIn_expandFrames, ← mem_vars] at hmem
    rw [settlesNext_expandFrames]
    exact h.settled x hx hmem
  balanced x hx := by
    rw [isBalanced_expandFrames]
    exact h.balanced x hx

end Expr

/-! ## Actions of a specification -/

namespace Relation

variable {r : Relation} {env : Env} {current : List Value} {states states' : List State}

/-- An action in which the frames stand apart has the solutions that it has with its frames written
out. -/
theorem states_of_expandFrames (hform : r.form = .primed) (nodup : env.vars.Nodup)
    (apart : r.body.FramesApart) (ordered : r.IsOrdered env)
    (h : { r with body := r.body.expandFrames }.states env current = .ok states) :
    r.states env current = .ok states := by
  have inStep : InStep True r r.body.expandFrames env current _ :=
    inStep_expandFrames hform nodup apart
  obtain ⟨states', h', heq⟩ := (inStep.matches_states ordered).exists_ok h
  exact heq ▸ h'

-- What is found for one of two actions that mean the same and mention the same variables is found
-- for the other, if that says of each variable what becomes of it.
theorem mem_states_of_framed {name : String} {body body' : Expr} {s : State}
    (nodup : env.vars.Nodup) (full : current.length = env.vars.length)
    (framed : body'.Framed env.vars) (hvars : ∀ x, x ∈ body.vars .primed ↔ x ∈ body'.vars .primed)
    (holds : ∀ c, body.holds c = .ok true ↔ body'.holds c = .ok true)
    (h : (action name body env.vars).states env current = .ok states)
    (h' : (action name body' env.vars).states env current = .ok states')
    (hs : s ∈ states) : s ∈ states' := by
  have ordered := isOrdered_action name body env
  have hsolves := solves_of_mem_states ordered h hs
  have hlength := length_of_mem_states ordered h hs
  have hholds := (holds _).mp hsolves.holds
  refine mem_states (isOrdered_action name body' env) h' hlength hholds
    (offered_of_framed rfl nodup framed full hlength hholds fun i x hx hfree => ?_)
  have hi : i < env.vars.length := (List.getElem?_eq_some_iff.mp hx).1
  exact hsolves.kept rfl (ordered.mem_iff.mpr (List.mem_range.mpr hi))
    (by rw [List.length_replicate]; exact hi) hx (mt (hvars x).mp hfree)

/-- A framed action and the one with its frames written out have the same solutions. -/
theorem states_eq_of_framed {name : String} {body : Expr} (nodup : env.vars.Nodup)
    (full : current.length = env.vars.length) (framed : body.Framed env.vars)
    (h : (action name body env.vars).states env current = .ok states)
    (h' : (action name body.expandFrames env.vars).states env current = .ok states') :
    states = states' := by
  have hvars : ∀ x, x ∈ body.vars .primed ↔ x ∈ body.expandFrames.vars .primed := by
    intro x
    rw [Expr.mem_vars, Expr.mem_vars, Expr.mem_namesIn_expandFrames]
  have holds : ∀ c, body.holds c = .ok true ↔ body.expandFrames.holds c = .ok true := fun c =>
    Expr.holds_expandFrames_eq_ok.symm
  refine Sorted.eq_of_increasing (increasing_states h) (increasing_states h') fun s => ⟨?_, ?_⟩
  · exact mem_states_of_framed nodup full framed.expandFrames hvars holds h h'
  · exact mem_states_of_framed nodup full framed (fun x => (hvars x).symm)
      (fun c => (holds c).symm) h' h

end Relation

namespace Model

variable {spec : Spec} {constants : List Value}

/-- An action with its frames written out has certain successors. The action itself has the same
ones, if its frames stand apart and the variables are solved for in the same order. If it says in
all alternatives what becomes of each variable, it has no others. -/
theorem successors_of_expandFrames (nodup : spec.variableNames.Nodup) {action : Nat}
    {d : Definition} (hd : spec.actions[action]? = some d) {s : State} {states : List State}
    (h : (ofSpec { spec with actions := spec.actions.set action { d with
        body := d.body.expandFrames } } constants).successors action s = .ok states) :
    (d.body.FramesApart → d.body.solvingOrder spec.variableNames .primed =
        d.body.expandFrames.solvingOrder spec.variableNames .primed →
      (ofSpec spec constants).successors action s = .ok states) ∧
    (d.body.Framed spec.variableNames → s.values.length = spec.vars.length →
      ∀ states', (ofSpec spec constants).successors action s = .ok states' → states' = states) := by
  let env := (ofSpec spec constants).env
  rw [successors_set_eq hd] at h
  rw [successors_eq hd]
  constructor
  · intro apart order
    rw [Relation.action_eq order] at h
    exact Relation.states_of_expandFrames rfl nodup apart
      (Relation.isOrdered_action d.name d.body env) h
  · intro framed full states' h'
    have full' : s.values.length = env.vars.length := full.trans (length_vars spec constants).symm
    exact @Relation.states_eq_of_framed env _ _ _ d.name _ nodup full' framed h' h

def framing (names : List String) (body : Expr) : Spec where
  name := "Framing"
  vars := names.map fun x => ⟨x, .none⟩
  actions := [⟨"Frame", body, .none⟩]

/-- The action `(\E k \in 1..2 : z' = k /\ UNCHANGED <<x, y>>) \/
(z' = 3 /\ (UNCHANGED x /\ UNCHANGED y))` -/
def hold : Expr :=
  .logical .none .or
    (.bind .none .any "k" (.range .none (.literal .none (.int 1)) (.literal .none (.int 2)))
      (.logical .none .and (.binary .none .eq (.primed .none "z") (.name .none "k"))
        (.unchanged .none ["x", "y"])))
    (.logical .none .and (.binary .none .eq (.primed .none "z") (.literal .none (.int 3)))
      (.logical .none .and (.unchanged .none ["x"]) (.unchanged .none ["y"])))

theorem framesApart_hold : hold.FramesApart := by
  have frames : ∀ xs bound, .frame xs bound ∈ hold.references [] →
      xs = ["x", "y"] ∧ bound = ["k"] ∨ xs = ["x"] ∧ bound = [] ∨ xs = ["y"] ∧ bound = [] := by
    simp [hold, Expr.references]
  constructor
  · intro xs bound h
    rcases frames xs bound h with ⟨rfl, rfl⟩ | ⟨rfl, rfl⟩ | ⟨rfl, rfl⟩ <;> decide
  · intro xs bound h
    rcases frames xs bound h with ⟨rfl, rfl⟩ | ⟨rfl, rfl⟩ | ⟨rfl, rfl⟩ <;> decide

theorem framed_hold : hold.Framed ["x", "y", "z"] where
  fresh := by decide
  settled := by
    simp only [Expr.mem_vars]
    decide
  balanced := by decide

theorem successors_of_expandFrames_hold :
    let spec := framing ["x", "y", "z"] hold
    let spec' := framing ["x", "y", "z"] hold.expandFrames
    let s : State := ⟨[.int 4, .int 5, .int 6]⟩
    let states : List State := [⟨[.int 4, .int 5, .int 1]⟩, ⟨[.int 4, .int 5, .int 2]⟩,
      ⟨[.int 4, .int 5, .int 3]⟩]
    (ofSpec spec' []).successors 0 s = .ok states ∧ hold.FramesApart ∧
      hold.Framed spec.variableNames ∧ (ofSpec spec []).successors 0 s = .ok states ∧
      ∀ states', (ofSpec spec []).successors 0 s = .ok states' → states' = states := by
  intro spec spec' s states
  have h : (ofSpec spec' []).successors 0 s = .ok states := by cbv
  have hd : spec.actions[0]? = some ⟨"Frame", hold, .none⟩ := rfl
  obtain ⟨same, unique⟩ := successors_of_expandFrames (by decide) hd h
  exact ⟨h, framesApart_hold, framed_hold, same framesApart_hold (by decide),
    unique framed_hold rfl⟩

/-- The action `\E x \in {1, 2} : UNCHANGED x` -/
def captured : Expr :=
  .bind .none .any "x" (.set .none [.literal .none (.int 1), .literal .none (.int 2)])
    (.unchanged .none ["x"])

/-- The action `y' \in {1, 2} /\ (LET k == y' IN UNCHANGED x)` -/
def delayed : Expr :=
  .logical .none .and
    (.binary .none .mem (.primed .none "y")
      (.set .none [.literal .none (.int 1), .literal .none (.int 2)]))
    (.letIn .none "k" (.primed .none "y") (.unchanged .none ["x"]))

/-- The action `(UNCHANGED <<x, y>> /\ y' \in {5}) \/ x' = 1` -/
def shared : Expr :=
  .logical .none .or
    (.logical .none .and (.unchanged .none ["x", "y"])
      (.binary .none .mem (.primed .none "y") (.set .none [.literal .none (.int 5)])))
    (.binary .none .eq (.primed .none "x") (.literal .none (.int 1)))

-- A frame lists the value of the variable where its equation lists that of the binder. A frame
-- below a definition does not wait for what is defined. A frame that is false for one variable
-- still waits for another one.
theorem successors_ne_expandFrames :
    let model (body : Expr) := ofSpec (framing ["x", "y"] body) []
    let s : State := ⟨[.int 0, .int 0]⟩
    ((model captured).successors 0 s = .ok [] ∧
      (model captured.expandFrames).successors 0 s =
        .ok [⟨[.int 1, .int 0]⟩, ⟨[.int 2, .int 0]⟩]) ∧
    ((∃ e, (model delayed).successors 0 s = .error e) ∧
      (model delayed.expandFrames).successors 0 s =
        .ok [⟨[.int 0, .int 1]⟩, ⟨[.int 0, .int 2]⟩]) ∧
    (model shared).successors 0 s = .ok [⟨[.int 1, .int 0]⟩, ⟨[.int 1, .int 5]⟩] ∧
      (model shared.expandFrames).successors 0 s = .ok [⟨[.int 1, .int 0]⟩] := by
  intro model s
  have hdelayed : (model delayed).successors 0 s =
      .error (Unknown.noSource ⟨"x", .primed⟩ .none) := by cbv
  exact ⟨⟨by cbv, by cbv⟩, ⟨⟨_, hdelayed⟩, by cbv⟩, by cbv, by cbv⟩

end Model

end ActionSystem
