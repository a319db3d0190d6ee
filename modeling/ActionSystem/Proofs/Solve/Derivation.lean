import ActionSystem.Proofs.Solve.Candidates

/-!
# Derivations of candidates

One step of inference for each kind of expression, as an equation, and the rules by which
candidates are inferred, one for each way in which an expression contributes. Every inference that
succeeds follows these rules, so that a property of candidates is shown by going through the rules
once. What has to be known about a step that gives no candidates is shown from the equations.
-/

namespace ActionSystem

theorem Context.pendingIn_eq_false {c : Context} {slots : Slots} {x : String}
    (h : ∀ i, c.env.variableIndex? x = some i → slots.isPending i = false) :
    c.pendingIn slots x = false := by
  unfold pendingIn
  cases hi : c.env.variableIndex? x with
  | none => rfl
  | some i => exact h i hi

namespace Unknown

variable {u : Unknown} {outer : Context}

structure Open (u : Unknown) (c : Context) (e : Expr) : Prop where
  unresolved : c.resolves e [] = false
  mentioned : u.isMentioned c e = true

/-! ## Inference step by step -/

section

variable {c : Context} {e l r p y n d v body : Expr} {s : Span} {x : String}

theorem infer_of_resolves (h : c.resolves e [] = true) :
    u.infer outer e c = do return fromTruth (← e.holds c) := by
  unfold infer
  rw [if_pos h]

theorem infer_of_not_mentioned (h : c.resolves e [] = false) (free : u.isMentioned c e = false) :
    u.infer outer e c = .ok .unmentioned := by
  unfold infer
  rw [if_neg (by simp [h]), if_pos (by simp [free])]

def isMute : Expr → Bool
  | .binary _ op _ _ => op ≠ .eq ∧ op ≠ .mem
  | .bind _ b _ _ _ => b ≠ .any ∧ b ≠ .all
  | .logical _ _ _ _ | .ite _ _ _ _ | .letIn _ _ _ _ | .unchanged _ _ => false
  | _ => true

theorem infer_of_isMute (h : u.Open c e) (mute : isMute e = true) :
    u.infer outer e c = .ok .constrained := by
  unfold infer
  rw [if_neg (by simp [h.unresolved]), if_neg (by simp [h.mentioned])]
  split
  all_goals first | rfl | simp [isMute] at mute

-- Of an expression that is open, inference goes on with the parts.
theorem Open.goesOn (h : u.Open c e) {known free step : Except EvalError Candidates} :
    (if c.resolves e [] then known else if !u.isMentioned c e then free else step) = step := by
  rw [if_neg (by simp [h.unresolved]), if_neg (by simp [h.mentioned])]

theorem infer_eq (h : u.Open c (.binary s .eq l r)) :
    u.infer outer (.binary s .eq l r) c = u.fromEquation c l r := h.goesOn

theorem infer_mem (h : u.Open c (.binary s .mem l r)) :
    u.infer outer (.binary s .mem l r) c = u.fromMembership c l r := h.goesOn

theorem infer_and (h : u.Open c (.logical s .and l r)) :
    u.infer outer (.logical s .and l r) c = (do
      let a ← u.infer outer l c
      if a = .disabled then return .disabled
      else return a.conjoin (← u.infer outer r c)) := h.goesOn

theorem infer_or (h : u.Open c (.logical s .or l r)) :
    u.infer outer (.logical s .or l r) c = (do
      let a ← u.infer outer l c
      let b ← u.infer outer r c
      u.disjoin outer [a, b]) := h.goesOn

theorem infer_implies (h : u.Open c (.logical s .implies l r)) :
    u.infer outer (.logical s .implies l r) c =
      if c.resolves l [] then do
        if ← l.holds c then u.infer outer r c else return .unmentioned
      else .ok .constrained := h.goesOn

theorem infer_ite (h : u.Open c (.ite s p y n)) :
    u.infer outer (.ite s p y n) c =
      if c.resolves p [] then do
        if ← p.holds c then u.infer outer y c else u.infer outer n c
      else (do
        let a ← u.infer outer y c
        let b ← u.infer outer n c
        u.disjoin outer [a, b]) := h.goesOn

theorem infer_any (h : u.Open c (.bind s .any x d body)) :
    u.infer outer (.bind s .any x d body) c =
      if c.resolves d [] then do
        let items ← d.domain c
        let cs ← items.mapM fun v => u.infer outer body (c.bind x v)
        u.disjoin outer cs
      else .ok .constrained := h.goesOn

theorem infer_all (h : u.Open c (.bind s .all x d body)) :
    u.infer outer (.bind s .all x d body) c =
      if c.resolves d [] then do
        let items ← d.domain c
        conjoinAll (fun v => u.infer outer body (c.bind x v)) .unmentioned items
      else .ok .constrained := h.goesOn

theorem infer_letIn (h : u.Open c (.letIn s x v body)) :
    u.infer outer (.letIn s x v body) c =
      if c.resolves v [] then do
        let w ← v.eval c
        u.infer outer body (c.bind x w)
      else .ok .constrained := h.goesOn

theorem infer_unchanged {xs : List String} (h : u.Open c (.unchanged s xs)) :
    u.infer outer (.unchanged s xs) c =
      if u.form = .primed && xs.contains u.name then do
        return .values [← outer.lookup s u.name]
      else .ok .constrained := h.goesOn

end

/-! ## Rules -/

inductive Infers (u : Unknown) (outer : Context) : Expr → Context → Candidates → Prop where
  | truth {e c b} (resolved : c.resolves e [] = true) (known : e.holds c = .ok b) :
      Infers u outer e c (fromTruth b)
  | unmentioned {e c} (free : u.isMentioned c e = false) : Infers u outer e c .unmentioned
  | constrained {e c} (unsettled : u.Open c e) : Infers u outer e c .constrained
  | equation {s l r c a} (unsettled : u.Open c (.binary s .eq l r))
      (read : u.fromEquation c l r = .ok a) : Infers u outer (.binary s .eq l r) c a
  | membership {s l r c a} (unsettled : u.Open c (.binary s .mem l r))
      (read : u.fromMembership c l r = .ok a) : Infers u outer (.binary s .mem l r) c a
  | frame {s xs c v} (unsettled : u.Open c (.unchanged s xs)) (primed : u.form = .primed)
      (listed : u.name ∈ xs) (kept : outer.lookup s u.name = .ok v) :
      Infers u outer (.unchanged s xs) c (.values [v])
  | both {s l r c a b} (unsettled : u.Open c (.logical s .and l r))
      (left : Infers u outer l c a) (right : Infers u outer r c b) :
      Infers u outer (.logical s .and l r) c (a.conjoin b)
  | leftDisabled {s l r c} (unsettled : u.Open c (.logical s .and l r))
      (left : Infers u outer l c .disabled) : Infers u outer (.logical s .and l r) c .disabled
  | either {s l r c a b d} (unsettled : u.Open c (.logical s .or l r))
      (left : Infers u outer l c a) (right : Infers u outer r c b)
      (joined : u.disjoin outer [a, b] = .ok d) : Infers u outer (.logical s .or l r) c d
  | conclusion {s l r c a} (unsettled : u.Open c (.logical s .implies l r))
      (resolved : c.resolves l [] = true) (known : l.holds c = .ok true)
      (right : Infers u outer r c a) : Infers u outer (.logical s .implies l r) c a
  | vacuous {s l r c} (unsettled : u.Open c (.logical s .implies l r))
      (resolved : c.resolves l [] = true) (known : l.holds c = .ok false) :
      Infers u outer (.logical s .implies l r) c .unmentioned
  | branch {s p y n c a b} (unsettled : u.Open c (.ite s p y n))
      (resolved : c.resolves p [] = true) (known : p.holds c = .ok b)
      (taken : Infers u outer (if b then y else n) c a) : Infers u outer (.ite s p y n) c a
  | branches {s p y n c a b d} (unsettled : u.Open c (.ite s p y n))
      (yes : Infers u outer y c a) (no : Infers u outer n c b)
      (joined : u.disjoin outer [a, b] = .ok d) : Infers u outer (.ite s p y n) c d
  | any {s x d body c items f a} (unsettled : u.Open c (.bind s .any x d body))
      (resolved : c.resolves d [] = true) (ranges : d.domain c = .ok items)
      (each : ∀ v ∈ items, Infers u outer body (c.bind x v) (f v))
      (joined : u.disjoin outer (items.map f) = .ok a) :
      Infers u outer (.bind s .any x d body) c a
  | all {s x d body c items f} (unsettled : u.Open c (.bind s .all x d body))
      (resolved : c.resolves d [] = true) (ranges : d.domain c = .ok items)
      (each : ∀ v ∈ items, Infers u outer body (c.bind x v) (f v)) :
      Infers u outer (.bind s .all x d body) c ((items.map f).foldl .conjoin .unmentioned)
  | oneDisabled {s x d body c items v} (unsettled : u.Open c (.bind s .all x d body))
      (resolved : c.resolves d [] = true) (ranges : d.domain c = .ok items) (mem : v ∈ items)
      (one : Infers u outer body (c.bind x v) .disabled) :
      Infers u outer (.bind s .all x d body) c .disabled
  | definition {s x v body c w a} (unsettled : u.Open c (.letIn s x v body))
      (resolved : c.resolves v [] = true) (known : v.eval c = .ok w)
      (inner : Infers u outer body (c.bind x w) a) : Infers u outer (.letIn s x v body) c a

-- A condition for all items is disabled by one of them, or what they say is put together.
theorem conjoinAll_eq_ok {body : Value → Except EvalError Candidates} {acc r : Candidates}
    {items : List Value} (h : conjoinAll body acc items = .ok r) :
    (r = .disabled ∧ ∃ v ∈ items, body v = .ok .disabled) ∨
      ∃ f : Value → Candidates, (∀ v ∈ items, body v = .ok (f v)) ∧
        r = (items.map f).foldl .conjoin acc := by
  let f : Value → Candidates := fun v => (body v).toOption.getD .constrained
  suffices hf : (r = .disabled ∧ ∃ v ∈ items, body v = .ok .disabled) ∨
      (∀ v ∈ items, body v = .ok (f v)) ∧ r = (items.map f).foldl .conjoin acc from
    hf.imp id fun hf => ⟨f, hf⟩
  induction items generalizing acc with
  | nil =>
    cases h
    exact .inr ⟨by simp, rfl⟩
  | cons v vs ih =>
    rw [conjoinAll, Result.bind_eq_ok] at h
    obtain ⟨a, ha, h⟩ := h
    have hfv : f v = a := by
      simp only [f, ha, Except.toOption, Option.getD_some]
    by_cases hdis : a = .disabled
    · rw [if_pos hdis, Result.pure_eq_ok] at h
      exact .inl ⟨h.symm, v, List.mem_cons_self, hdis ▸ ha⟩
    · rw [if_neg hdis] at h
      rcases ih h with ⟨hr, w, hw, hbody⟩ | ⟨hall, hr⟩
      · exact .inl ⟨hr, w, List.mem_cons_of_mem _ hw, hbody⟩
      · refine .inr ⟨List.forall_mem_cons.mpr ⟨hfv ▸ ha, hall⟩, ?_⟩
        rw [List.map_cons, List.foldl_cons, hfv]
        exact hr

/-- An inference that succeeds follows the rules. -/
theorem infers_of_infer {e : Expr} {c : Context} {r : Candidates}
    (h : u.infer outer e c = .ok r) : u.Infers outer e c r := by
  induction e using Expr.of_parts generalizing c r with
  | step e ih =>
    cases hresolved : c.resolves e [] with
    | true =>
      rw [infer_of_resolves hresolved] at h
      obtain ⟨b, hb, h⟩ := Result.bind_eq_ok.mp h
      cases h
      exact .truth hresolved hb
    | false =>
    cases hmentioned : u.isMentioned c e with
    | false =>
      rw [infer_of_not_mentioned hresolved hmentioned] at h
      cases h
      exact .unmentioned hmentioned
    | true =>
    have hopen : u.Open c e := ⟨hresolved, hmentioned⟩
    have hconstrained : (.ok .constrained : Except EvalError Candidates) = .ok r →
        u.Infers outer e c r := fun hr => Except.ok.inj hr ▸ .constrained hopen
    have hmute : isMute e = true → u.Infers outer e c r := fun mute =>
      hconstrained (infer_of_isMute hopen mute ▸ h)
    cases e with
    | binary s op l m =>
      cases op with
      | eq => exact .equation hopen (infer_eq hopen ▸ h)
      | mem => exact .membership hopen (infer_mem hopen ▸ h)
      | _ => exact hmute rfl
    | logical s op l m =>
      have hl := fun {a} => ih l (by simp [Expr.parts]) (c := c) (r := a)
      have hm := fun {a} => ih m (by simp [Expr.parts]) (c := c) (r := a)
      cases op with
      | and =>
        rw [infer_and hopen] at h
        obtain ⟨a, ha, h⟩ := Result.bind_eq_ok.mp h
        by_cases hdis : a = .disabled
        · rw [if_pos hdis, Result.pure_eq_ok] at h
          exact h ▸ .leftDisabled hopen (hdis ▸ hl ha)
        · rw [if_neg hdis] at h
          obtain ⟨b, hb, h⟩ := Result.bind_eq_ok.mp h
          cases h
          exact .both hopen (hl ha) (hm hb)
      | or =>
        rw [infer_or hopen] at h
        obtain ⟨a, ha, h⟩ := Result.bind_eq_ok.mp h
        obtain ⟨b, hb, h⟩ := Result.bind_eq_ok.mp h
        exact .either hopen (hl ha) (hm hb) h
      | implies =>
        rw [infer_implies hopen] at h
        by_cases hpremise : c.resolves l [] = true
        · rw [if_pos hpremise] at h
          obtain ⟨b, hb, h⟩ := Result.bind_eq_ok.mp h
          cases b with
          | true => exact .conclusion hopen hpremise hb (hm h)
          | false =>
            cases h
            exact .vacuous hopen hpremise hb
        · rw [if_neg hpremise] at h
          exact hconstrained h
    | ite s p y n =>
      rw [infer_ite hopen] at h
      by_cases hp : c.resolves p [] = true
      · rw [if_pos hp] at h
        obtain ⟨b, hb, h⟩ := Result.bind_eq_ok.mp h
        refine .branch hopen hp hb ?_
        cases b with
        | true => exact ih y (by simp [Expr.parts]) h
        | false => exact ih n (by simp [Expr.parts]) h
      · rw [if_neg hp] at h
        obtain ⟨a, ha, h⟩ := Result.bind_eq_ok.mp h
        obtain ⟨b, hb, h⟩ := Result.bind_eq_ok.mp h
        exact .branches hopen (ih y (by simp [Expr.parts]) ha) (ih n (by simp [Expr.parts]) hb) h
    | bind s b x d body =>
      have hbody := fun {v a} => ih body (by simp [Expr.parts]) (c := c.bind x v) (r := a)
      cases b with
      | any =>
        rw [infer_any hopen] at h
        by_cases hd : c.resolves d [] = true
        · rw [if_pos hd] at h
          obtain ⟨items, hitems, h⟩ := Result.bind_eq_ok.mp h
          obtain ⟨cs, hcs, h⟩ := Result.bind_eq_ok.mp h
          have : Nonempty Candidates := ⟨.constrained⟩
          obtain ⟨f, hf, rfl⟩ := Result.exists_map_of_mapM hcs
          exact .any hopen hd hitems (fun v hv => hbody (hf v hv)) h
        · rw [if_neg hd] at h
          exact hconstrained h
      | all =>
        rw [infer_all hopen] at h
        by_cases hd : c.resolves d [] = true
        · rw [if_pos hd] at h
          obtain ⟨items, hitems, h⟩ := Result.bind_eq_ok.mp h
          rcases conjoinAll_eq_ok h with ⟨rfl, v, hv, hone⟩ | ⟨f, hf, rfl⟩
          · exact .oneDisabled hopen hd hitems hv (hbody hone)
          · exact .all hopen hd hitems fun v hv => hbody (hf v hv)
        · rw [if_neg hd] at h
          exact hconstrained h
      | _ => exact hmute rfl
    | letIn s x v body =>
      rw [infer_letIn hopen] at h
      by_cases hv : c.resolves v [] = true
      · rw [if_pos hv] at h
        obtain ⟨w, hw, h⟩ := Result.bind_eq_ok.mp h
        exact .definition hopen hv hw (ih body (by simp [Expr.parts]) h)
      · rw [if_neg hv] at h
        exact hconstrained h
    | unchanged s xs =>
      rw [infer_unchanged hopen] at h
      by_cases hframe : (decide (u.form = .primed) && xs.contains u.name) = true
      · rw [if_pos hframe] at h
        obtain ⟨v, hv, h⟩ := Result.bind_eq_ok.mp h
        cases h
        rw [Bool.and_eq_true, decide_eq_true_eq, List.contains_iff_mem] at hframe
        exact .frame hopen hframe.1 hframe.2 hv
      · rw [if_neg hframe] at h
        exact hconstrained h
    | _ => exact hmute rfl

end Unknown

end ActionSystem
