import Mathlib
import ActionSystem.Proofs.Solve.Foresight
import ActionSystem.Proofs.Solve.Replacement
import ActionSystem.Proofs.Solve.Solutions

/-!
# Local definitions and candidates

An inference looks at a context only through the free references of the expression: contexts that
agree on these give the same candidates. A local definition can therefore be moved into the context
when candidates are asked for. The set of candidates is asked for without regard to the binders of
the context, so that for sets this holds only if the name is not read, or has the same value without
the binder.
-/

namespace ActionSystem

namespace Context

variable {c : Context} {e : Expr} {bound : List String} {x y : String} {v : Value}

theorem settles_name_bind :
    (c.bind x v).settles (.name y) = (y == x || c.settles (.name y)) := by
  simp only [settles, isLocal_bind, Bool.or_assoc]
  rfl

end Context

namespace Unknown

variable {u : Unknown} {outer outer' c c' : Context} {e p : Expr} {bound : List String} {x : String}
  {r : Reference}

theorem isAmong_name_bind {y : String} {v : Value} :
    u.isAmong (c.bind x v) (.name y) = (!(y == x) && u.isAmong c (.name y)) := by
  simp only [isAmong, Context.isLocal_bind, Bool.not_or]
  cases y == x <;> simp

/-! ## Contexts that cannot be told apart -/

/-- The contexts give the same value to what is referred to, have it pending or not, and take it for
the unknown or not. -/
structure Indistinct (u : Unknown) (c c' : Context) (r : Reference) : Prop where
  agrees : c.Agrees c' r
  settles : c.settles r = c'.settles r
  among : u.isAmong c r = u.isAmong c' r

theorem Indistinct.bind (h : u.Indistinct c c' r) (x : String) (v : Value) :
    u.Indistinct (c.bind x v) (c'.bind x v) r where
  agrees := h.agrees.bind x v
  settles := by
    cases r with
    | name y => rw [Context.settles_name_bind, Context.settles_name_bind, h.settles]
    | primed y | frame ys bound => exact h.settles
  among := by
    cases r with
    | name y => rw [isAmong_name_bind, isAmong_name_bind, h.among]
    | primed y | frame ys bound => rfl

/-- Below binders of the names `bound`, which both contexts take, the contexts cannot be told apart
by what the expression refers to. -/
structure Hides (u : Unknown) (bound : List String) (c c' : Context) (e : Expr) : Prop where
  value : ∀ y ∈ bound, c.value? y = c'.value? y
  left : ∀ y ∈ bound, c.isLocal y = true
  right : ∀ y ∈ bound, c'.isLocal y = true
  free : ∀ r ∈ e.references bound, u.Indistinct c c' r

namespace Hides

theorem part (h : u.Hides bound c c' e) {i : Nat} (hp : e.parts[i]? = some p)
    (same : e.taken i = []) : u.Hides bound c c' p :=
  ⟨h.value, h.left, h.right, fun r hr => h.free r (Expr.mem_references.mpr (.inr ⟨i, p, hp, by
    rw [same]
    exact hr⟩))⟩

theorem body (h : u.Hides bound c c' e) {i : Nat} (hp : e.parts[i]? = some p)
    (below : e.taken i = [x]) (v : Value) :
    u.Hides (x :: bound) (c.bind x v) (c'.bind x v) p where
  value y hy := by
    rcases List.mem_cons.mp hy with rfl | hy
    · rw [Context.value?_bind_self, Context.value?_bind_self]
    · exact Context.value?_bind_congr (h.value y hy) x v
  left y hy := by
    rw [Context.isLocal_bind]
    rcases List.mem_cons.mp hy with rfl | hy
    · simp
    · simp [h.left y hy]
  right y hy := by
    rw [Context.isLocal_bind]
    rcases List.mem_cons.mp hy with rfl | hy
    · simp
    · simp [h.right y hy]
  free r hr := by
    refine (h.free r (Expr.mem_references.mpr (.inr ⟨i, p, hp, ?_⟩))).bind x v
    rw [below]
    exact hr

theorem eval (h : u.Hides bound c c' e) : e.eval c = e.eval c' :=
  Expr.eval_congr h.value fun r hr => (h.free r hr).agrees

theorem holds (h : u.Hides bound c c' e) : e.holds c = e.holds c' := by
  rw [Expr.holds, Expr.holds, h.eval]

theorem domain (h : u.Hides bound c c' e) : e.domain c = e.domain c' := by
  rw [Expr.domain, Expr.domain, h.eval]

theorem resolves (h : u.Hides bound c c' e) : c.resolves e [] = c'.resolves e [] := by
  rw [← Context.resolves_append h.left, ← Context.resolves_append h.right, Context.resolves,
    Context.resolves, Bool.eq_iff_iff, List.all_eq_true, List.all_eq_true]
  exact forall₂_congr fun r hr => by rw [(h.free r hr).settles]

theorem isMentioned (h : u.Hides bound c c' e) : u.isMentioned c e = u.isMentioned c' e := by
  rw [← isMentioned_append h.left, ← isMentioned_append h.right, Bool.eq_iff_iff,
    List.any_eq_true, List.any_eq_true]
  exact exists_congr fun r => and_congr_right fun hr => by rw [(h.free r hr).among]

theorem isSide (h : u.Hides bound c c' e) : u.isSide c e = u.isSide c' e := by
  cases e with
  | name s y =>
    by_cases hy : y ∈ bound
    · simp [Unknown.isSide, h.left y hy, h.right y hy]
    · exact (h.free (.name y) (by simp [Expr.references, hy])).among
  | _ => rfl

theorem fromSide {side other : Expr} (hs : u.Hides bound c c' side)
    (ho : u.Hides bound c c' other) : u.fromSide c side other = u.fromSide c' side other := by
  rw [Unknown.fromSide, Unknown.fromSide, hs.isSide, ho.resolves, ho.eval]

end Hides

theorem disjoin_congr (kept : outer.value? u.name = outer'.value? u.name) :
    u.disjoin outer = u.disjoin outer' := by
  funext cs
  unfold disjoin
  rw [Context.lookup_congr kept]

/-- Candidates depend on what the expression refers to, and on the value that the unknown has
without a change. -/
theorem infer_congr (kept : outer.value? u.name = outer'.value? u.name)
    (h : u.Hides bound c c' e) : u.infer outer e c = u.infer outer' e c' := by
  induction e using Expr.of_parts generalizing c c' bound with
  | step e ih =>
    by_cases hresolved : c.resolves e [] = true
    · rw [infer_of_resolves hresolved, infer_of_resolves (h.resolves ▸ hresolved), h.holds]
    rw [Bool.not_eq_true] at hresolved
    have hresolved' : c'.resolves e [] = false := h.resolves ▸ hresolved
    by_cases hmentioned : u.isMentioned c e = true
    case neg =>
      rw [Bool.not_eq_true] at hmentioned
      rw [infer_of_not_mentioned hresolved hmentioned,
        infer_of_not_mentioned hresolved' (h.isMentioned ▸ hmentioned)]
    have hopen : u.Open c e := ⟨hresolved, hmentioned⟩
    have hopen' : u.Open c' e := ⟨hresolved', h.isMentioned ▸ hmentioned⟩
    by_cases mute : isMute e = true
    · rw [infer_of_isMute hopen mute, infer_of_isMute hopen' mute]
    have part : ∀ p ∈ e.parts, u.Hides bound c c' p → u.infer outer p c = u.infer outer' p c' :=
      fun p hp hides => ih p hp hides
    cases e with
    | unchanged s xs =>
      rw [infer_unchanged hopen, infer_unchanged hopen', Context.lookup_congr kept]
    | binary s op l r =>
      have hl : u.Hides bound c c' l := h.part (i := 0) rfl rfl
      have hr : u.Hides bound c c' r := h.part (i := 1) rfl rfl
      cases op with
      | eq =>
        rw [infer_eq hopen, infer_eq hopen', fromEquation, fromEquation, hl.fromSide hr,
          hr.fromSide hl]
      | mem =>
        rw [infer_mem hopen, infer_mem hopen', fromMembership, fromMembership, hl.fromSide hr]
      | _ => simp [isMute] at mute
    | logical s op l r =>
      have hl : u.Hides bound c c' l := h.part (i := 0) rfl rfl
      have hr : u.Hides bound c c' r := h.part (i := 1) rfl rfl
      have hil := part l (by simp [Expr.parts]) hl
      have hir := part r (by simp [Expr.parts]) hr
      cases op with
      | and => rw [infer_and hopen, infer_and hopen', hil, hir]
      | or => rw [infer_or hopen, infer_or hopen', hil, hir, disjoin_congr kept]
      | implies => rw [infer_implies hopen, infer_implies hopen', hl.resolves, hl.holds, hir]
    | ite s p y n =>
      have hp : u.Hides bound c c' p := h.part (i := 0) rfl rfl
      have hiy := part y (by simp [Expr.parts]) (h.part (i := 1) rfl rfl)
      have hin := part n (by simp [Expr.parts]) (h.part (i := 2) rfl rfl)
      rw [infer_ite hopen, infer_ite hopen', hp.resolves, hp.holds, hiy, hin, disjoin_congr kept]
    | bind s b x d body =>
      have hd : u.Hides bound c c' d := h.part (i := 0) rfl rfl
      have each : ∀ v, u.infer outer body (c.bind x v) = u.infer outer' body (c'.bind x v) :=
        fun v => ih body (by simp [Expr.parts]) (h.body (i := 1) rfl rfl v)
      cases b with
      | any =>
        rw [infer_any hopen, infer_any hopen', hd.resolves, hd.domain, disjoin_congr kept]
        simp only [each]
      | all =>
        rw [infer_all hopen, infer_all hopen', hd.resolves, hd.domain]
        simp only [each]
      | _ => simp [isMute] at mute
    | letIn s x v body =>
      have hv : u.Hides bound c c' v := h.part (i := 0) rfl rfl
      have each : ∀ w, u.infer outer body (c.bind x w) = u.infer outer' body (c'.bind x w) :=
        fun w => ih body (by simp [Expr.parts]) (h.body (i := 1) rfl rfl w)
      rw [infer_letIn hopen, infer_letIn hopen', hv.resolves, hv.eval]
      simp only [each]
    | _ => exact absurd rfl mute

/-! ## Local definitions -/

section

variable {s : Span} {n : String} {w : Value} {d : Expr} {a : Candidates}

theorem Hides.refl (e : Expr) (c : Context) : u.Hides [] c c e where
  value := by simp
  left := by simp
  right := by simp
  free r _ := by
    refine ⟨?_, rfl, rfl⟩
    cases r with
    | name y | primed y => exact rfl
    | frame ys bound => exact fun y _ => ⟨fun _ => rfl, rfl⟩

-- A name that an expression refers to below a binder is not that of the binder.
theorem ne_of_name_mem {y : String} (h : .name y ∈ e.references [n]) : y ≠ n := fun heq =>
  Expr.not_mem_of_name_mem h (heq ▸ List.mem_singleton_self n)

theorem isLocal_of_mem_singleton : ∀ y ∈ [n], (c.bind n w).isLocal y = true := by
  simp [Context.isLocal_bind]

theorem resolves_letIn : c.resolves (.letIn s n d e) [] =
    (c.resolves d [] && (c.bind n w).resolves e []) := by
  rw [← Context.resolves_append isLocal_of_mem_singleton, Context.resolves, Expr.references,
    List.all_append]
  congr 1
  rw [Bool.eq_iff_iff, Context.resolves, List.all_eq_true, List.all_eq_true]
  refine forall₂_congr fun r hr => ?_
  cases r with
  | name y => rw [Context.settles_name_bind, beq_false_of_ne (ne_of_name_mem hr), Bool.false_or]
  | primed y | frame ys bound => exact .rfl

theorem isMentioned_letIn : u.isMentioned c (.letIn s n d e) =
    (u.isMentioned c d || u.isMentioned (c.bind n w) e) := by
  rw [← isMentioned_append isLocal_of_mem_singleton, isMentioned, Expr.references, List.any_append]
  congr 1
  rw [Bool.eq_iff_iff, List.any_eq_true, List.any_eq_true]
  refine exists_congr fun r => and_congr_right fun hr => ?_
  cases r with
  | name y =>
    rw [isAmong_name_bind, beq_false_of_ne (ne_of_name_mem hr), Bool.not_false, Bool.true_and]
  | primed y | frame ys bound => exact .rfl

/-- The candidates under a local definition are those of its body with the name bound. -/
theorem infer_letIn_eq_ok (settled : c.resolves d [] = true) (free : u.isMentioned c d = false)
    (known : d.eval c = .ok w) :
    u.infer outer (.letIn s n d e) c = .ok a ↔ u.infer outer e (c.bind n w) = .ok a := by
  have hresolves : c.resolves (.letIn s n d e) [] = (c.bind n w).resolves e [] := by
    rw [resolves_letIn, settled, Bool.true_and]
  have hmentioned : u.isMentioned c (.letIn s n d e) = u.isMentioned (c.bind n w) e := by
    rw [isMentioned_letIn, free, Bool.false_or]
  by_cases hresolved : (c.bind n w).resolves e [] = true
  · have hholds : ∀ b, (Expr.letIn s n d e).holds c = .ok b ↔ e.holds (c.bind n w) = .ok b :=
      fun b => by simp [Expr.holds_letIn_eq_ok, known]
    rw [infer_of_resolves (hresolves.trans hresolved), infer_of_resolves hresolved]
    simp only [Result.bind_eq_ok, hholds]
  rw [Bool.not_eq_true] at hresolved
  cases hm : u.isMentioned (c.bind n w) e with
  | false =>
    rw [infer_of_not_mentioned (hresolves.trans hresolved) (hmentioned.trans hm),
      infer_of_not_mentioned hresolved hm]
  | true =>
    rw [infer_letIn ⟨hresolves.trans hresolved, hmentioned.trans hm⟩, if_pos settled, known]
    rfl

end

end Unknown

/-! ## Candidates and their sets -/

namespace Expr

variable {c : Context} {s : Span} {n x : String} {w S : Value} {d e e' : Expr}

theorem isMentioned_of_mentionsNext_eq_false {u : Unknown} (hform : u.form = .primed)
    (timeless : d.mentionsNext = false) : u.isMentioned c d = false := by
  rw [mentionsNext, List.any_eq_false] at timeless
  rw [Unknown.isMentioned, List.any_eq_false]
  intro r hr
  cases r with
  | name y => simp [Unknown.isAmong, hform]
  | primed y | frame ys bound => exact absurd rfl (timeless _ hr)

/-- Candidates are asked for with regard to the binders of the context. -/
theorem candidates_letIn_eq_ok (undeclared : n ∉ c.env.vars) (timeless : d.mentionsNext = false)
    (settled : c.resolves d [] = true) (known : d.eval c = .ok w) {i : Nat} {a : Candidates} :
    (letIn s n d e).candidates c i .primed = .ok a ↔
      e.candidates (c.bind n w) i .primed = .ok a := by
  have henv : (c.bind n w).env = c.env := rfl
  unfold candidates
  rw [henv]
  cases hx : c.env.vars[i]? with
  | none => simp
  | some x =>
    have hne : x ≠ n := fun heq => undeclared (heq ▸ List.mem_of_getElem? hx)
    have free := isMentioned_of_mentionsNext_eq_false (c := c) (u := ⟨x, .primed⟩) rfl timeless
    rw [Unknown.infer_letIn_eq_ok settled free known,
      Unknown.infer_congr (Context.value?_bind_of_ne hne).symm (.refl e (c.bind n w))]

def solving (c : Context) (i : Nat) : Context := ⟨c.env, c.current, pendingSlots c i, []⟩

theorem nextValues_congr (h : ∀ i a, e.candidates (solving c i) i .primed = .ok a ↔
      e'.candidates (solving c i) i .primed = .ok a) :
    e.nextValues c x = .ok S ↔ e'.nextValues c x = .ok S := by
  unfold nextValues
  cases c.env.variableIndex? x with
  | none => simp
  | some i =>
    simp only [Result.bind_eq_ok]
    refine exists_congr fun a => and_congr (h i a) ?_
    cases a with
    | disabled | values vs => exact .rfl
    | constrained => simp
    | unmentioned => simp only [Result.bind_eq_ok, lookup_eq_ok]

theorem local?_solving (unbound : c.locals = []) (i : Nat) (y : String) :
    (solving c i).local? y = c.local? y := by
  rw [Context.local?, Context.local?, unbound]
  rfl

-- What does not look at the next state does not see that it is solved for.
theorem hides_solving {u : Unknown} (unbound : c.locals = []) (timeless : d.mentionsNext = false)
    (i : Nat) : u.Hides [] (solving c i) c d where
  value := by simp
  left := by simp
  right := by simp
  free r hr := by
    rw [mentionsNext, List.any_eq_false] at timeless
    have hlocal := local?_solving unbound i
    cases r with
    | name y =>
      refine ⟨?_, ?_, ?_⟩
      · simp only [Context.Agrees, Context.value?, hlocal]
        rfl
      · simp only [Context.settles, Context.isLocal, hlocal]
        rfl
      · simp only [Unknown.isAmong, Context.isLocal, hlocal]
    | primed y | frame ys bound => exact absurd rfl (timeless _ hr)

-- A binder is not missed where its name is not read, or has the same value without it.
theorem hides_bind {u : Unknown} (hform : u.form = .primed) (undeclared : n ∉ c.env.vars)
    (reads : n ∈ e.namesIn .unprimed [] → c.value? n = some w) : u.Hides [] (c.bind n w) c e where
  value := by simp
  left := by simp
  right := by simp
  free r hr := by
    have hindex : c.env.variableIndex? n = none := by
      rw [Env.variableIndex?, List.findIdx?_eq_none_iff]
      exact fun y hy => beq_false_of_ne fun heq => undeclared (heq ▸ hy)
    have hvalue : ∀ y, (y = n → n ∈ r.names .unprimed) → (c.bind n w).value? y = c.value? y := by
      intro y hy
      by_cases hyn : y = n
      · rw [hyn, Context.value?_bind_self, reads (mem_namesIn.mpr ⟨r, hr, hy hyn⟩)]
      · exact Context.value?_bind_of_ne hyn
    cases r with
    | name y =>
      refine ⟨hvalue y fun hyn => by simp [Reference.names, hyn], ?_, ?_⟩
      · rw [Context.settles_name_bind]
        by_cases hyn : y = n
        · simp [Context.settles, Context.pendingIn, hyn, hindex]
        · simp [hyn]
      · simp [Unknown.isAmong, hform]
    | primed y => exact ⟨rfl, rfl, rfl⟩
    | frame ys bound =>
      refine ⟨fun y hy => ⟨fun hb => hvalue y fun hyn => ?_, rfl⟩, rfl, rfl⟩
      subst hyn
      simp [Reference.names, hy, hb]

theorem candidates_bind (undeclared : n ∉ c.env.vars)
    (reads : n ∈ e.namesIn .unprimed [] → c.value? n = some w) (i : Nat) :
    e.candidates (c.bind n w) i .primed = e.candidates c i .primed := by
  have henv : (c.bind n w).env = c.env := rfl
  unfold candidates
  rw [henv]
  cases hx : c.env.vars[i]? with
  | none => rfl
  | some x =>
    have hne : x ≠ n := fun heq => undeclared (heq ▸ List.mem_of_getElem? hx)
    exact Unknown.infer_congr (Context.value?_bind_of_ne hne) (hides_bind rfl undeclared reads)

/-- A local definition says the same as a binder of its name in the context: for the candidates
always, and for their set where the body does not read the name, or reads it with the same value
without the binder. -/
theorem nextValues_letIn (unbound : c.locals = []) (undeclared : n ∉ c.env.vars)
    (timeless : d.mentionsNext = false) (known : d.eval c = .ok w)
    (settled : c.resolves d [] = true) :
    (∀ s i a, (letIn s n d e).candidates c i .primed = .ok a ↔
      e.candidates (c.bind n w) i .primed = .ok a) ∧
    ((n ∈ e.namesIn .unprimed [] → c.value? n = some w) →
      ∀ s x S, (letIn s n d e).nextValues c x = .ok S ↔ e.nextValues (c.bind n w) x = .ok S) := by
  refine ⟨fun s i a => candidates_letIn_eq_ok undeclared timeless settled known,
    fun reads s x S => ?_⟩
  have hset : e.nextValues (c.bind n w) x = e.nextValues c x := rfl
  rw [hset]
  refine nextValues_congr fun i a => ?_
  have hout : n ∉ (solving c i).env.vars := undeclared
  have hd : Unknown.Hides ⟨x, .primed⟩ [] (solving c i) c d := hides_solving unbound timeless i
  have hreads : n ∈ e.namesIn .unprimed [] → (solving c i).value? n = some w := fun hn => by
    rw [← reads hn, Context.value?, Context.value?, local?_solving unbound]
    rfl
  rw [candidates_letIn_eq_ok hout timeless (hd.resolves.trans settled) (hd.eval.trans known),
    candidates_bind hout hreads]

/-! ### A definition of a name that the set is read with -/

def becomes : Expr := binary .none .eq (primed .none "x") (name .none "n")

def counter (constants : List String) (values : List Value) : Context :=
  ⟨⟨["x"], constants, values⟩, .total [.int 0], .absent, []⟩

-- The name is that of a constant with the same value, so that the binder is not missed.
theorem nextValues_letIn_constant :
    becomes.nextValues ((counter ["n"] [.int 1]).bind "n" (.int 1)) "x" = .ok (.set [.int 1]) := by
  have hlaw := nextValues_letIn (c := counter ["n"] [.int 1]) (n := "n") (w := .int 1)
    (d := literal .none (.int 1)) (e := becomes) rfl (by decide) rfl rfl rfl
  exact (hlaw.2 (fun _ => rfl) .none "x" _).mp (by cbv)

/-- `LET n == 1 IN x' = n` gives `x` the value 1, but below a binder of `n` the name is unbound. And
while `y` is pending, `LET k == IF TRUE THEN 1 ELSE y IN FALSE` is not evaluated, so that `x` keeps
its value, but `FALSE` is. -/
theorem nextValues_ne_bound :
    (letIn .none "n" (literal .none (.int 1)) becomes).nextValues (counter [] []) "x" =
      .ok (.set [.int 1]) ∧
    becomes.nextValues ((counter [] []).bind "n" (.int 1)) "x" = .error ⟨.none, .unbound "n"⟩ ∧
    (letIn .none "k" (ite .none (truth true) (literal .none (.int 1)) (name .none "y"))
      (truth false)).nextValues ⟨⟨["x", "y"], [], []⟩, .solving [some (.int 7), none], .absent, []⟩
        "x" = .ok (.set [.int 7]) ∧
    (truth false).nextValues
      ⟨⟨["x", "y"], [], []⟩, .solving [some (.int 7), none], .absent, [("k", .int 1)]⟩ "x" =
        .ok (.set []) := by
  refine ⟨?_, ?_, ?_, ?_⟩ <;> cbv

end Expr

end ActionSystem
