import ActionSystem.Proofs.Eval.Meaning
import ActionSystem.Proofs.Solve.Combination
import ActionSystem.Proofs.Solve.Framing

/-!
# Soundness of candidates

The candidates for an unknown admit the value that it has in any solution that extends what is
known so far. For the variables of an initial state this needs nothing else; in a next state lists
are exact for the variables that the action frames. A solution need only be one by the meaning of
the relation: that evaluation finds it, and stops at no error, is not asked.
-/

namespace ActionSystem.Unknown

variable {u : Unknown} {outer c c' : Context} {e : Expr} {r : Candidates}

/-! ## The unknown -/

def valueIn (u : Unknown) (c : Context) : Option Value :=
  match u.form with
  | .primed => c.nextValue? u.name
  | .unprimed => (c.env.variableIndex? u.name).bind c.current.get?

theorem isMentioned_iff (hform : u.form = .primed) :
    u.isMentioned c e = true ↔ u.name ∈ e.namesIn .primed [] := by
  have hamong : ∀ r, u.isAmong c r = true ↔ u.name ∈ r.names .primed := by
    intro r
    cases r with
    | name x => simp [isAmong, Reference.names, hform]
    | primed x => simp [isAmong, Reference.names, hform, eq_comm]
    | frame xs bound => simp [isAmong, Reference.names]
  rw [isMentioned, List.any_eq_true, Expr.mem_namesIn]
  simp only [hamong]

theorem resolves_eq_false {x : String} (hx : x ∈ e.namesIn .primed [])
    (pending : c.pendingIn c.next x = true) : c.resolves e [] = false := by
  obtain ⟨r, hr, hxr⟩ := Expr.mem_namesIn.mp hx
  rw [Context.resolves, List.all_eq_false]
  refine ⟨r, hr, ?_⟩
  cases r with
  | name y => cases hxr
  | primed y =>
    rw [Reference.names, List.mem_singleton] at hxr
    simp [Context.settles, ← hxr, pending]
  | frame ys bound =>
    have hall : ¬ ∀ y ∈ ys, (!c.pendingIn c.current y && !c.pendingIn c.next y) = true := by
      intro hall
      have := hall x hxr
      simp [pending] at this
    simpa [Context.settles] using hall

/-! ## Settled unknowns -/

-- Without the unknown there is nothing to read off.
theorem Infers.eq_of_not_mentioned (h : u.Infers outer e c r) (free : u.isMentioned c e = false) :
    r = .unmentioned ∨ r = .disabled := by
  have hopen : ¬ u.Open c e := fun hopen => by
    have := hopen.mentioned
    rw [free] at this
    cases this
  cases h with
  | @truth _ _ b resolved known =>
    cases b with
    | true => exact .inl rfl
    | false => exact .inr rfl
  | unmentioned free => exact .inl rfl
  | _ unsettled => exact absurd unsettled hopen

theorem fromEquation_ne_unmentioned {l m : Expr} (h : u.fromEquation c l m = .ok r) :
    r ≠ .unmentioned := by
  unfold fromEquation at h
  split at h
  · simp only [Result.bind_eq_ok, Result.pure_eq_ok] at h
    obtain ⟨v, -, rfl⟩ := h
    simp
  · split at h
    · simp only [Result.bind_eq_ok, Result.pure_eq_ok] at h
      obtain ⟨v, -, rfl⟩ := h
      simp
    · cases h
      simp

theorem fromMembership_ne_unmentioned {l m : Expr} (h : u.fromMembership c l m = .ok r) :
    r ≠ .unmentioned := by
  unfold fromMembership at h
  split at h
  · simp only [Result.bind_eq_ok, Result.pure_eq_ok] at h
    obtain ⟨v, -, vs, -, rfl⟩ := h
    simp
  · cases h
    simp

-- What an action settles is not left to the default.
theorem Infers.ne_unmentioned (h : u.Infers outer e c r) (hform : u.form = .primed)
    (pending : c.pendingIn c.next u.name = true) (settled : e.settlesNext u.name = true) :
    r ≠ .unmentioned := by
  induction h with
  | truth resolved known =>
    rw [resolves_eq_false (Expr.mem_namesIn_of_settlesNext settled) pending] at resolved
    cases resolved
  | unmentioned free =>
    rw [(isMentioned_iff hform).mpr (Expr.mem_namesIn_of_settlesNext settled)] at free
    cases free
  | constrained unsettled => simp
  | equation unsettled read => exact fromEquation_ne_unmentioned read
  | membership unsettled read => exact fromMembership_ne_unmentioned read
  | frame unsettled primed listed kept => simp
  | both unsettled left right ihl ihr =>
    rw [Expr.settlesNext, Bool.or_eq_true] at settled
    intro heq
    obtain ⟨ha, hb⟩ := Candidates.conjoin_eq_unmentioned heq
    rcases settled with hl | hr
    · exact ihl pending hl ha
    · exact ihr pending hr hb
  | leftDisabled unsettled left ihl => simp
  | either unsettled left right joined ihl ihr =>
    rw [Expr.settlesNext, Bool.and_eq_true] at settled
    refine disjoin_ne_unmentioned joined ?_
    simp [(ihl pending settled.1).symm, (ihr pending settled.2).symm]
  | conclusion unsettled resolved known right ih => cases settled
  | vacuous unsettled resolved known => cases settled
  | @branch _ _ _ _ _ _ b unsettled resolved known taken ih =>
    rw [Expr.settlesNext, Bool.and_eq_true] at settled
    refine ih pending ?_
    cases b with
    | true => exact settled.1
    | false => exact settled.2
  | branches unsettled yes no joined ihy ihn =>
    rw [Expr.settlesNext, Bool.and_eq_true] at settled
    refine disjoin_ne_unmentioned joined ?_
    simp [(ihy pending settled.1).symm, (ihn pending settled.2).symm]
  | any unsettled resolved ranges each joined ih =>
    refine disjoin_ne_unmentioned joined ?_
    intro hmem
    obtain ⟨v, hv, heq⟩ := List.mem_map.mp hmem
    exact ih v hv pending settled heq
  | all unsettled resolved ranges each ih => cases settled
  | oneDisabled unsettled resolved ranges mem one ih => cases settled
  | definition unsettled resolved known inner ih => exact ih pending settled

/-! ## What an expression may be asked for -/

/-- The expression, below binders that the contexts have in common, treats the unknown of a next
state evenly, and its name stands for the current value inside as outside. -/
structure Even (u : Unknown) (outer c c' : Context) (e : Expr) : Prop where
  pending : c.pendingIn c.next u.name = true
  kept : c'.value? u.name = outer.value? u.name
  fresh : u.name ∉ e.binders
  balanced : e.isBalanced u.name = true

theorem Even.branch (h : u.Even outer c c' e) {p : Expr} (hp : p ∈ e.branches) :
    u.Even outer c c' p where
  pending := h.pending
  kept := h.kept
  fresh := fun hmem => h.fresh (Expr.mem_binders_of_part (Expr.mem_parts_of_branch hp) hmem)
  balanced := Expr.isBalanced_of_branch hp h.balanced

theorem Even.bind (h : u.Even outer c c' e) {x : String} (hx : x ∈ e.binders) {p : Expr}
    (hp : p ∈ e.branches) (v : Value) : u.Even outer (c.bind x v) (c'.bind x v) p where
  pending := h.pending
  kept := by
    have hne : u.name ≠ x := fun heq => h.fresh (heq ▸ hx)
    rw [Context.value?_bind_of_ne hne]
    exact h.kept
  fresh := (h.branch hp).fresh
  balanced := (h.branch hp).balanced

def FromAlternatives (u : Unknown) (outer c : Context) (e : Expr) (cs : List Candidates) : Prop :=
  ∀ a ∈ cs, ∃ p ∈ e.alternatives, ∃ b : Context, b.env = c.env ∧ b.next = c.next ∧
    u.Infers outer p b a

theorem fromAlternatives_pair {p q : Expr} {a b : Candidates} (hp : u.Infers outer p c a)
    (hq : u.Infers outer q c b) (heq : e.alternatives = [p, q]) :
    u.FromAlternatives outer c e [a, b] := by
  simp only [FromAlternatives, List.forall_mem_cons, heq]
  exact ⟨⟨p, by simp, c, rfl, rfl, hp⟩, ⟨q, by simp, c, rfl, rfl, hq⟩, by simp⟩

theorem fromAlternatives_map {s : Span} {x : String} {d body : Expr} {items : List Value}
    {f : Value → Candidates} (each : ∀ v ∈ items, u.Infers outer body (c.bind x v) (f v)) :
    u.FromAlternatives outer c (.bind s .any x d body) (items.map f) := by
  intro a ha
  obtain ⟨v, hv, rfl⟩ := List.mem_map.mp ha
  exact ⟨body, by simp [Expr.alternatives], c.bind x v, rfl, rfl, each v hv⟩

-- Even alternatives all say what becomes of the unknown, or none of them looks at it.
theorem Even.uniform (h : u.Even outer c c' e) (hform : u.form = .primed) {cs : List Candidates}
    (hcs : u.FromAlternatives outer c e cs) :
    .unmentioned ∉ cs ∨ ∀ a ∈ cs, a = .unmentioned ∨ a = .disabled := by
  have heven := Expr.isEven_of_isBalanced h.balanced
  rw [Expr.isEven, Bool.or_eq_true, List.all_eq_true] at heven
  rcases heven with hnone | hall
  · refine .inr fun a ha => ?_
    obtain ⟨p, hp, b, -, -, hinfers⟩ := hcs a ha
    have hfree : ¬ u.isMentioned b p = true := by
      rw [isMentioned_iff hform]
      simpa using hnone p hp
    exact hinfers.eq_of_not_mentioned (Bool.eq_false_iff.mpr hfree)
  · refine .inl fun hmem => ?_
    obtain ⟨p, hp, b, henv, hnext, hinfers⟩ := hcs _ hmem
    have hpending : b.pendingIn b.next u.name = true := by
      rw [Context.pendingIn, hnext, henv]
      exact h.pending
    exact hinfers.ne_unmentioned hform hpending (Expr.settlesNext_of_alternative hp hall) rfl

/-! ## Sources of values -/

theorem valueIn_of_isSide (h : u.isSide c e = true) (fill : c.FilledBy c')
    (declared : (c.env.variableIndex? u.name).isSome) {v : Value} (hv : e.meaning c' = some v) :
    u.valueIn c' = some v := by
  unfold isSide at h
  split at h
  · rename_i s x
    rw [Bool.and_eq_true, decide_eq_true_eq, decide_eq_true_eq] at h
    rw [Expr.meaning, h.2] at hv
    rw [valueIn, h.1]
    exact hv
  · rename_i s x
    simp only [Bool.and_eq_true, decide_eq_true_eq, Bool.not_eq_true'] at h
    obtain ⟨⟨hform, hname⟩, hlocal⟩ := h
    rw [Expr.meaning, Context.value?, hname] at hv
    rw [← fill.isLocal, hname, Context.isLocal, Option.isSome_eq_false_iff,
      Option.isNone_iff_eq_none] at hlocal
    obtain ⟨i, hi⟩ := Option.isSome_iff_exists.mp declared
    rw [← fill.env] at hi
    rw [hlocal, hi] at hv
    rw [valueIn, hform, hi]
    exact hv
  · cases h

-- What stands on the other side of an equation or membership with the unknown.
theorem fromSide_eq_some {side other : Expr} {found : Except EvalError Value}
    (h : u.fromSide c side other = some found) :
    u.isSide c side = true ∧ c.resolves other [] = true ∧ found = other.eval c := by
  unfold fromSide at h
  by_cases hside : (u.isSide c side && c.resolves other []) = true
  · rw [if_pos hside] at h
    rw [Bool.and_eq_true] at hside
    exact ⟨hside.1, hside.2, (Option.some.inj h).symm⟩
  · rw [if_neg hside] at h
    cases h

theorem fromEquation_admits {exact : Prop} {l m : Expr} (h : u.fromEquation c l m = .ok r)
    (fill : c.FilledBy c') (declared : (c.env.variableIndex? u.name).isSome) {v : Value}
    (hl : l.meaning c' = some v) (hm : m.meaning c' = some v) :
    r.Admits exact (u.valueIn c') := by
  have side : ∀ {p q found}, u.fromSide c p q = some found → p.meaning c' = some v →
      q.meaning c' = some v →
      (do return .values [← found] : Except EvalError Candidates) = .ok r →
      r.Admits exact (u.valueIn c') := by
    intro p q found hfound hp hq hr
    obtain ⟨hside, hresolved, rfl⟩ := fromSide_eq_some hfound
    simp only [Result.bind_eq_ok, Result.pure_eq_ok] at hr
    obtain ⟨w, hw, rfl⟩ := hr
    have hw' := fill.meaning_of_eval hresolved hw
    rw [hq] at hw'
    cases hw'
    exact fun _ => ⟨v, List.mem_singleton_self v, valueIn_of_isSide hside fill declared hp⟩
  unfold fromEquation at h
  split at h
  · rename_i found hfound
    exact side hfound hl hm h
  · split at h
    · rename_i found hfound
      exact side hfound hm hl h
    · cases h
      trivial

theorem fromMembership_admits {exact : Prop} {l m : Expr} (h : u.fromMembership c l m = .ok r)
    (fill : c.FilledBy c') (declared : (c.env.variableIndex? u.name).isSome) {v : Value}
    {vs : List Value} (hl : l.meaning c' = some v) (hm : m.meaning c' = some (.set vs))
    (hv : v ∈ vs) : r.Admits exact (u.valueIn c') := by
  unfold fromMembership at h
  split at h
  · rename_i found hfound
    obtain ⟨hside, hresolved, rfl⟩ := fromSide_eq_some hfound
    simp only [Result.bind_eq_ok, Result.pure_eq_ok, Fault.at_eq_ok, Value.expectSet_eq_ok] at h
    obtain ⟨w, hw, ws, rfl, rfl⟩ := h
    have hw' := fill.meaning_of_eval hresolved hw
    rw [hm] at hw'
    cases hw'
    exact fun _ => ⟨v, hv, valueIn_of_isSide hside fill declared hl⟩
  · cases h
    trivial

/-! ## Soundness -/

/-- In every solution that extends what is known, the unknown has a value that its candidates
admit. -/
theorem Infers.admits {exact : Prop} (h : u.Infers outer e c r) (fill : c.FilledBy c')
    (declared : (c.env.variableIndex? u.name).isSome) (means : e.Means c')
    (even : exact → u.form = .primed → u.Even outer c c' e) :
    r.Admits exact (u.valueIn c') := by
  induction h generalizing c' with
  | truth resolved known =>
    cases fill.eq_true_of_means resolved known means
    trivial
  | unmentioned free => trivial
  | constrained unsettled => trivial
  | equation unsettled read =>
    obtain ⟨v, hl, hr⟩ := Expr.means_eq.mp means
    exact fromEquation_admits read fill declared hl hr
  | membership unsettled read =>
    obtain ⟨v, vs, hl, hr, hv⟩ := Expr.means_mem means
    exact fromMembership_admits read fill declared hl hr hv
  | @frame s xs c v unsettled primed listed kept =>
    intro hexact
    obtain ⟨w, hw, hnext⟩ := Expr.means_unchanged.mp means u.name listed
    rw [Expr.lookup_eq_ok, ← (even hexact primed).kept, hw] at kept
    cases kept
    exact ⟨v, List.mem_singleton_self v, by rw [valueIn, primed]; exact hnext⟩
  | both unsettled left right ihl ihr =>
    obtain ⟨hl, hr⟩ := Expr.means_and.mp means
    have ha := ihl fill declared hl fun hx hform => (even hx hform).branch (by simp [Expr.branches])
    have hb := ihr fill declared hr fun hx hform => (even hx hform).branch (by simp [Expr.branches])
    exact ha.conjoin hb
  | leftDisabled unsettled left ihl =>
    obtain ⟨hl, -⟩ := Expr.means_and.mp means
    exact ihl fill declared hl fun hx hform => (even hx hform).branch (by simp [Expr.branches])
  | @either s l m c a b d unsettled left right joined ihl ihr =>
    have hcs : u.FromAlternatives outer c (.logical s .or l m) [a, b] :=
      fromAlternatives_pair left right rfl
    have uniform := fun hx hform => (even hx hform).uniform hform hcs
    rcases Expr.means_or.mp means with hl | hm
    · have ha := ihl fill declared hl fun hx hform =>
        (even hx hform).branch (by simp [Expr.branches])
      exact disjoin_admits joined (by simp) ha uniform
    · have hb := ihr fill declared hm fun hx hform =>
        (even hx hform).branch (by simp [Expr.branches])
      exact disjoin_admits joined (by simp) hb uniform
  | conclusion unsettled resolved known right ih =>
    have hr := fill.means_conclusion resolved known means
    exact ih fill declared hr fun hx hform => (even hx hform).branch (by simp [Expr.branches])
  | vacuous unsettled resolved known => trivial
  | @branch s p y n c a b unsettled resolved known taken ih =>
    have htaken := fill.means_branch resolved known means
    refine ih fill declared htaken fun hx hform => (even hx hform).branch ?_
    cases b <;> simp [Expr.branches]
  | @branches s p y n c a b d unsettled yes no joined ihy ihn =>
    have hcs : u.FromAlternatives outer c (.ite s p y n) [a, b] :=
      fromAlternatives_pair yes no rfl
    have uniform := fun hx hform => (even hx hform).uniform hform hcs
    rcases Expr.means_ite.mp means with ⟨-, hy⟩ | ⟨-, hn⟩
    · have ha := ihy fill declared hy fun hx hform =>
        (even hx hform).branch (by simp [Expr.branches])
      exact disjoin_admits joined (by simp) ha uniform
    · have hb := ihn fill declared hn fun hx hform =>
        (even hx hform).branch (by simp [Expr.branches])
      exact disjoin_admits joined (by simp) hb uniform
  | @any s x d body c items f a unsettled resolved ranges each joined ih =>
    have hcs : u.FromAlternatives outer c (.bind s .any x d body) (items.map f) :=
      fromAlternatives_map each
    have uniform := fun hx hform => (even hx hform).uniform hform hcs
    obtain ⟨v, hv, hbody⟩ := fill.exists_means_item resolved ranges means
    have ha := ih v hv (fill.bind x v) declared hbody fun hx hform =>
      (even hx hform).bind (by simp [Expr.binders]) (by simp [Expr.branches]) v
    exact disjoin_admits joined (List.mem_map_of_mem hv) ha uniform
  | @all s x d body c items f unsettled resolved ranges each ih =>
    have hall := fill.forall_means_item resolved ranges means
    refine Candidates.Admits.foldl_conjoin trivial fun a ha => ?_
    obtain ⟨v, hv, rfl⟩ := List.mem_map.mp ha
    have hv' := ih v hv (fill.bind x v) declared (hall v hv) fun hx hform =>
      (even hx hform).bind (by simp [Expr.binders]) (by simp [Expr.branches]) v
    exact hv'
  | @oneDisabled s x d body c items v unsettled resolved ranges mem one ih =>
    have hall := fill.forall_means_item resolved ranges means
    have hv := ih (fill.bind x v) declared (hall v mem) fun hx hform =>
      (even hx hform).bind (by simp [Expr.binders]) (by simp [Expr.branches]) v
    exact hv
  | @definition s x v body c w a unsettled resolved known inner ih =>
    have hbody := fill.means_body resolved known means
    have hinner := ih (fill.bind x w) declared hbody fun hx hform =>
      (even hx hform).bind (by simp [Expr.binders]) (by simp [Expr.branches]) w
    exact hinner

end ActionSystem.Unknown
