import Mathlib
import ActionSystem.Proofs.Solve.Combination
import ActionSystem.Proofs.Solve.Relevance

/-!
# Indifference to an unknown

A relation that an inference finds not to look at a variable has the same truth value whatever the
variable is in the next state. Alternatives for which an inference finds no value at all do not
count, since no value makes them true. The condition of an `IF` does count, and an inference passes
over it: it may ask for the variable only where the variable is settled.
-/

namespace ActionSystem

open Result (Matches)

/-! ## Candidates that leave no value -/

namespace Candidates

variable {form : Form} {current : Option Value} {cs : List Candidates} {a b r : Candidates}

structure Barren (r : Candidates) : Prop where
  mentioned : r ≠ .unmentioned
  listed : r ≠ .constrained
  empty : ∀ v, ¬ r.Lists v

theorem barren_disabled : Barren .disabled := ⟨by simp, by simp, fun _ => id⟩

theorem not_barren_of_admits {v : Option Value} (h : r.Admits True v) : ¬ r.Barren := by
  intro barren
  cases r with
  | disabled => exact h
  | unmentioned => exact barren.mentioned rfl
  | constrained => exact barren.listed rfl
  | values vs =>
    obtain ⟨w, hw, -⟩ := h trivial
    exact barren.empty w hw

theorem Joins.barren (h : Joins form current cs r) (barren : r.Barren) : ∀ c ∈ cs, c.Barren := by
  have hcon : .constrained ∉ cs := fun hc => barren.listed (h.constrained.mpr (.inl hc))
  have hlisted : ¬ ∃ v, Listed cs v := by
    rw [← h.exists_lists barren.listed]
    exact fun ⟨v, hv⟩ => barren.empty v hv
  have hun : .unmentioned ∉ cs := fun hu =>
    barren.mentioned (h.unmentioned.mpr ⟨hcon, hu, hlisted⟩)
  exact fun c hc => ⟨fun heq => hun (heq ▸ hc), fun heq => hcon (heq ▸ hc),
    fun v hv => hlisted ⟨v, c, hc, hv⟩⟩

-- Alternatives do not look at the variable if some do not and the others leave no value.
theorem Joins.eq_unmentioned_or_barren (h : Joins form current cs .unmentioned) :
    ∀ c ∈ cs, c = .unmentioned ∨ c.Barren := by
  obtain ⟨hcon, -, hlisted⟩ := h.unmentioned.mp rfl
  intro c hc
  by_cases hun : c = .unmentioned
  · exact .inl hun
  · exact .inr ⟨hun, fun heq => hcon (heq ▸ hc), fun v hv => hlisted ⟨v, c, hc, hv⟩⟩

-- Conditions leave no value only if one of them leaves none by itself, or so its list says.
theorem Meets.exists_barren (h : Meets cs r) (barren : r.Barren) : ∃ c ∈ cs, c.Barren := by
  by_cases hdis : r = .disabled
  · exact ⟨_, h.disabled.mp hdis, barren_disabled⟩
  · have hclosed : ¬ ∀ c ∈ cs, c = .constrained ∨ c = .unmentioned := by
      rw [h.forall_open]
      exact fun hr => hr.elim barren.listed barren.mentioned
    simp only [not_forall, not_or] at hclosed
    obtain ⟨c, hc, hcon, hun⟩ := hclosed
    exact ⟨c, hc, hun, hcon, fun v hv => barren.empty v ((h.lists hdis v).mpr ⟨c, hc, hv⟩)⟩

end Candidates

/-! ## Conditions that ask for a variable -/

namespace Expr

variable {x : String} {e : Expr}

/-- The condition of some `IF` mentions the variable in the next state, and nothing around it
settles the variable. -/
def asksInVain (x : String) : Expr → Bool
  | logical s op l r =>
    !(logical s op l r).settlesNext x && (asksInVain x l || asksInVain x r)
  | ite s p y n =>
    !(ite s p y n).settlesNext x &&
      ((p.namesIn .primed []).contains x || (asksInVain x y || asksInVain x n))
  | bind _ .any _ _ body | bind _ .all _ _ body | letIn _ _ _ body => asksInVain x body
  | _ => false
termination_by structural e => e

theorem asksInVain_logical {s : Span} {op : Connective} {l r : Expr}
    (h : (logical s op l r).asksInVain x = false)
    (unsettled : (logical s op l r).settlesNext x = false) :
    l.asksInVain x = false ∧ r.asksInVain x = false := by
  rw [asksInVain, unsettled] at h
  simpa using h

theorem asksInVain_ite {s : Span} {p y n : Expr} (h : (ite s p y n).asksInVain x = false)
    (unsettled : (ite s p y n).settlesNext x = false) :
    x ∉ p.namesIn .primed [] ∧ y.asksInVain x = false ∧ n.asksInVain x = false := by
  rw [asksInVain, unsettled] at h
  simpa using h

end Expr

namespace Unknown

variable {u : Unknown} {outer c c' c'' : Context} {e : Expr} {r : Candidates}

/-- Where no value of the unknown is left, the relation is not true. -/
theorem Infers.not_means (h : u.Infers outer e c r) (barren : r.Barren) (fill : c.FilledBy c')
    (declared : (c.env.variableIndex? u.name).isSome) : ¬ e.Means c' := by
  intro means
  induction h generalizing c' with
  | @truth e c b resolved known =>
    cases fill.eq_true_of_means resolved known means
    exact barren.mentioned rfl
  | unmentioned free => exact barren.mentioned rfl
  | constrained unsettled => exact barren.listed rfl
  | equation unsettled read =>
    obtain ⟨v, hl, hr⟩ := Expr.means_eq.mp means
    exact Candidates.not_barren_of_admits (fromEquation_admits read fill declared hl hr) barren
  | membership unsettled read =>
    obtain ⟨v, vs, hl, hr, hv⟩ := Expr.means_mem means
    exact Candidates.not_barren_of_admits (fromMembership_admits read fill declared hl hr hv) barren
  | @frame s xs c v unsettled primed listed kept => exact barren.empty v (List.mem_singleton_self v)
  | @both s l m c a b unsettled left right ihl ihm =>
    obtain ⟨hl, hm⟩ := Expr.means_and.mp means
    obtain ⟨d, hd, hbarren⟩ := (Candidates.meets_pair a b).exists_barren barren
    rcases Candidates.mem_pair.mp hd with rfl | rfl
    · exact ihl hbarren fill declared hl
    · exact ihm hbarren fill declared hm
  | leftDisabled unsettled left ihl => exact ihl barren fill declared (Expr.means_and.mp means).1
  | @either s l m c a b d unsettled left right joined ihl ihm =>
    have hbarren := (joins_of_disjoin joined).barren barren
    rcases Expr.means_or.mp means with hl | hm
    · exact ihl (hbarren a (by simp)) fill declared hl
    · exact ihm (hbarren b (by simp)) fill declared hm
  | conclusion unsettled resolved known right ih =>
    exact ih barren fill declared (fill.means_conclusion resolved known means)
  | vacuous unsettled resolved known => exact barren.mentioned rfl
  | @branch s p y n c a b unsettled resolved known taken ih =>
    exact ih barren fill declared (fill.means_branch resolved known means)
  | @branches s p y n c a b d unsettled yes no joined ihy ihn =>
    have hbarren := (joins_of_disjoin joined).barren barren
    rcases Expr.means_ite.mp means with ⟨-, hy⟩ | ⟨-, hn⟩
    · exact ihy (hbarren a (by simp)) fill declared hy
    · exact ihn (hbarren b (by simp)) fill declared hn
  | @any s x d body c items f a unsettled resolved ranges each joined ih =>
    have hbarren := (joins_of_disjoin joined).barren barren
    obtain ⟨v, hv, hbody⟩ := fill.exists_means_item resolved ranges means
    exact ih v hv (hbarren _ (List.mem_map_of_mem hv)) (fill.bind x v) declared hbody
  | @all s x d body c items f unsettled resolved ranges each ih =>
    have hall := fill.forall_means_item resolved ranges means
    have hmeets := Candidates.meets_foldl Candidates.meets_nil (items.map f)
    obtain ⟨a, ha, hbarren⟩ := hmeets.exists_barren barren
    obtain ⟨v, hv, rfl⟩ := List.mem_map.mp ha
    exact ih v hv hbarren (fill.bind x v) declared (hall v hv)
  | @oneDisabled s x d body c items v unsettled resolved ranges mem one ih =>
    have hall := fill.forall_means_item resolved ranges means
    exact ih barren (fill.bind x v) declared (hall v mem)
  | @definition s x v body c w a unsettled resolved known inner ih =>
    exact ih barren (fill.bind x w) declared (fill.means_body resolved known means)

-- Where no value of the unknown is left, the relation is false if it has a truth value.
theorem Infers.accord_of_barren (h : u.Infers outer e c r) (barren : r.Barren)
    (declared : (c.env.variableIndex? u.name).isSome) (fill : c.FilledBy c')
    (fill' : c.FilledBy c'') : Matches False Eq (e.holds c') (e.holds c'') := by
  refine .of_forall fun a b ha hb => ?_
  cases a with
  | true => exact absurd (Expr.meaning_of_holds ha) (h.not_means barren fill declared)
  | false =>
    cases b with
    | true => exact absurd (Expr.meaning_of_holds hb) (h.not_means barren fill' declared)
    | false => rfl

theorem accord_logical {s : Span} {op : Connective} {l m : Expr}
    (hl : Matches False Eq (l.holds c') (l.holds c''))
    (hm : Matches False Eq (m.holds c') (m.holds c'')) :
    Matches False Eq ((Expr.logical s op l m).holds c')
      ((Expr.logical s op l m).holds c'') := by
  refine .of_forall fun a b ha hb => ?_
  rw [Expr.holds_eq_ok, Expr.eval_logical_eq_ok] at ha hb
  obtain ⟨p, hp, ha⟩ := ha
  obtain ⟨q, hq, hb⟩ := hb
  cases hl.rel hp hq
  rcases ha with ha | ⟨ha, hma⟩
  · rcases hb with hb | ⟨hb, hmb⟩
    · exact Option.some.inj (ha.symm.trans hb)
    · cases ha.symm.trans hb
  · rcases hb with hb | ⟨hb, hmb⟩
    · cases ha.symm.trans hb
    · exact hm.rel hma hmb

theorem declared_of_pending (pending : c.pendingIn c.next u.name = true) :
    (c.env.variableIndex? u.name).isSome := by
  unfold Context.pendingIn at pending
  cases hi : c.env.variableIndex? u.name with
  | some i => rfl
  | none =>
    rw [hi] at pending
    cases pending

theorem Infers.settlesNext_eq_false (h : u.Infers outer e c r) (hr : r = .unmentioned)
    (hform : u.form = .primed) (pending : c.pendingIn c.next u.name = true) :
    e.settlesNext u.name = false := by
  rw [← Bool.not_eq_true]
  exact fun settled => h.ne_unmentioned hform pending settled hr

/-- What does not look at the unknown has the same truth value whatever the unknown is. -/
theorem Infers.accord (h : u.Infers outer e c r) (hr : r = .unmentioned)
    (hform : u.form = .primed) (pending : c.pendingIn c.next u.name = true)
    (unasked : e.asksInVain u.name = false) (fill : c.FilledBy c') (fill' : c.FilledBy c'')
    (same : c'.SameBut u.name c'') :
    Matches False Eq (e.holds c') (e.holds c'') := by
  have of_eval : ∀ {e : Expr} {b b' : Context}, e.eval b = e.eval b' →
      Matches False Eq (e.holds b) (e.holds b') := by
    intro e b b' heq
    unfold Expr.holds
    rw [heq]
    exact .refl _
  induction h generalizing c' c'' with
  | truth resolved known => exact of_eval (by rw [← fill.eval resolved, fill'.eval resolved])
  | unmentioned free =>
    refine of_eval (same.eval fun hx => ?_)
    rw [(isMentioned_iff hform).mpr hx] at free
    cases free
  | constrained unsettled => cases hr
  | equation unsettled read => exact absurd hr (fromEquation_ne_unmentioned read)
  | membership unsettled read => exact absurd hr (fromMembership_ne_unmentioned read)
  | frame unsettled primed listed kept => cases hr
  | @both s l m c a b unsettled left right ihl ihm =>
    have hopen := (Infers.both unsettled left right).settlesNext_eq_false hr hform pending
    obtain ⟨ha, hb⟩ := Candidates.conjoin_eq_unmentioned hr
    obtain ⟨hl, hm⟩ := Expr.asksInVain_logical unasked hopen
    exact accord_logical (ihl ha pending hl fill fill' same) (ihm hb pending hm fill fill' same)
  | leftDisabled unsettled left ihl => cases hr
  | @either s l m c a b d unsettled left right joined ihl ihm =>
    have hopen := (Infers.either unsettled left right joined).settlesNext_eq_false hr hform pending
    obtain ⟨hl, hm⟩ := Expr.asksInVain_logical unasked hopen
    subst hr
    have halternative := (joins_of_disjoin joined).eq_unmentioned_or_barren
    refine accord_logical ?_ ?_
    · exact (halternative a (by simp)).elim (fun ha => ihl ha pending hl fill fill' same)
        fun ha => left.accord_of_barren ha (declared_of_pending pending) fill fill'
    · exact (halternative b (by simp)).elim (fun hb => ihm hb pending hm fill fill' same)
        fun hb => right.accord_of_barren hb (declared_of_pending pending) fill fill'
  | @conclusion s l m c a unsettled resolved known right ih =>
    obtain ⟨-, hm⟩ := Expr.asksInVain_logical unasked rfl
    exact accord_logical (of_eval ((fill.eval resolved).symm.trans (fill'.eval resolved)))
      (ih hr pending hm fill fill' same)
  | @vacuous s l m c unsettled resolved known =>
    have holds : ∀ {b : Context}, c.FilledBy b → (Expr.logical s .implies l m).holds b = .ok true :=
      fun fill => Expr.holds_eq_ok.mpr (Expr.eval_logical_eq_ok.mpr
        ⟨false, (fill.holds resolved).symm.trans known, .inl rfl⟩)
    rw [holds fill, holds fill']
    exact .refl _
  | @branch s p y n c a b unsettled resolved known taken ih =>
    have hopen := (Infers.branch unsettled resolved known taken).settlesNext_eq_false hr hform
      pending
    obtain ⟨-, hy, hn⟩ := Expr.asksInVain_ite unasked hopen
    have hbranch : (if b then y else n).asksInVain u.name = false := by
      cases b with
      | true => exact hy
      | false => exact hn
    refine .of_forall fun q q' hq hq' => ?_
    obtain ⟨t, ht, hq⟩ := Expr.holds_ite_eq_ok.mp hq
    obtain ⟨t', ht', hq'⟩ := Expr.holds_ite_eq_ok.mp hq'
    -- the condition was known before
    cases ht.symm.trans ((fill.holds resolved).symm.trans known)
    cases ht'.symm.trans ((fill'.holds resolved).symm.trans known)
    exact (ih hr pending hbranch fill fill' same).rel hq hq'
  | @branches s p y n c a b d unsettled yes no joined ihy ihn =>
    have hopen := (Infers.branches unsettled yes no joined).settlesNext_eq_false hr hform pending
    obtain ⟨hp, hy, hn⟩ := Expr.asksInVain_ite unasked hopen
    subst hr
    have halternative := (joins_of_disjoin joined).eq_unmentioned_or_barren
    have hyes : Matches False Eq (y.holds c') (y.holds c'') :=
      (halternative a (by simp)).elim (fun ha => ihy ha pending hy fill fill' same)
        fun ha => yes.accord_of_barren ha (declared_of_pending pending) fill fill'
    have hno : Matches False Eq (n.holds c') (n.holds c'') :=
      (halternative b (by simp)).elim (fun hb => ihn hb pending hn fill fill' same)
        fun hb => no.accord_of_barren hb (declared_of_pending pending) fill fill'
    refine .of_forall fun q q' hq hq' => ?_
    obtain ⟨t, ht, hq⟩ := Expr.holds_ite_eq_ok.mp hq
    obtain ⟨t', ht', hq'⟩ := Expr.holds_ite_eq_ok.mp hq'
    -- the condition does not ask for the unknown
    cases (of_eval (same.eval hp)).rel ht ht'
    cases t with
    | true => exact hyes.rel hq hq'
    | false => exact hno.rel hq hq'
  | @any s x d body c items f a unsettled resolved ranges each joined ih =>
    subst hr
    have halternative := (joins_of_disjoin joined).eq_unmentioned_or_barren
    rw [Expr.holds_any ((fill.domain resolved).symm.trans ranges),
      Expr.holds_any ((fill'.domain resolved).symm.trans ranges)]
    refine .anyM fun v hv => ?_
    rcases halternative _ (List.mem_map_of_mem hv) with hun | hbarren
    · exact ih v hv hun pending unasked (fill.bind x v) (fill'.bind x v) (same.bind x v)
    · exact (each v hv).accord_of_barren hbarren (declared_of_pending pending) (fill.bind x v)
        (fill'.bind x v)
  | @all s x d body c items f unsettled resolved ranges each ih =>
    obtain ⟨-, hitems⟩ := Candidates.foldl_conjoin_eq_unmentioned hr
    rw [Expr.holds_all ((fill.domain resolved).symm.trans ranges),
      Expr.holds_all ((fill'.domain resolved).symm.trans ranges)]
    exact .allM fun v hv => ih v hv (hitems _ (List.mem_map_of_mem hv)) pending unasked
      (fill.bind x v) (fill'.bind x v) (same.bind x v)
  | oneDisabled unsettled resolved ranges mem one ih => cases hr
  | @definition s x v body c w a unsettled resolved known inner ih =>
    refine .of_forall fun q q' hq hq' => ?_
    obtain ⟨t, ht, hq⟩ := Expr.holds_letIn_eq_ok.mp hq
    obtain ⟨t', ht', hq'⟩ := Expr.holds_letIn_eq_ok.mp hq'
    cases ht.symm.trans ((fill.eval resolved).symm.trans known)
    cases ht'.symm.trans ((fill'.eval resolved).symm.trans known)
    exact (ih hr pending unasked (fill.bind x w) (fill'.bind x w) (same.bind x w)).rel hq hq'

end Unknown

namespace Expr

/-- If the candidates for a variable are that the action does not look at it, and no condition of an
`IF` asks for it in vain, then the action has the same truth value in two next states that differ in
this variable only, as far as it has truth values there. -/
theorem eq_of_candidates_eq_unmentioned {env : Env} {current next next' : List Value}
    {slots : List (Option Value)} {p : Nat} {x : String} {body : Expr} {b b' : Bool}
    (hx : env.vars[p]? = some x) (hpending : slots[p]? = some none)
    (unasked : body.asksInVain x = false)
    (h : body.candidates ⟨env, .total current, .solving slots, []⟩ p .primed = .ok .unmentioned)
    (fill : (Slots.solving slots).FilledBy (.total next))
    (fill' : (Slots.solving slots).FilledBy (.total next'))
    (same : ∀ i, i ≠ p → next[i]? = next'[i]?)
    (hb : body.holds (.ofStep env current next) = .ok b)
    (hb' : body.holds (.ofStep env current next') = .ok b') : b = b' := by
  by_cases hindex : env.variableIndex? x = some p
  · let c : Context := ⟨env, .total current, .solving slots, []⟩
    rw [candidates, hx] at h
    have pending : c.pendingIn c.next x = true := by
      unfold Context.pendingIn
      rw [hindex]
      exact decide_eq_true hpending
    have hfill : c.FilledBy (.ofStep env current next) := ⟨rfl, .refl _, fill, rfl⟩
    have hfill' : c.FilledBy (.ofStep env current next') := ⟨rfl, .refl _, fill', rfl⟩
    exact ((Unknown.infers_of_infer h).accord rfl rfl pending unasked hfill hfill'
      (Context.sameBut_ofStep hx same)).rel hb hb'
  · -- the name stands for another position, so that nothing reads this one
    have hsame : (Context.ofStep env current next).Same (.ofStep env current next') := by
      refine fun y => ⟨rfl, Context.nextValue?_ofStep_congr same fun hy => ?_⟩
      by_cases hne : y = x
      · exact hindex (hne ▸ hy)
      · exact Context.variableIndex?_ne hx hne hy
    have hmeaning := meaning_of_holds hb
    rw [meaning_of_same hsame, meaning_of_holds hb'] at hmeaning
    cases hmeaning
    rfl

/-- The action `IF y' > 0 THEN x' \in {} ELSE y' = 0` -/
def emptied : Expr :=
  .ite .none (.binary .none .gt (.primed .none "y") (.literal .none (.int 0)))
    (.binary .none .mem (.primed .none "x") (.set .none []))
    (.binary .none .eq (.primed .none "y") (.literal .none (.int 0)))

-- The first alternative leaves no value for `x`, the second does not look at it.
theorem eq_of_candidates_eq_unmentioned_emptied :
    let env : Env := { vars := ["x", "y"] }
    let c : Context := ⟨env, .total [.int 0, .int 0], .solving [none, none], []⟩
    emptied.asksInVain "x" = false ∧ emptied.candidates c 0 .primed = .ok .unmentioned ∧
      emptied.holds (.ofStep env [.int 0, .int 0] [.int 5, .int 0]) = .ok true ∧
      ∀ v b, emptied.holds (.ofStep env [.int 0, .int 0] [v, .int 0]) = .ok b → true = b := by
  intro env c
  have unasked : emptied.asksInVain "x" = false := by decide
  have hcandidates : emptied.candidates c 0 .primed = .ok .unmentioned := by cbv
  have hholds : emptied.holds (.ofStep env [.int 0, .int 0] [.int 5, .int 0]) = .ok true := by cbv
  have fill : ∀ v, (Slots.solving [none, none]).FilledBy (.total [v, .int 0]) := by
    intro v i hi
    cases i with
    | zero => cases hi
    | succ i =>
      cases i with
      | zero => cases hi
      | succ i => rfl
  have same : ∀ (v : Value) i, i ≠ 0 → [Value.int 5, .int 0][i]? = [v, .int 0][i]? := by
    intro v i hi
    cases i with
    | zero => exact absurd rfl hi
    | succ i => rfl
  exact ⟨unasked, hcandidates, hholds, fun v b hb => eq_of_candidates_eq_unmentioned rfl rfl unasked
    hcandidates (fill _) (fill v) (same v) hholds hb⟩

/-- The action `IF x' > 0 THEN y' = 1 ELSE y' = 2` -/
def guess : Expr :=
  .ite .none (.binary .none .gt (.primed .none "x") (.literal .none (.int 0)))
    (.binary .none .eq (.primed .none "y") (.literal .none (.int 1)))
    (.binary .none .eq (.primed .none "y") (.literal .none (.int 2)))

-- The condition asks for `x`, and neither alternative mentions it.
theorem ne_of_candidates_guess :
    let env : Env := { vars := ["x", "y"] }
    let c : Context := ⟨env, .total [.int 0, .int 0], .solving [none, none], []⟩
    guess.candidates c 0 .primed = .ok .unmentioned ∧ guess.asksInVain "x" = true ∧
      guess.holds (.ofStep env [.int 0, .int 0] [.int 5, .int 1]) = .ok true ∧
      guess.holds (.ofStep env [.int 0, .int 0] [.int 0, .int 1]) = .ok false := by
  intro env c
  exact ⟨by cbv, by decide, by cbv, by cbv⟩

end Expr

end ActionSystem
