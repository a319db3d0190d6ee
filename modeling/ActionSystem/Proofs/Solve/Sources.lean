import ActionSystem.Proofs.Eval.Errors
import ActionSystem.Proofs.Solve.Foresight
import ActionSystem.Proofs.Solve.Solutions

/-!
# Sources of values

An enumeration stops at a variable without a source of values only if the prospects of the variable
foresee this, or if something that inference needs for it is still pending. The computed order has
everything that is needed in front, unless variables hang on themselves or a dependency was missed.
If it has, and the prospects are decided, then no other order is better.
-/

namespace ActionSystem

namespace Relation

variable {r : Relation} {env : Env} {current : List Value} {slots : List (Option Value)}
  {p : Nat} {x : String}

theorem isLocal_partialContext (y : String) :
    (r.partialContext env current slots).isLocal y = false := by
  unfold partialContext
  cases r.form <;> rfl

theorem given_partialContext (i : Nat) :
    (r.form.given (r.partialContext env current slots)).isPending i = false := by
  unfold partialContext
  cases r.form <;> rfl

theorem faces_partialContext (nodup : env.vars.Nodup) (hx : env.vars[p]? = some x)
    (hpending : slots[p]? = some none) :
    (Unknown.mk x r.form).Faces p [] (r.partialContext env current slots) where
  index := by
    rw [env_partialContext]
    exact Env.variableIndex?_of_getElem? nodup hx
  taken := isLocal_partialContext
  pending := by
    unfold partialContext
    cases r.form <;> simp [Form.solved, Slots.isPending, hpending]
  given := given_partialContext

theorem solved_partialContext :
    r.form.solved (r.partialContext env current slots) = .solving slots := by
  unfold partialContext
  cases r.form <;> rfl

/-- What inference answers at some point of the search is foreseen. -/
theorem allows_of_partialContext (nodup : env.vars.Nodup) (hx : env.vars[p]? = some x)
    (hpending : slots[p]? = some none) {a : Candidates}
    (h : (Unknown.mk x r.form).infer (r.partialContext env current slots) r.body
      (r.partialContext env current slots) = .ok a) :
    (r.body.prospect env.vars r.form p []).Allows
      (∀ w, Expr.DependsOn (r.body.needs env.vars r.form [] []) p w →
        (Slots.solving slots).isPending w = false) a := by
  have hsite : (Unknown.mk x r.form).Site p _ r.body [] [] (r.partialContext env current slots) :=
    ⟨faces_partialContext nodup hx hpending, List.Subset.refl _⟩
  have hallows := Unknown.foreseen r.body hsite h
  unfold Unknown.Known at hallows
  rw [solved_partialContext, env_partialContext] at hallows
  exact hallows

-- The search has no values to go on with if inference gives no list.
theorem exists_infer_of_noSource {span : Span} {shown : String} (hx : env.vars[p]? = some x)
    (h : r.choices env current slots p = .error ⟨span, .noSource shown⟩) :
    ∃ a, (Unknown.mk x r.form).infer (r.partialContext env current slots) r.body
        (r.partialContext env current slots) = .ok a ∧
      (a = .constrained ∨ a = .unmentioned ∧ r.form = .unprimed) := by
  unfold choices at h
  rw [Expr.candidates, env_partialContext, hx] at h
  simp only [] at h
  cases ha : (Unknown.mk x r.form).infer (r.partialContext env current slots) r.body
      (r.partialContext env current slots) with
  | error err =>
    rw [ha] at h
    cases h
    exact absurd rfl ((Unknown.fails_infer _ _ _ _ _ ha).genuine shown)
  | ok a =>
    rw [ha] at h
    refine ⟨a, rfl, ?_⟩
    cases a with
    | constrained => exact .inl rfl
    | disabled | values vs => cases h
    | unmentioned =>
      cases hform : r.form with
      | unprimed => exact .inr ⟨rfl, rfl⟩
      | primed =>
        simp only [hform] at h
        cases h

-- The prospects foresee that there are no values when all that is needed for the variable is known.
theorem hangs_of_noSource (nodup : env.vars.Nodup) (hx : env.vars[p]? = some x)
    (hpending : slots[p]? = some none) {span : Span} {shown : String}
    (h : r.choices env current slots p = .error ⟨span, .noSource shown⟩)
    (known : ∀ w, Expr.DependsOn (r.body.needs env.vars r.form [] []) p w →
      (Slots.solving slots).isPending w = false) :
    (r.body.prospect env.vars r.form p []).hangs = true ∨
      r.form = .unprimed ∧ (r.body.prospect env.vars r.form p []).skips = true := by
  obtain ⟨a, ha, hcases⟩ := exists_infer_of_noSource hx h
  have hallows := allows_of_partialContext nodup hx hpending ha
  rcases hcases with rfl | ⟨rfl, hform⟩
  · exact .inl (hallows known)
  · exact .inr ⟨hform, hallows⟩

-- If a state is found, in whatever order, then there were values for every variable.
theorem lists_of_mem_states (ordered : r.IsOrdered env) (nodup : env.vars.Nodup)
    {states : List State} {s : State} (h : r.states env current = .ok states) (hs : s ∈ states)
    (hx : env.vars[p]? = some x) :
    (r.body.prospect env.vars r.form p []).lists = true ∨
      r.form = .primed ∧ (r.body.prospect env.vars r.form p []).skips = true := by
  have hlt : p < env.vars.length := (List.getElem?_eq_some_iff.mp hx).1
  obtain ⟨slots, vs, v, hpending, -, hvs, hv, -⟩ := (solves_of_mem_states ordered h hs).chosen p
    (ordered.mem_iff.mpr (List.mem_range.mpr hlt)) (by rw [List.length_replicate]; exact hlt)
  obtain ⟨a, ha, hcases⟩ := infer_of_choices hx hvs
  have hallows := allows_of_partialContext nodup hx hpending ha
  rcases hcases with ⟨-, rfl⟩ | rfl | ⟨rfl, hform, -⟩
  · cases hv
  · exact .inl hallows
  · exact .inr ⟨hform, hallows⟩

theorem fails_accept (r : Relation) (env : Env) (current : List Value)
    (slots : List (Option Value)) :
    Result.Fails (EvalError.ArisesIn r.body) (r.accept env current slots) := by
  unfold accept
  split
  · exact .ok
  · refine .bind (r.body.fails_holds _) fun b _ => ?_
    cases b <;> exact .pure

theorem states_eq_error (ordered : r.IsOrdered env) {err : EvalError}
    (h : r.states env current = .error err) :
    (r.search env current r.order (List.replicate env.vars.length none)).collect = .error err := by
  unfold Relation.states at h
  rw [← assignments_eq_search ordered.nodup]
  cases hc : (r.assignments env current).collect with
  | ok found =>
    rw [hc] at h
    cases h
  | error e =>
    rw [hc] at h
    cases h
    rfl

-- An enumeration without a source stops at a variable, with those before it in the order known.
theorem exists_choices_of_noSource (ordered : r.IsOrdered env) {span : Span} {shown : String}
    (h : r.states env current = .error ⟨span, .noSource shown⟩) :
    ∃ before p rest slots, r.order = before ++ p :: rest ∧
      (∀ q : Nat, slots[q]? = some none ↔ q ∈ p :: rest) ∧
      r.choices env current slots p = .error ⟨span, .noSource shown⟩ := by
  have hsearch := exists_of_search_eq_error ordered.nodup (states_eq_error ordered h)
    ordered.pending_replicate
  rcases hsearch with hchoices | ⟨slots, haccept⟩
  · exact hchoices
  · exact absurd rfl ((r.fails_accept env current slots _ haccept).genuine shown)

-- Where the search stops, all that is needed for the variable is known.
theorem known_of_split {before rest : List Nat}
    (computed : r.order = r.body.solvingOrder env.vars r.form)
    (acyclic : Expr.Acyclic (r.body.dependencies env.vars r.form [] []))
    (missed : r.order.Pairwise fun v w => ¬ r.body.Missed env.vars r.form v w)
    (split : r.order = before ++ p :: rest)
    (hpending : ∀ q : Nat, slots[q]? = some none ↔ q ∈ p :: rest) {w : Nat}
    (needed : Expr.DependsOn (r.body.needs env.vars r.form [] []) p w) :
    (Slots.solving slots).isPending w = false := by
  have collected : r.order.Pairwise fun v w =>
      ¬ Expr.DependsOn (r.body.dependencies env.vars r.form [] []) v w :=
    computed ▸ Expr.solvingOrder_pairwise acyclic
  rw [split, List.pairwise_append] at collected missed
  by_contra hw
  have hw' : slots[w]? = some none := by simpa [Slots.isPending] using hw
  rcases List.mem_cons.mp ((hpending w).mp hw') with heq | hrest
  · exact needed.2 heq.symm
  · have hcollected := (List.pairwise_cons.mp collected.2.1).1 w hrest
    exact (List.pairwise_cons.mp missed.2.1).1 w hrest ⟨needed, hcollected⟩

/-- If no variable hangs on itself, the order has in front whatever a variable was missed to depend
on, and the prospects are decided, then an order in which the search finds a state shows that the
computed order does not miss the source of any variable. -/
theorem states_ne_noSource (nodup : env.vars.Nodup)
    (computed : r.order = r.body.solvingOrder env.vars r.form)
    (acyclic : Expr.Acyclic (r.body.dependencies env.vars r.form [] []))
    (missed : r.order.Pairwise fun v w => ¬ r.body.Missed env.vars r.form v w)
    (decided : ∀ p < env.vars.length,
      (r.body.prospect env.vars r.form p []).isDecided r.form = true)
    {order : List Nat} (perm : order.Perm (List.range env.vars.length)) {states : List State}
    (found : Relation.states { r with order } env current = .ok states) (nonempty : states ≠ [])
    (span : Span) (shown : String) :
    r.states env current ≠ .error ⟨span, .noSource shown⟩ := by
  intro herror
  have ordered : r.IsOrdered env := by
    show r.order.Perm _
    rw [computed]
    exact Expr.solvingOrder_perm _ _ _
  obtain ⟨before, p, rest, slots, hsplit, hpending, hchoices⟩ :=
    exists_choices_of_noSource ordered herror
  have hmem : p ∈ r.order := hsplit ▸ List.mem_append_right _ List.mem_cons_self
  have hlt : p < env.vars.length := List.mem_range.mp (ordered.mem_iff.mp hmem)
  have hx : env.vars[p]? = some env.vars[p] := List.getElem?_eq_getElem hlt
  have hhangs := hangs_of_noSource nodup hx ((hpending p).mpr List.mem_cons_self) hchoices
    fun w => known_of_split computed acyclic missed hsplit hpending
  -- in the other order there were values, so that the prospect would be open
  obtain ⟨s, hs⟩ := List.exists_mem_of_ne_nil states nonempty
  have hlists := lists_of_mem_states (r := { r with order }) perm nodup found hs hx
  exact Prospect.not_isDecided hlists hhangs (decided p hlt)

/-- The action `a' = c' + 1 /\ (\E k \in 0..b' : c' = k) /\ b' = 1 /\
(d' = 0 \/ (LET k == b' IN UNCHANGED d))` -/
def chained : Expr :=
  .conj [
    .binary .none .eq (.primed .none "a")
      (.binary .none .add (.primed .none "c") (.literal .none (.int 1))),
    .bind .none .any "k" (.range .none (.literal .none (.int 0)) (.primed .none "b"))
      (.binary .none .eq (.primed .none "c") (.name .none "k")),
    .binary .none .eq (.primed .none "b") (.literal .none (.int 1)),
    .logical .none .or (.binary .none .eq (.primed .none "d") (.literal .none (.int 0)))
      (.letIn .none "k" (.primed .none "b") (.unchanged .none ["d"]))]

-- The variables cannot be solved for in the order in which they are declared. That the frame needs
-- `b` is missed, but `b` is in front of `d` anyway.
theorem states_ne_noSource_chained :
    let env : Env := { vars := ["a", "b", "c", "d"] }
    let r : Relation := .action "Chained" chained env.vars
    let current : List Value := [.int 5, .int 5, .int 5, .int 5]
    let states : List State := [⟨[.int 1, .int 1, .int 0, .int 0]⟩,
      ⟨[.int 1, .int 1, .int 0, .int 5]⟩, ⟨[.int 2, .int 1, .int 1, .int 0]⟩,
      ⟨[.int 2, .int 1, .int 1, .int 5]⟩]
    r.order = [1, 2, 0, 3] ∧ r.body.Missed env.vars r.form 3 1 ∧
      Relation.states { r with order := [1, 3, 2, 0] } env current = .ok states ∧
      ∀ span shown, r.states env current ≠ .error ⟨span, .noSource shown⟩ := by
  intro env r current states
  have found : Relation.states { r with order := [1, 3, 2, 0] } env current = .ok states := by cbv
  have acyclic : Expr.Acyclic (r.body.dependencies env.vars r.form [] []) :=
    Expr.acyclic_of_rank (fun v => [2, 0, 1, 0].getD v 0) (by decide)
  exact ⟨by decide, by decide, found, states_ne_noSource (by decide) rfl acyclic (by decide)
    (by decide) (by decide) found (by simp [states])⟩

/-! ## Misordered variables -/

/-- Another order finds the states where the computed one reports an unbounded domain. -/
def Misordered (r : Relation) (env : Env) (current : List Value) (order : List Nat)
    (states : List State) : Prop :=
  Relation.states { r with order } env current = .ok states ∧
    ∃ err, r.states env current = .error err ∧ err.kind = .unboundedDomain

/-- Nothing but a missed dependency of the first variable on the second is in the way. -/
structure Overlooked (r : Relation) (env : Env) : Prop where
  acyclic : Expr.Acyclic (r.body.dependencies env.vars r.form [] [])
  decided : ∀ p < env.vars.length, (r.body.prospect env.vars r.form p []).isDecided r.form = true
  missed : r.body.Missed env.vars r.form 0 1

/-- The action `y' \in 0..2 /\ (LET k == y' IN UNCHANGED x)` -/
def wrappedFrame : Expr :=
  .logical .none .and
    (.binary .none .mem (.primed .none "y")
      (.range .none (.literal .none (.int 0)) (.literal .none (.int 2))))
    (.letIn .none "k" (.primed .none "y") (.unchanged .none ["x"]))

/-- The action `(y' = 1 => x' = 2) /\ y' = 1` -/
def premised : Expr :=
  .logical .none .and
    (.logical .none .implies (.binary .none .eq (.primed .none "y") (.literal .none (.int 1)))
      (.binary .none .eq (.primed .none "x") (.literal .none (.int 2))))
    (.binary .none .eq (.primed .none "y") (.literal .none (.int 1)))

/-- The predicate `x = (IF \E y \in {} : UNCHANGED y THEN 1 ELSE 2) /\ y = 1` -/
def takenFrame : Expr :=
  .logical .none .and
    (.binary .none .eq (.name .none "x")
      (.ite .none (.bind .none .any "y" (.set .none []) (.unchanged .none ["y"]))
        (.literal .none (.int 1)) (.literal .none (.int 2))))
    (.binary .none .eq (.name .none "y") (.literal .none (.int 1)))

-- The surroundings of a frame, the premise of an implication, and a frame whose name a binder takes
-- are not counted as dependencies, but inference waits for them.
theorem misordered_missed :
    let env : Env := { vars := ["x", "y"] }
    let frame : Relation := .action "A" wrappedFrame env.vars
    let premise : Relation := .action "A" premised env.vars
    let taken : Relation := .initial takenFrame env.vars
    (frame.Overlooked env ∧ Misordered frame env [.int 0, .int 0] [1, 0]
        [⟨[.int 0, .int 0]⟩, ⟨[.int 0, .int 1]⟩, ⟨[.int 0, .int 2]⟩]) ∧
      (premise.Overlooked env ∧
        Misordered premise env [.int 0, .int 0] [1, 0] [⟨[.int 2, .int 1]⟩]) ∧
      (taken.Overlooked env ∧ Misordered taken env [] [1, 0] [⟨[.int 2, .int 1]⟩]) := by
  intro env frame premise taken
  have independent {deps : List Dependency} (h : deps = []) : Expr.Acyclic deps :=
    Expr.acyclic_of_rank (fun _ => 0) (by simp [h])
  refine ⟨⟨⟨independent (by decide), by decide, by decide⟩, by cbv, ⟨.none, .noSource "x'"⟩, ?_⟩,
    ⟨⟨independent (by decide), by decide, by decide⟩, by cbv, ⟨.none, .noSource "x'"⟩, ?_⟩,
    ⟨⟨independent (by decide), by decide, by decide⟩, by cbv, ⟨.none, .noSource "x"⟩, ?_⟩⟩
  · exact ⟨by cbv, rfl⟩
  · exact ⟨by cbv, rfl⟩
  · exact ⟨by cbv, rfl⟩

/-- The action `x' = y' /\ y' = 3` -/
def mirrored : Expr :=
  .logical .none .and (.binary .none .eq (.primed .none "x") (.primed .none "y"))
    (.binary .none .eq (.primed .none "y") (.literal .none (.int 3)))

/-- The action `x' > 0 /\ y' \in {}` -/
def unsourced : Expr :=
  .logical .none .and (.binary .none .gt (.primed .none "x") (.literal .none (.int 0)))
    (.binary .none .mem (.primed .none "y") (.set .none []))

/-- The action `x' \in SUBSET (1..30) /\ y' \in {}` -/
def oversized : Expr :=
  .logical .none .and
    (.binary .none .mem (.primed .none "x") (.unary .none .powerset
      (.range .none (.literal .none (.int 1)) (.literal .none (.int 30)))))
    (.binary .none .mem (.primed .none "y") (.set .none []))

/-- The action `((y' = 1 /\ x' > 3) \/ x' = 2) /\ y' = 5` -/
def lopsided : Expr :=
  .logical .none .and
    (.logical .none .or
      (.logical .none .and (.binary .none .eq (.primed .none "y") (.literal .none (.int 1)))
        (.binary .none .gt (.primed .none "x") (.literal .none (.int 3))))
      (.binary .none .eq (.primed .none "x") (.literal .none (.int 2))))
    (.binary .none .eq (.primed .none "y") (.literal .none (.int 5)))

/-- The predicate `(x = 1 \/ y = 2) /\ y = 3` -/
def lopsidedInit : Expr :=
  .logical .none .and
    (.logical .none .or (.binary .none .eq (.name .none "x") (.literal .none (.int 1)))
      (.binary .none .eq (.name .none "y") (.literal .none (.int 2))))
    (.binary .none .eq (.name .none "y") (.literal .none (.int 3)))

-- Without a missed dependency: two variables that hang on each other keep their order; a variable
-- without a source, or with too many values, is no trouble if another one has none; and an
-- alternative that gives no values for a variable is no trouble if it is known to be false.
theorem misordered_pairs :
    let env : Env := { vars := ["x", "y"] }
    let current : List Value := [.int 0, .int 5]
    Misordered (.action "A" mirrored env.vars) env current [1, 0] [⟨[.int 3, .int 3]⟩] ∧
      Misordered (.action "A" unsourced env.vars) env current [1, 0] [] ∧
      Misordered (.action "A" oversized env.vars) env current [1, 0] [] ∧
      Misordered (.action "A" lopsided env.vars) env current [1, 0] [⟨[.int 2, .int 5]⟩] ∧
      Misordered (.initial lopsidedInit env.vars) env [] [1, 0] [⟨[.int 1, .int 3]⟩] := by
  intro env current
  exact ⟨⟨by cbv, ⟨.none, .noSource "x'"⟩, by cbv, rfl⟩,
    ⟨by cbv, ⟨.none, .noSource "x'"⟩, by cbv, rfl⟩,
    ⟨by cbv, ⟨.none, .fault (.tooLarge "SUBSET" 30)⟩, by cbv, rfl⟩,
    ⟨by cbv, ⟨.none, .noSource "x'"⟩, by cbv, rfl⟩,
    ⟨by cbv, ⟨.none, .noSource "x"⟩, by cbv, rfl⟩⟩

end Relation

end ActionSystem
