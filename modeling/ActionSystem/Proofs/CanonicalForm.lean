import Mathlib
import ActionSystem.Proofs.Reachability
import ActionSystem.Proofs.Solve.Canonical
import ActionSystem.Proofs.Solve.Solutions
import ActionSystem.Proofs.Value.Extensionality

/-!
# Canonical form

Canonical values are what a specification with canonical constants works with: evaluation, initial
states and steps never leave them. And among them equality is what it should be, for sets and for
functions, so that comparing states as terms compares what they mean.
-/

namespace ActionSystem

namespace Model

variable {m : Model} {s t : State}

theorem Initial.canonical (h : m.Initial s) (henv : m.env.Canonical) : s.Canonical := by
  obtain ⟨all, hall, hs⟩ := h
  exact Relation.gives_states henv (by simp) all hall s hs

theorem Step.canonical {action : Nat} (h : m.Step action s t) (henv : m.env.Canonical)
    (hs : s.Canonical) : t.Canonical := by
  obtain ⟨all, hall, ht⟩ := h
  unfold successors at hall
  cases ha : m.actions[action]? with
  | some a =>
    rw [ha] at hall
    exact Relation.gives_states henv hs all hall t ht
  | none =>
    rw [ha] at hall
    cases hall
    cases ht

/-- All reachable states are canonical. -/
theorem Reachable.canonical (h : m.Reachable s) (henv : m.env.Canonical) : s.Canonical := by
  obtain ⟨n, path⟩ := h
  induction path with
  | initial admitted => exact admitted.canonical henv
  | step _ move ih => exact move.canonical henv ih

end Model

/-- The expression `[[k \in 0..1 |-> {k, seen}] EXCEPT ![0] = {2, 1}]` -/
def table : Expr :=
  .except .none
    (.bind .none .function "k" (.range .none (.literal .none (.int 0)) (.literal .none (.int 1)))
      (.set .none [.name .none "k", .name .none "seen"]))
    (.literal .none (.int 0)) (.set .none [.literal .none (.int 2), .literal .none (.int 1)])

/-- One variable, first the empty set. The only action puts `table` into it. -/
def collecting : Spec where
  name := "Collecting"
  vars := [⟨"seen", .none⟩]
  init := .binary .none .eq (.name .none "seen") (.set .none [])
  actions := [⟨"Collect", .binary .none .eq (.primed .none "seen")
    (.binary .none .union (.set .none [table]) (.name .none "seen")), .none⟩]

/-- Canonical form is closed under evaluation and under the initial states and steps of models. It
is extensional: canonical sets are equal exactly when they have the same members, canonical
functions and sequences exactly when they have the same domain and the same values there. -/
theorem canonical_closed_and_extensional :
    (∀ (e : Expr) (c : Context) v, c.Canonical → e.eval c = .ok v → v.Canonical) ∧
    (∀ m : Model, m.env.Canonical →
      (∀ all, m.initialStates = .ok all → ∀ s ∈ all, s.Canonical) ∧
      ∀ action s all, s.Canonical → m.successors action s = .ok all → ∀ t ∈ all, t.Canonical) ∧
    (∀ xs ys, (Value.set xs).Canonical → (Value.set ys).Canonical →
      (Value.set xs = .set ys ↔ (Value.set xs).SameMembers (.set ys))) ∧
    ∀ f g : Value, f.Canonical → g.Canonical → f.IsFunction → g.IsFunction →
      (f = g ↔ f.SameGraph g) := by
  refine ⟨?_, fun m henv => ⟨?_, ?_⟩, fun xs ys hx hy => ⟨?_, ?_⟩, fun f g hf hg ff fg => ⟨?_, ?_⟩⟩
  · exact fun e c v hc hv => e.gives_eval hc v hv
  · exact fun all hall s hs => Model.Initial.canonical ⟨all, hall, hs⟩ henv
  · intro action s all hs hall t ht
    have move : m.Step action s t := ⟨all, hall, ht⟩
    exact move.canonical henv hs
  · intro heq x
    rw [heq]
  · exact Value.eq_of_sameMembers hx hy
  · intro heq
    rw [heq]
    exact ⟨rfl, fun _ _ _ _ => rfl⟩
  · exact Value.eq_of_sameGraph hf hg ff fg

theorem canonical_closed_and_extensional_collecting :
    let m := Model.ofSpec collecting []
    let f : Value := .fn [(.int 0, .set [.int 1, .int 2]), (.int 1, .set [.int 1, .set []])]
    table.eval (.ofState m.env [.set []]) = .ok f ∧ f.Canonical ∧
      m.initialStates = .ok [⟨[.set []]⟩] ∧ State.Canonical ⟨[.set []]⟩ ∧
      m.successors 0 ⟨[.set []]⟩ = .ok [⟨[.set [f]]⟩] ∧ State.Canonical ⟨[.set [f]]⟩ ∧
      ¬(Value.set []).SameMembers (.set [f]) ∧
      ¬f.SameGraph (.seq [.set [.int 1, .int 2], .set [.int 1, .set []]]) := by
  intro m f
  obtain ⟨closed, states, sets, functions⟩ := canonical_closed_and_extensional
  have henv : m.env.Canonical := by intro v hv; cases hv
  have htable : table.eval (.ofState m.env [.set []]) = .ok f := by cbv
  have hinit : m.initialStates = .ok [⟨[.set []]⟩] := by cbv
  have hstep : m.successors 0 ⟨[.set []]⟩ = .ok [⟨[.set [f]]⟩] := by cbv
  have first : State.Canonical ⟨[.set []]⟩ := (states m henv).1 _ hinit _ (by simp)
  have second : State.Canonical ⟨[.set [f]]⟩ := (states m henv).2 0 _ _ first hstep _ (by simp)
  have context : (Context.ofState m.env [.set []]).Canonical :=
    ⟨henv, Relation.canonical_total first, Relation.canonical_absent, by simp [Context.ofState]⟩
  have hf : f.Canonical := closed table _ f context htable
  refine ⟨htable, hf, hinit, first, hstep, second, ?_, ?_⟩
  · intro h
    cases (sets [] [f] (first _ (by simp)) (second _ (by simp))).mpr h
  · intro h
    have items : Value.Canonical (.seq [.set [.int 1, .int 2], .set [.int 1, .set []]]) :=
      .seq (List.forall_mem_map.mpr hf.values)
    have short : Value.IsFunction (.seq [.set [.int 1, .int 2], .set [.int 1, .set []]]) := by
      norm_num [Value.IsFunction]
    have heq := (functions f _ hf items trivial short).mpr h
    simp [f] at heq

end ActionSystem
