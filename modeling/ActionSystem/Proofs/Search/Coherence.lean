import ActionSystem.Proofs.Index
import ActionSystem.Proofs.Reachability
import ActionSystem.Search.Explorer

/-!
# Coherent stores

The store of a search remembers a forest: every state in it is initial or a successor of a state
that was stored before, and the depths do not decrease from one entry to the next. From this alone
the trace to a state replays, with one step more than the depth of the state.
-/

namespace ActionSystem

namespace Store

variable {fp : State → Fingerprint} {m : Model} {s : Store}

/-- An entry may stand at position `id`: its state is initial or a successor of an earlier one. -/
inductive Linked (m : Model) (s : Store) (id : Nat) : Entry → Prop where
  | root {state : State} (admitted : m.Initial state) : Linked m s id ⟨state, none, none, 0⟩
  | child {p action : Nat} {parent : Entry} {state : State} (earlier : p < id)
      (stored : s.get? p = some parent) (move : m.Step action parent.state state) :
      Linked m s id ⟨state, some p, some action, parent.depth + 1⟩

theorem Linked.add {id : Nat} {e : Entry} (h : Linked m s id e) (new : Entry) :
    Linked m (s.add fp new) id e := by
  cases h with
  | root admitted => exact .root admitted
  | child earlier stored move => exact .child earlier (get?_add_of_some new stored) move

def Rooted (m : Model) (s : Store) : Prop := ∀ id e, s.get? id = some e → Linked m s id e

theorem rooted_empty : Rooted m .empty := by simp [Rooted]

theorem Rooted.add (h : s.Rooted m) {e : Entry} (link : Linked m s s.size e) :
    (s.add fp e).Rooted m := by
  intro id f hf
  rw [get?_add] at hf
  by_cases hid : id = s.size
  · rw [if_pos hid] at hf
    cases hf
    exact hid ▸ link.add e
  · rw [if_neg hid] at hf
    exact (h id f hf).add e

-- The recorded depth is the length of some path.
theorem Rooted.reachedIn (h : s.Rooted m) {id : Nat} {e : Entry} (hid : s.get? id = some e) :
    m.ReachedIn e.depth e.state := by
  induction id using Nat.strong_induction_on generalizing e with
  | _ id ih =>
    cases h id e hid with
    | root admitted => exact .initial admitted
    | child earlier stored move => exact .step (ih _ earlier stored) move

-- A state that may be added can be reached.
theorem Linked.reachedIn {id : Nat} {e : Entry} (link : Linked m s id e) (h : s.Rooted m) :
    m.ReachedIn e.depth e.state := by
  cases link with
  | root admitted => exact .initial admitted
  | child earlier stored move => exact .step (h.reachedIn stored) move

/-- What a search keeps true of its store, also when it stops early. -/
structure Coherent (m : Model) (s : Store) : Prop where
  nodup : s.states.Nodup
  rooted : s.Rooted m
  sorted : ∀ i j e f, i ≤ j → s.get? i = some e → s.get? j = some f → e.depth ≤ f.depth

namespace Coherent

theorem empty : Coherent m .empty where
  nodup := List.nodup_nil
  rooted := rooted_empty
  sorted := by simp

-- A new state may be added at a depth that no entry exceeds.
theorem add (h : Coherent m s) {e : Entry} (new : e.state ∉ s.states)
    (link : Linked m s s.size e) (deepest : ∀ id f, s.get? id = some f → f.depth ≤ e.depth) :
    Coherent m (s.add fp e) where
  nodup := nodup_states_add h.nodup new
  rooted := h.rooted.add link
  sorted := by
    intro i j f g hij hf hg
    rw [get?_add] at hf hg
    by_cases hj : j = s.size
    · rw [if_pos hj] at hg
      cases hg
      by_cases hi : i = s.size
      · rw [if_pos hi] at hf
        cases hf
        exact Nat.le_refl _
      · rw [if_neg hi] at hf
        exact deepest i f hf
    · rw [if_neg hj] at hg
      have hlt := lt_size_of_get? hg
      rw [if_neg (by omega)] at hf
      exact h.sorted i j f g hij hf hg

end Coherent

/-! ## Traces -/

def stepOf (names : List String) (e : Entry) : TraceStep :=
  ⟨e.action.map (actionName names), e.state⟩

theorem traceOnto_eq_append (names : List String) (n : Nat) (id : Option Nat)
    (trace : List TraceStep) :
    s.traceOnto names n id trace = s.traceOnto names n id [] ++ trace := by
  induction n generalizing id trace with
  | zero => rfl
  | succ n ih =>
    cases id with
    | none => rfl
    | some id =>
      simp only [traceOnto]
      cases s.get? id with
      | none => rfl
      | some e =>
        simp only []
        rw [ih e.predecessor (_ :: trace), ih e.predecessor [_], List.append_assoc]
        rfl

-- The trace to a state is the one to its predecessor with one step more.
theorem traceOnto_succ (names : List String) {n id : Nat} {e : Entry}
    (h : s.get? id = some e) :
    s.traceOnto names (n + 1) (some id) [] =
      s.traceOnto names n e.predecessor [] ++ [stepOf names e] := by
  simp only [traceOnto, h]
  rw [traceOnto_eq_append]
  rfl

-- A state without predecessor has depth zero, and any other one is a step deeper than its
-- predecessor.
theorem Rooted.length_traceOnto (h : s.Rooted m) (names : List String) {n id : Nat} {e : Entry}
    (hn : id < n) (hid : s.get? id = some e) :
    (s.traceOnto names n (some id) []).length = e.depth + 1 := by
  induction id using Nat.strong_induction_on generalizing n e with
  | _ id ih =>
    obtain ⟨n, rfl⟩ : ∃ k, n = k + 1 := ⟨n - 1, by omega⟩
    rw [traceOnto_succ names hid, List.length_append, List.length_singleton]
    cases h id e hid with
    | root admitted => cases n <;> rfl
    | child earlier stored move => rw [ih _ earlier (by omega) stored]

structure LeadsTo (m : Model) (s : Store) (id : Nat) (e : Entry) (trace : List TraceStep) :
    Prop where
  replays : m.Replays trace
  length_eq : trace.length = e.depth + 1
  getLast?_eq : trace.getLast? = some (stepOf m.actionNames e)
  earlier : ∀ p ∈ trace.dropLast, ∃ i f, i < id ∧ s.get? i = some f ∧ f.state = p.state

theorem stepOf_state (names : List String) (e : Entry) : (stepOf names e).state = e.state := rfl

theorem Rooted.traceOnto_leadsTo (h : s.Rooted m) {n id : Nat} {e : Entry} (hn : id < n)
    (hid : s.get? id = some e) :
    LeadsTo m s id e (s.traceOnto m.actionNames n (some id) []) := by
  induction id using Nat.strong_induction_on generalizing n e with
  | _ id ih =>
    have hlength := h.length_traceOnto m.actionNames hn hid
    obtain ⟨n, rfl⟩ : ∃ k, n = k + 1 := ⟨n - 1, by omega⟩
    rw [traceOnto_succ m.actionNames hid] at hlength ⊢
    cases h id e hid with
    | @root state admitted =>
      cases n <;> exact
        { replays := Model.replays_singleton admitted
          length_eq := hlength
          getLast?_eq := rfl
          earlier := by simp [traceOnto] }
    | @child p action parent state earlier stored move =>
      have before := ih p earlier (n := n) (by omega) stored
      obtain ⟨name, hname⟩ := move.exists_name
      have hfollows : m.Follows (stepOf m.actionNames parent)
          (stepOf m.actionNames ⟨state, some p, some action, parent.depth + 1⟩) :=
        ⟨action, name, hname, by simp [stepOf, actionName, hname], move⟩
      refine
        { replays := before.replays.concat before.getLast?_eq hfollows
          length_eq := hlength
          getLast?_eq := by simp
          earlier := ?_ }
      intro q hq
      rw [List.dropLast_concat] at hq
      -- the predecessor is the last of these, and the others come before it
      rw [← List.dropLast_append_getLast? _ (Option.mem_def.mpr before.getLast?_eq)] at hq
      rcases List.mem_append.mp hq with hq | hq
      · obtain ⟨i, f, hi, hf⟩ := before.earlier q hq
        exact ⟨i, f, by omega, hf⟩
      · rw [List.mem_singleton] at hq
        subst hq
        exact ⟨p, parent, earlier, stored, rfl⟩

/-- The trace to a stored state replays and has as many actions as the depth of the state. -/
theorem Rooted.trace_leadsTo (h : s.Rooted m) {id : Nat} {e : Entry}
    (hid : s.get? id = some e) : LeadsTo m s id e (s.trace m.actionNames id) :=
  h.traceOnto_leadsTo (lt_size_of_get? hid) hid

end Store

end ActionSystem
