import ActionSystem.Proofs.Deduplication
import ActionSystem.Proofs.Search.Keeping
import ActionSystem.Proofs.Search.Outcome

/-!
# Lineages

The trace to a state is found by following predecessors, with nothing that obviously becomes less.
As long as only ids that the store has given out are passed as predecessors, every predecessor is
an earlier id, so that the trace ends at a state without one. In the store of a search the trace has
one step more than the recorded depth.
-/

namespace ActionSystem

namespace Store

variable {fp : State → Fingerprint} {s : Store} {names : List String} {id p : Nat} {e : Entry}
  {trace : List TraceStep}

/-! ## Following predecessors -/

/-- Following predecessors from an id on ends, with this trace. The steps found are put in front of
those found before; it is over where there is no predecessor or no entry. -/
inductive Unwinds (s : Store) (names : List String) :
    Option Nat → List TraceStep → List TraceStep → Prop where
  | done {found : List TraceStep} : Unwinds s names none found found
  | missing {id : Nat} {found : List TraceStep} (absent : s.get? id = none) :
      Unwinds s names (some id) found found
  | step {id : Nat} {e : Entry} {found trace : List TraceStep} (stored : s.get? id = some e)
      (rest : Unwinds s names e.predecessor (stepOf names e :: found) trace) :
      Unwinds s names (some id) found trace

-- What was found before stays at the end.
theorem Unwinds.append {next : Option Nat} {found : List TraceStep}
    (h : Unwinds s names next found trace) (later : List TraceStep) :
    Unwinds s names next (found ++ later) (trace ++ later) := by
  induction h with
  | done => exact .done
  | missing absent => exact .missing absent
  | step stored _ ih => exact .step stored ih

/-- The ids of a state and of those before it: each is the recorded predecessor of the next one, and
the first has none. -/
structure Ancestry (s : Store) (id : Nat) (ids : List Nat) : Prop where
  first : ∃ i ∈ ids.head?, ∃ e, s.get? i = some e ∧ e.predecessor = none
  linked : ids.IsChain fun i j => ∃ e, s.get? j = some e ∧ e.predecessor = some i
  last : ids.getLast? = some id

theorem ancestry_singleton (hid : s.get? id = some e) (first : e.predecessor = none) :
    s.Ancestry id [id] where
  first := ⟨id, rfl, e, hid, first⟩
  linked := .singleton _
  last := rfl

theorem Ancestry.concat {ids : List Nat} (h : s.Ancestry p ids) (hid : s.get? id = some e)
    (link : e.predecessor = some p) : s.Ancestry id (ids ++ [id]) where
  first := by
    obtain ⟨i, hi, hroot⟩ := h.first
    exact ⟨i, List.mem_head?_append_of_mem_head? hi, hroot⟩
  linked := by
    refine h.linked.append (.singleton _) ?_
    intro i hi j hj
    rw [h.last] at hi
    cases hi
    cases hj
    exact ⟨e, hid, link⟩
  last := List.getLast?_concat

/-- The trace to an id as it should be. -/
structure Lineage (s : Store) (names : List String) (id : Nat) (trace : List TraceStep) :
    Prop where
  /-- It is what following predecessors ends with. -/
  ends : s.Unwinds names (some id) [] trace
  length_le : trace.length ≤ id + 1
  /-- It leads to the state that is stored under the id. -/
  last : ∃ e, s.get? id = some e ∧ trace.getLast? = some (stepOf names e)
  /-- From a state without predecessor on, each step is the predecessor of the next one. -/
  ancestry : ∃ ids, s.Ancestry id ids ∧
    List.Forall₂ (fun i step => ∃ e, s.get? i = some e ∧ step = stepOf names e) ids trace

theorem lineage_singleton (hid : s.get? id = some e) (first : e.predecessor = none) :
    s.Lineage names id [stepOf names e] where
  ends := .step hid (first ▸ .done)
  length_le := Nat.le_add_left 1 id
  last := ⟨e, hid, rfl⟩
  ancestry := ⟨[id], ancestry_singleton hid first, .cons ⟨e, hid, rfl⟩ .nil⟩

-- The lineage of the predecessor goes on with one step.
theorem Lineage.concat (h : s.Lineage names p trace) (hid : s.get? id = some e)
    (link : e.predecessor = some p) (earlier : p < id) :
    s.Lineage names id (trace ++ [stepOf names e]) where
  ends := by
    have hrest : s.Unwinds names (some p) [stepOf names e] (trace ++ [stepOf names e]) :=
      h.ends.append _
    exact .step hid (link ▸ hrest)
  length_le := by
    have hle := h.length_le
    rw [List.length_append, List.length_singleton]
    omega
  last := ⟨e, hid, List.getLast?_concat⟩
  ancestry := by
    obtain ⟨ids, hids, hsteps⟩ := h.ancestry
    exact ⟨ids ++ [id], hids.concat hid link, List.rel_append hsteps (.cons ⟨e, hid, rfl⟩ .nil)⟩

def Descends (s : Store) : Prop :=
  ∀ id e p, s.get? id = some e → e.predecessor = some p → p < id

theorem Descends.traceOnto_lineage (h : s.Descends) {n : Nat} (hn : id < n)
    (hid : s.get? id = some e) : s.Lineage names id (s.traceOnto names n (some id) []) := by
  induction id using Nat.strong_induction_on generalizing n e with
  | _ id ih =>
    obtain ⟨n, rfl⟩ : ∃ k, n = k + 1 := ⟨n - 1, by omega⟩
    rw [traceOnto_succ names hid]
    cases hp : e.predecessor with
    | none => cases n <;> exact lineage_singleton hid hp
    | some p =>
      have earlier : p < id := h id e p hid hp
      obtain ⟨f, hf⟩ := get?_eq_some_of_lt (earlier.trans (lt_size_of_get? hid))
      exact (ih p earlier (by omega) hf).concat hid hp earlier

theorem Descends.trace_lineage (h : s.Descends) (names : List String)
    (hid : s.get? id = some e) : s.Lineage names id (s.trace names id) :=
  h.traceOnto_lineage (lt_size_of_get? hid) hid

theorem Descends.add (h : s.Descends) (earlier : ∀ p ∈ e.predecessor, p < s.size) :
    (s.add fp e).Descends := by
  intro id f p hf hp
  rw [get?_add] at hf
  by_cases hid : id = s.size
  · rw [if_pos hid] at hf
    cases hf
    exact hid ▸ earlier p hp
  · rw [if_neg hid] at hf
    exact h id f p hf hp

/-! ## Sequences of commands -/

theorem eq_of_insert?_eq_some {s' : Store} (h : s.insert? fp e = some (id, s')) :
    id = s.size ∧ s' = s.add fp e := by
  unfold insert? at h
  split at h
  · cases h
  · cases h
    exact ⟨rfl, rfl⟩

/-- A store with the ids that it has given out since it was last cleared. -/
structure Session where
  store : Store := .empty
  issued : List Nat := []

namespace Session

def perform (fp : State → Fingerprint) (t : Session) : Command → Session
  | .insert e =>
    match t.store.insert? fp e with
    | some (id, s) => ⟨s, t.issued ++ [id]⟩
    | none => t
  | .clear => {}

def replay (fp : State → Fingerprint) (cs : List Command) (t : Session) : Session :=
  cs.foldl (perform fp) t

def Admits (t : Session) : Command → Prop
  | .insert e => ∀ p ∈ e.predecessor, p ∈ t.issued
  | .clear => True

instance (t : Session) : (c : Command) → Decidable (t.Admits c)
  | .insert e => inferInstanceAs (Decidable (∀ p ∈ e.predecessor, p ∈ t.issued))
  | .clear => .isTrue trivial

/-- Each command passes only ids that have been given out by then. -/
def AdmitsAll (fp : State → Fingerprint) (t : Session) : List Command → Prop
  | [] => True
  | c :: cs => t.Admits c ∧ AdmitsAll fp (t.perform fp c) cs

instance decidableAdmitsAll (fp : State → Fingerprint) :
    (t : Session) → (cs : List Command) → Decidable (t.AdmitsAll fp cs)
  | _, [] => .isTrue trivial
  | t, c :: cs =>
    have := decidableAdmitsAll fp (t.perform fp c) cs
    inferInstanceAs (Decidable (t.Admits c ∧ AdmitsAll fp (t.perform fp c) cs))

structure Sound (t : Session) : Prop where
  stored : ∀ id ∈ t.issued, id < t.store.size
  descends : t.store.Descends

variable {t : Session}

theorem sound_new : Sound {} where
  stored := List.forall_mem_nil _
  descends := by simp [Descends]

theorem Sound.perform (h : t.Sound) {c : Command} (admitted : t.Admits c) :
    (t.perform fp c).Sound := by
  cases c with
  | clear => exact sound_new
  | insert e =>
    cases hinsert : t.store.insert? fp e with
    | none =>
      simp only [Session.perform, hinsert]
      exact h
    | some result =>
      obtain ⟨id, s⟩ := result
      simp only [Session.perform, hinsert]
      obtain ⟨rfl, rfl⟩ := eq_of_insert?_eq_some hinsert
      refine ⟨fun i hi => ?_, h.descends.add fun p hp => h.stored p (admitted p hp)⟩
      change i < (t.store.add fp e).size
      rw [size_add]
      rcases List.mem_append.mp hi with hi | hi
      · exact Nat.lt_succ_of_lt (h.stored i hi)
      · exact List.mem_singleton.mp hi ▸ Nat.lt_succ_self _

theorem Sound.replay (h : t.Sound) {cs : List Command} (admitted : t.AdmitsAll fp cs) :
    (t.replay fp cs).Sound := by
  induction cs generalizing t with
  | nil => exact h
  | cons c cs ih => exact ih (h.perform admitted.1) admitted.2

end Session

end Store

/-! ## Searches -/

namespace Store

variable {m : Model} {s : Store}

theorem Rooted.descends (h : s.Rooted m) : s.Descends := by
  intro id e p hid hp
  cases h id e hid with
  | root => cases hp
  | child earlier =>
    cases hp
    exact earlier

end Store

theorem Run.keeps_rooted (fp : State → Fingerprint) (m : Model) (c : Config) :
    Keeps fp m c (·.Rooted m) fun r _ => r.store.Rooted m where
  discover := by
    intro r e h link
    have hrooted := (discover_rooted fp c h.rooted link).1
    generalize r.discover fp m c e = o at hrooted
    obtain ⟨r', stop⟩ := o
    cases stop <;> exact hrooted
  fails := fun _ _ h _ => h
  stops := fun _ _ h _ => h

/-- However a check ends, its store is rooted in the initial states. -/
theorem Explorer.check_rooted (fp : State → Fingerprint) (x : Explorer) (around : Surroundings) :
    (x.check fp around).2.run.store.Rooted x.model :=
  x.check_keeps around (Run.keeps_rooted fp x.model x.config) Store.rooted_empty

/-! ## Traces -/

/-- After any sequence of commands that passes only ids given out since the last clearing, the trace
to each such id is its lineage. So it is for every state that a check has found, however the check
ends, and the recorded depth tells its length. All this is so whatever the fingerprints are. -/
theorem Store.trace_is_lineage :
    (∀ (fp : State → Fingerprint) (cs : List Command), Session.AdmitsAll fp {} cs →
      let t := Session.replay fp cs {}
      ∀ id ∈ t.issued, ∀ names, t.store.Lineage names id (t.store.trace names id)) ∧
    ∀ (fp : State → Fingerprint) (x : Explorer) (around : Surroundings) (id : Nat) (e : Entry),
      let s := (x.check fp around).2.run.store
      s.get? id = some e → ∀ names, s.Lineage names id (s.trace names id) ∧
        (s.trace names id).length = e.depth + 1 := by
  constructor
  · intro fp cs admitted t id issued names
    have sound : t.Sound := Session.sound_new.replay admitted
    obtain ⟨e, hid⟩ := get?_eq_some_of_lt (sound.stored id issued)
    exact sound.descends.trace_lineage names hid
  · intro fp x around id e s hid names
    have rooted : s.Rooted x.model := x.check_rooted fp around
    exact ⟨rooted.descends.trace_lineage names hid,
      rooted.length_traceOnto names (lt_size_of_get? hid) hid⟩

-- After the store has been cleared, its ids are given out again. The last state is found twice.
theorem Store.trace_is_lineage_cleared :
    let fp : State → Fingerprint := fun _ => ⟨0⟩
    let insert (n : Int64) (predecessor : Option Nat) : Command :=
      .insert ⟨⟨[.int n]⟩, predecessor, predecessor.map fun _ => 0, 0⟩
    let cs := [insert 5 none, .clear, insert 1 none, insert 2 (some 0), insert 3 (some 1),
      insert 3 (some 0)]
    let t := Session.replay fp cs {}
    let s := ((Explorer.counting []).check Explorer.scalar {}).2.run.store
    Session.AdmitsAll fp {} cs ∧ t.issued = [0, 1, 2] ∧
      t.store.trace ["Up"] 2 =
        [⟨none, ⟨[.int 1]⟩⟩, ⟨some "Up", ⟨[.int 2]⟩⟩, ⟨some "Up", ⟨[.int 3]⟩⟩] ∧
      t.store.Lineage ["Up"] 2 (t.store.trace ["Up"] 2) ∧
      s.Lineage ["Up"] 2 (s.trace ["Up"] 2) ∧ (s.trace ["Up"] 2).length = 3 := by
  intro fp insert cs t s
  have admitted : Session.AdmitsAll fp {} cs := by decide +kernel
  have issued : t.issued = [0, 1, 2] := by decide +kernel
  have htrace : t.store.trace ["Up"] 2 =
      [⟨none, ⟨[.int 1]⟩⟩, ⟨some "Up", ⟨[.int 2]⟩⟩, ⟨some "Up", ⟨[.int 3]⟩⟩] := by cbv
  have hentries : ((Explorer.counting []).check Explorer.scalar {}).2.run.store.entries.toList =
      [⟨⟨[.int 0]⟩, none, none, 0⟩, ⟨⟨[.int 1]⟩, some 0, some 0, 1⟩,
        ⟨⟨[.int 2]⟩, some 1, some 0, 2⟩] := by cbv
  have hid : s.get? 2 = some ⟨⟨[.int 2]⟩, some 1, some 0, 2⟩ := by
    rw [get?, ← Array.getElem?_toList, hentries]
    rfl
  exact ⟨admitted, issued, htrace,
    Store.trace_is_lineage.1 fp cs admitted 2 (by rw [issued]; decide) ["Up"],
    Store.trace_is_lineage.2 Explorer.scalar (.counting []) {} 2 _ hid ["Up"]⟩

end ActionSystem
