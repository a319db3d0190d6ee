import Mathlib.Data.Finset.Card
import ActionSystem.Proofs.Index

/-!
# Deduplication

A store under any sequence of insertions and clearings. Its fingerprints may collide as they like:
it holds the states that were inserted since it was last cleared, each once and in the order of
their first insertions, and it counts its collisions exactly.
-/

namespace ActionSystem.Store

variable {fp : State → Fingerprint} {s : Store}

/-! ## Commands -/

inductive Command where
  | insert (e : Entry)
  | clear

def perform (fp : State → Fingerprint) (s : Store) : Command → Store
  | .insert e =>
    match s.insert? fp e with
    | some (_, s) => s
    | none => s
  | .clear => empty

def replay (fp : State → Fingerprint) (cs : List Command) : Store := cs.foldl (perform fp) empty

/-- The entries to be kept after a command: an insertion counts if it is the first for its state. -/
def keep (es : List Entry) : Command → List Entry
  | .insert e => if e.state ∈ es.map (·.state) then es else es ++ [e]
  | .clear => []

def kept (cs : List Command) : List Entry := cs.foldl keep []

/-! ## Distinct states -/

/-- Whatever the fingerprints are: the index agrees with the entries, no state is stored twice, and
the states that are no collisions have different fingerprints. -/
structure Distinct (fp : State → Fingerprint) (s : Store) : Prop where
  indexed : s.Indexed fp
  nodup : s.states.Nodup
  collisions_add_card : s.collisions + (s.states.map fp).toFinset.card = s.size

theorem distinct_empty : empty.Distinct fp where
  indexed := indexed_empty
  nodup := List.nodup_nil
  collisions_add_card := rfl

-- A fingerprint is listed if some state has it.
theorem bucket_eq_nil_iff (h : s.Indexed fp) {f : Fingerprint} :
    s.bucket f = [] ↔ f ∉ (s.states.map fp).toFinset := by
  rw [List.mem_toFinset, List.mem_map, List.eq_nil_iff_forall_not_mem]
  constructor
  · intro hnone hsome
    obtain ⟨state, hstate, hf⟩ := hsome
    obtain ⟨id, e, hid, rfl⟩ := mem_states_iff.mp hstate
    exact hnone id ((h f id).mpr ⟨e, hid, hf⟩)
  · intro hnone id hid
    obtain ⟨e, hget, hf⟩ := (h f id).mp hid
    exact hnone ⟨e.state, mem_states_iff.mpr ⟨id, e, hget, rfl⟩, hf⟩

theorem Distinct.add (h : s.Distinct fp) {e : Entry} (new : e.state ∉ s.states) :
    (s.add fp e).Distinct fp where
  indexed := h.indexed.add e
  nodup := nodup_states_add h.nodup new
  collisions_add_card := by
    have hcard := h.collisions_add_card
    rw [states_add, size_add, List.map_append, List.toFinset_append, List.map_singleton,
      List.toFinset_cons, List.toFinset_nil, insert_empty_eq, Finset.union_singleton]
    change (if (s.bucket (fp e.state)).isEmpty then s.collisions else s.collisions + 1) + _ = _
    by_cases hbucket : s.bucket (fp e.state) = []
    · rw [Finset.card_insert_of_notMem ((bucket_eq_nil_iff h.indexed).mp hbucket), hbucket]
      simp only [List.isEmpty_nil, if_true]
      omega
    · have hmem := not_not.mp (mt (bucket_eq_nil_iff h.indexed).mpr hbucket)
      rw [Finset.insert_eq_of_mem hmem, if_neg (by simpa using hbucket)]
      omega

-- States are told apart by comparison, so that a look-up gives the id of the state itself.
theorem Distinct.lookup?_eq_some_iff (h : s.Distinct fp) {state : State} {id : Nat} :
    s.lookup? fp state = some id ↔ ∃ e, s.get? id = some e ∧ e.state = state := by
  constructor
  · intro hlookup
    exact holds_iff.mp (List.find?_some hlookup)
  · intro hstored
    obtain ⟨e, hget, rfl⟩ := hstored
    have hcontains : s.contains fp e.state = true :=
      (contains_iff h.indexed).mpr (mem_states_iff.mpr ⟨id, e, hget, rfl⟩)
    obtain ⟨found, hfound⟩ := Option.isSome_iff_exists.mp hcontains
    obtain ⟨f, hf, hstate⟩ := holds_iff.mp (List.find?_some hfound)
    rw [hfound, eq_of_nodup h.nodup hf hget hstate]

/-! ## Insertion -/

theorem insert?_of_mem (h : s.Indexed fp) {e : Entry} (known : e.state ∈ s.states) :
    s.insert? fp e = none := by
  unfold insert?
  rw [if_pos ((contains_iff h).mpr known)]

theorem insert?_of_not_mem (h : s.Indexed fp) {e : Entry} (new : e.state ∉ s.states) :
    s.insert? fp e = some (s.size, s.add fp e) := by
  unfold insert?
  rw [if_neg (mt (contains_iff h).mp new)]

theorem insert?_eq_none_iff (h : s.Indexed fp) {e : Entry} :
    s.insert? fp e = none ↔ e.state ∈ s.states := by
  refine ⟨fun hnone => ?_, insert?_of_mem h⟩
  by_contra hnew
  rw [insert?_of_not_mem h hnew] at hnone
  cases hnone

theorem perform_of_mem (h : s.Indexed fp) {e : Entry} (known : e.state ∈ s.states) :
    s.perform fp (.insert e) = s := by
  simp only [perform, insert?_of_mem h known]

theorem perform_of_not_mem (h : s.Indexed fp) {e : Entry} (new : e.state ∉ s.states) :
    s.perform fp (.insert e) = s.add fp e := by
  simp only [perform, insert?_of_not_mem h new]

/-! ## Sequences of commands -/

theorem Distinct.perform (h : s.Distinct fp) (c : Command) :
    (s.perform fp c).Distinct fp ∧
      (s.perform fp c).entries.toList = keep s.entries.toList c := by
  cases c with
  | clear => exact ⟨distinct_empty, rfl⟩
  | insert e =>
    by_cases hknown : e.state ∈ s.states
    · rw [perform_of_mem h.indexed hknown]
      exact ⟨h, (if_pos hknown).symm⟩
    · rw [perform_of_not_mem h.indexed hknown]
      exact ⟨h.add hknown, (Array.toList_push).trans (if_neg hknown).symm⟩

structure Exact (fp : State → Fingerprint) (cs : List Command) (s : Store) : Prop where
  entries_eq : s.entries.toList = kept cs
  nodup : s.states.Nodup
  stored_iff : ∀ id, (∃ e, s.get? id = some e) ↔ id < s.size
  found_iff : ∀ state id, s.lookup? fp state = some id ↔ ∃ e, s.get? id = some e ∧ e.state = state
  refused_iff : ∀ e, s.insert? fp e = none ↔ e.state ∈ s.states
  unchanged : ∀ e, e.state ∈ s.states → s.perform fp (.insert e) = s
  appended : ∀ e, e.state ∉ s.states → ∃ s', s.insert? fp e = some (s.size, s') ∧
    s.perform fp (.insert e) = s' ∧ s'.entries = s.entries.push e
  collisions_add_card : s.collisions + (s.states.map fp).toFinset.card = s.size

theorem Distinct.exact (h : s.Distinct fp) {cs : List Command}
    (entries_eq : s.entries.toList = kept cs) : s.Exact fp cs where
  entries_eq := entries_eq
  nodup := h.nodup
  stored_iff := fun _ => ⟨fun hid => lt_size_of_get? hid.choose_spec, get?_eq_some_of_lt⟩
  found_iff := fun _ _ => h.lookup?_eq_some_iff
  refused_iff := fun _ => insert?_eq_none_iff h.indexed
  unchanged := fun _ => perform_of_mem h.indexed
  appended := fun e hnew =>
    ⟨s.add fp e, insert?_of_not_mem h.indexed hnew, perform_of_not_mem h.indexed hnew, rfl⟩
  collisions_add_card := h.collisions_add_card

theorem distinct_replay (fp : State → Fingerprint) (cs : List Command) :
    (replay fp cs).Distinct fp ∧ (replay fp cs).entries.toList = kept cs := by
  suffices h : ∀ s es, s.Distinct fp → s.entries.toList = es →
      (cs.foldl (perform fp) s).Distinct fp ∧
        (cs.foldl (perform fp) s).entries.toList = cs.foldl keep es from
    h empty [] distinct_empty rfl
  induction cs with
  | nil => exact fun s es h hes => ⟨h, hes⟩
  | cons c cs ih =>
    intro s es h hes
    obtain ⟨hnext, hkeep⟩ := h.perform c
    exact ih _ _ hnext (hes ▸ hkeep)

/-- Deduplication is exact after every sequence of commands, whatever the fingerprints are. -/
theorem exact_replay (fp : State → Fingerprint) (cs : List Command) :
    (replay fp cs).Exact fp cs :=
  (distinct_replay fp cs).1.exact (distinct_replay fp cs).2

-- Two states with one fingerprint are kept apart, and the second of them counts as a collision.
example :
    let fp : State → Fingerprint := fun _ => ⟨0⟩
    let e (n : Int64) : Entry := ⟨⟨[.int n]⟩, none, none, 0⟩
    let s := (empty.add fp (e 1)).add fp (e 2)
    s.lookup? fp ⟨[.int 2]⟩ = some 1 ∧ (s.insert? fp (e 1)).isNone ∧ s.collisions = 1 := by
  decide

end ActionSystem.Store
