import ActionSystem.Store

/-!
# The index of the store

The index is kept beside the entries, and a look-up goes through it. As long as the two agree, a
state is found exactly when it is stored (`contains_iff`), whatever the fingerprints are.
-/

namespace ActionSystem.Store

variable {fp : State → Fingerprint} {s : Store}

/-! ## Entries -/

@[simp] theorem get?_empty (id : Nat) : empty.get? id = none := by
  simp [empty, get?]

@[simp] theorem size_add (s : Store) (e : Entry) : (s.add fp e).size = s.size + 1 :=
  Array.size_push e

@[simp] theorem states_add (s : Store) (e : Entry) :
    (s.add fp e).states = s.states ++ [e.state] := by
  simp [states, add]

theorem get?_add (s : Store) (e : Entry) (id : Nat) :
    (s.add fp e).get? id = if id = s.size then some e else s.get? id :=
  Array.getElem?_push

theorem get?_add_of_lt (e : Entry) {id : Nat} (h : id < s.size) :
    (s.add fp e).get? id = s.get? id := by
  rw [get?_add, if_neg (by omega)]

@[simp] theorem get?_add_size (s : Store) (e : Entry) : (s.add fp e).get? s.size = some e := by
  rw [get?_add, if_pos rfl]

theorem lt_size_of_get? {id : Nat} {e : Entry} (h : s.get? id = some e) : id < s.size :=
  (Array.getElem?_eq_some_iff.mp h).1

theorem get?_eq_some_of_lt {id : Nat} (h : id < s.size) : ∃ e, s.get? id = some e :=
  ⟨s.entries[id], Array.getElem?_eq_getElem h⟩

-- What is stored stays stored under its id.
theorem get?_add_of_some (e : Entry) {id : Nat} {old : Entry} (h : s.get? id = some old) :
    (s.add fp e).get? id = some old := by
  rw [get?_add_of_lt e (lt_size_of_get? h), h]

theorem length_states (s : Store) : s.states.length = s.size := by
  simp [states, size]

theorem states_getElem? (s : Store) (id : Nat) : s.states[id]? = (s.get? id).map (·.state) := by
  simp [states, get?]

theorem mem_states_iff {state : State} :
    state ∈ s.states ↔ ∃ id e, s.get? id = some e ∧ e.state = state := by
  rw [List.mem_iff_getElem?]
  simp [states_getElem?]

-- A new state keeps the states distinct.
theorem nodup_states_add (h : s.states.Nodup) {e : Entry} (new : e.state ∉ s.states) :
    (s.add fp e).states.Nodup := by
  rw [states_add]
  refine List.nodup_append.mpr ⟨h, by simp, ?_⟩
  intro a ha b hb hab
  rw [List.mem_singleton] at hb
  exact new (hb ▸ hab ▸ ha)

-- An id belongs to one state only.
theorem eq_of_nodup (h : s.states.Nodup) {i j : Nat} {e f : Entry} (hi : s.get? i = some e)
    (hj : s.get? j = some f) (hs : e.state = f.state) : i = j := by
  have hlt : i < s.states.length := by
    rw [length_states]
    exact lt_size_of_get? hi
  apply (List.getElem?_inj hlt h).mp
  rw [states_getElem?, states_getElem?, hi, hj]
  simp [hs]

/-! ## Look-up -/

def Indexed (fp : State → Fingerprint) (s : Store) : Prop :=
  ∀ f id, id ∈ s.bucket f ↔ ∃ e, s.get? id = some e ∧ fp e.state = f

theorem indexed_empty : Indexed fp empty := by
  intro f id
  simp [bucket, empty, get?]

theorem bucket_add (s : Store) (e : Entry) (f : Fingerprint) :
    (s.add fp e).bucket f = if fp e.state = f then s.bucket f ++ [s.size] else s.bucket f := by
  have hw : fp e.state = f ↔ (fp e.state).word = f.word := by
    cases hf : fp e.state; cases f; simp
  unfold bucket add
  rw [Std.TreeMap.getD_insert]
  by_cases h : fp e.state = f
  · rw [if_pos (by simp [hw.mp h]), if_pos h, ← h]
    rfl
  · rw [if_neg (by simpa using fun h' => h (hw.mpr h')), if_neg h]

-- A new entry is listed under its fingerprint and nowhere else.
theorem Indexed.add (h : Indexed fp s) (e : Entry) : Indexed fp (s.add fp e) := by
  intro f id
  have hold : id = s.size → id ∉ s.bucket f := by
    intro hid hmem
    obtain ⟨old, hget, -⟩ := (h f id).mp hmem
    have := lt_size_of_get? hget
    omega
  rw [bucket_add, get?_add]
  by_cases hid : id = s.size
  · have hnot := hold hid
    by_cases hf : fp e.state = f <;> simp [hf, hid, hid ▸ hnot]
  · by_cases hf : fp e.state = f <;> simp [hf, hid, h f id]

theorem holds_iff {state : State} {id : Nat} :
    s.holds state id = true ↔ ∃ e, s.get? id = some e ∧ e.state = state := by
  unfold holds
  cases s.get? id <;> simp

/-- A state is found exactly when it is stored. -/
theorem contains_iff (h : Indexed fp s) {state : State} :
    s.contains fp state = true ↔ state ∈ s.states := by
  unfold contains lookup?
  rw [List.find?_isSome, mem_states_iff]
  constructor
  · intro h
    obtain ⟨id, -, hid⟩ := h
    exact ⟨id, holds_iff.mp hid⟩
  · intro h
    obtain ⟨id, e, hget, rfl⟩ := h
    exact ⟨id, (h _ id).mpr ⟨e, hget, rfl⟩, holds_iff.mpr ⟨e, hget, rfl⟩⟩

end ActionSystem.Store
