import ActionSystem.Proofs.Value.Canonical

/-!
# Extensionality of canonical values

Canonical sets with the same members are the same value. Canonical functions with the same domain
and the same value at every key of it are the same value, whether they are stored as entries or as
a sequence: both forms are read as one sorted list of entries, from which the value can be built
again.
-/

namespace ActionSystem.Value

variable {f g k v : Value} {xs ys : List Value} {es : List (Value × Value)}

/-! ## Sets -/

def SameMembers (a b : Value) : Prop := ∀ x, a.contains x = b.contains x

theorem contains_set_eq_ok_true (h : (set xs).Canonical) :
    (set xs).contains v = .ok true ↔ v ∈ xs := by
  rw [← Sorted.contains_iff h.increasing]
  exact ⟨fun hc => Except.ok.inj hc, fun hc => congrArg Except.ok hc⟩

/-- A canonical set is determined by its members. -/
theorem eq_of_sameMembers (hx : (set xs).Canonical) (hy : (set ys).Canonical)
    (h : (set xs).SameMembers (set ys)) : set xs = set ys := by
  have hmem : ∀ x, x ∈ xs ↔ x ∈ ys := fun x => by
    rw [← contains_set_eq_ok_true hx, ← contains_set_eq_ok_true hy, h x]
  rw [Sorted.eq_of_increasing hx.increasing hy.increasing hmem]

/-! ## Functions and sequences -/

/-- Functions, and sequences the indices of which are integers in range, as they are for every
sequence that fits in memory. -/
def IsFunction : Value → Prop
  | fn _ => True
  | seq xs => xs.length < 0x8000000000000000
  | _ => False

/-- Two functions have the same domain and the same value at every key of it. -/
structure SameGraph (f g : Value) : Prop where
  domain : f.domain = g.domain
  apply : ∀ keys, f.domain = .ok (.set keys) → ∀ k ∈ keys, f.apply k = g.apply k

def entries : Value → List (Value × Value)
  | fn es => es
  | seq xs => (xs.zipIdx 1).map fun item => (.int (Int64.ofNat item.2), item.1)
  | _ => []

theorem keys_seq (xs : List Value) : (seq xs).entries.map (·.1) =
    (List.range' 1 xs.length).map fun i => .int (Int64.ofNat i) := by
  rw [← List.zipIdx_map_snd, entries, List.map_map, List.map_map]
  rfl

theorem values_seq (xs : List Value) : (seq xs).entries.map (·.2) = xs := by
  rw [entries, List.map_map]
  exact List.zipIdx_map_fst 1 xs

-- The domain of a sequence counts up to its length.
theorem interval_one {n : Nat} (h : n < 0x8000000000000000) :
    interval 1 (Int64.ofNat n) = (List.range' 1 n).map fun i => .int (Int64.ofNat i) := by
  have hone : (1 : Int64).toInt = 1 := rfl
  have hn : ((n : Int) - 1 + 1).toNat = n := by omega
  rw [interval, Int64.toInt_ofNat_of_lt h, hone, hn, List.range'_eq_map_range, List.map_map]
  refine List.map_congr_left fun i _ => ?_
  have hi : (1 : Int) + i = ((1 + i : Nat) : Int) := by omega
  rw [hi, Int64.ofInt_eq_ofNat]
  rfl

-- A function over `1, …, n` is stored as a sequence and in no other form.
theorem Canonical.domain_ne_interval (h : (Value.fn es).Canonical) {n : Nat}
    (hn : n < 0x8000000000000000) :
    (Value.fn es).domain ≠ .ok (.set (interval 1 (Int64.ofNat n))) := by
  intro hdomain
  have hkeys : es.map (·.1) = interval 1 (Int64.ofNat n) :=
    Value.set.inj (Except.ok.inj hdomain)
  rw [interval_one hn] at hkeys
  have hlength : es.length = n := by
    rw [← List.length_map (·.1), hkeys, List.length_map, List.length_range']
  cases h with
  | fn _ proper _ _ =>
    rw [← hlength, ← keysCountFrom_eq_true_iff, proper] at hkeys
    cases hkeys

theorem domain_eq (hf : f.IsFunction) : f.domain = .ok (.set (f.entries.map (·.1))) := by
  cases f with
  | fn es => rfl
  | seq xs => rw [domain, keys_seq, interval_one hf]
  | _ => exact hf.elim

theorem increasing_entries (h : f.Canonical) (hf : f.IsFunction) :
    Sorted.Increasing cmpKey f.entries := by
  cases h with
  | fn sorted _ _ _ => exact sorted
  | @seq xs _ =>
    have hlt : xs.length < 0x8000000000000000 := hf
    have hkeys : Sorted.Increasing cmp ((seq xs).entries.map (·.1)) := by
      have hrange := List.pairwise_lt_range' 1 (s := 1) (n := xs.length)
      rw [keys_seq]
      refine List.pairwise_map.mpr (hrange.imp_of_mem fun {i j} hi hj hij => ?_)
      rw [List.mem_range'_1] at hi hj
      rw [cmp_int_eq_lt, Int64.toInt_ofNat_of_lt (by omega), Int64.toInt_ofNat_of_lt (by omega)]
      omega
    exact List.pairwise_map.mp hkeys
  | _ => exact hf.elim

-- An item of a sequence stands at the index that is its key.
theorem itemAt?_eq_some_iff {i : Int64} (h : xs.length < 0x8000000000000000) :
    itemAt? i xs = some v ↔ (.int i, v) ∈ (seq xs).entries := by
  rw [entries, List.mem_map]
  unfold itemAt?
  constructor
  · intro hv
    split at hv
    · next hpos =>
      have hi : Int64.ofNat i.toInt.toNat = i := by
        rw [← Int64.ofInt_eq_ofNat, Int.toNat_of_nonneg (by omega), Int64.ofInt_toInt]
      have hsub : i.toInt.toNat - 1 = (i.toInt - 1).toNat := by omega
      refine ⟨(v, i.toInt.toNat), List.mem_zipIdx_iff_le_and_getElem?_sub.mpr ?_, by rw [hi]⟩
      exact ⟨by omega, by rw [hsub, hv]⟩
    · cases hv
  · intro hmem
    obtain ⟨⟨w, j⟩, hj, heq⟩ := hmem
    obtain ⟨hle, hw⟩ := List.mem_zipIdx_iff_le_and_getElem?_sub.mp hj
    cases heq
    have hlt := (List.getElem?_eq_some_iff.mp hw).1
    have hsub : ((j : Int) - 1).toNat = j - 1 := by omega
    rw [Int64.toInt_ofNat_of_lt (by omega), if_pos (by omega), hsub]
    exact hw

-- The values inside need not be canonical for that.
theorem apply_eq_ok_iff_of_increasing (sorted : Sorted.Increasing cmpKey f.entries)
    (hf : f.IsFunction) : f.apply k = .ok v ↔ (k, v) ∈ f.entries := by
  cases f with
  | fn es =>
    have hes : Sorted.Increasing cmpKey es := sorted
    rw [entries, ← valueAt?_eq_some_iff hes, apply]
    cases valueAt? k es <;> simp
  | seq xs =>
    cases k with
    | int i =>
      rw [← itemAt?_eq_some_iff hf]
      cases hv : itemAt? i xs <;> simp [apply, expectInt, hv]
    | _ => simp [apply, entries, expectInt, mismatch]
  | _ => exact hf.elim

theorem apply_eq_ok_iff (h : f.Canonical) (hf : f.IsFunction) :
    f.apply k = .ok v ↔ (k, v) ∈ f.entries :=
  apply_eq_ok_iff_of_increasing (increasing_entries h hf) hf

theorem ofSortedEntries_entries (h : f.Canonical) (hf : f.IsFunction) :
    ofSortedEntries f.entries = f := by
  cases h with
  | fn _ proper _ _ => simp [ofSortedEntries, entries, proper]
  | @seq xs _ =>
    have hcount : keysCountFrom 1 (seq xs).entries = true := by
      rw [keysCountFrom_eq_true_iff, keys_seq, entries, List.length_map, List.length_zipIdx]
    rw [ofSortedEntries, if_pos hcount, values_seq]
  | _ => exact hf.elim

/-- A canonical function is determined by its domain and its values there. -/
theorem eq_of_sameGraph (hf : f.Canonical) (hg : g.Canonical) (ff : f.IsFunction)
    (fg : g.IsFunction) (h : f.SameGraph g) : f = g := by
  have hkeys : f.entries.map (·.1) = g.entries.map (·.1) := by
    have hdomain := h.domain
    rw [domain_eq ff, domain_eq fg] at hdomain
    exact set.inj (Except.ok.inj hdomain)
  have hmem : ∀ e, e ∈ f.entries ↔ e ∈ g.entries := by
    intro e
    have happly : e.1 ∈ f.entries.map (·.1) → f.apply e.1 = g.apply e.1 :=
      h.apply _ (domain_eq ff) e.1
    rw [← apply_eq_ok_iff hf ff, ← apply_eq_ok_iff hg fg]
    constructor
    · intro he
      rw [← happly (List.mem_map_of_mem ((apply_eq_ok_iff hf ff).mp he))]
      exact he
    · intro he
      rw [happly (hkeys ▸ List.mem_map_of_mem ((apply_eq_ok_iff hg fg).mp he))]
      exact he
  have hentries : f.entries = g.entries :=
    Sorted.eq_of_increasing (increasing_entries hf ff) (increasing_entries hg fg) hmem
  rw [← ofSortedEntries_entries hf ff, hentries, ofSortedEntries_entries hg fg]

end ActionSystem.Value
