import Mathlib
import ActionSystem.Sorted.Maps
import ActionSystem.Proofs.Value.Extensionality

/-!
# Functions as finite maps

A function is a finite map, whether it is stored as entries or as a sequence. Made from a list of
pairs it maps each key to the value of the last pair for it, an update changes the value of one key
of the domain, and a function literal maps each element of its domain to the value of its body.
-/

namespace ActionSystem

namespace Value

variable {f g j k v w : Value} {xs : List Value} {es l : List (Value × Value)}

/-! ## Pairs -/

/-- The last of the pairs for the key `k` gives it the value `v`. -/
def IsLast (l : List (Value × Value)) (k v : Value) : Prop :=
  ∃ l₁ l₂, l = l₁ ++ (k, v) :: l₂ ∧ ∀ e ∈ l₂, e.1 ≠ k

theorem IsLast.mem (h : IsLast l k v) : (k, v) ∈ l := by
  obtain ⟨l₁, l₂, rfl, -⟩ := h
  simp

theorem cmpKey_eq_iff {e e' : Value × Value} : cmpKey e e' = .eq ↔ e.1 = e'.1 := cmp_eq_iff

theorem findLast?_eq_some_iff :
    Sorted.findLast? (cmpKey (k, w)) l = some (k, v) ↔ IsLast l k v := by
  rw [Sorted.findLast?_eq_some_iff]
  simp only [cmpKey_eq_iff, true_and, ne_comm (a := k), ne_eq, IsLast]

-- The sorted entries are the last pairs for their keys.
theorem mem_ofList_iff : (k, v) ∈ Sorted.ofList cmpKey l ↔ IsLast l k v := by
  have hfind : Sorted.find? (cmpKey (k, v)) (Sorted.ofList cmpKey l) = some (k, v) ↔ _ :=
    Sorted.find?_eq_some_iff (Sorted.increasing_ofList l)
  rw [and_iff_left (cmpKey_eq_iff.mpr rfl)] at hfind
  rw [← hfind, Sorted.find?_ofList, findLast?_eq_some_iff]

theorem exists_isLast (h : k ∈ l.map (·.1)) : ∃ v, IsLast l k v := by
  obtain ⟨⟨k, w⟩, he, rfl⟩ := List.mem_map.mp h
  obtain ⟨⟨k', v⟩, hlast⟩ := Option.isSome_iff_exists.mp
    (Sorted.findLast?_isSome he (cmpKey_eq_iff (e := (k, w)).mpr rfl))
  cases cmpKey_eq_iff.mp (Sorted.findLast?_eq_some_iff.mp hlast).1
  exact ⟨v, findLast?_eq_some_iff.mp hlast⟩

def graph (g : Value → Value) (xs : List Value) : List (Value × Value) := xs.map fun v => (v, g v)

@[simp] theorem keys_graph (g : Value → Value) (xs : List Value) :
    (graph g xs).map (·.1) = xs := by
  rw [graph, List.map_map]
  exact List.map_id xs

@[simp] theorem values_graph (g : Value → Value) (xs : List Value) :
    (graph g xs).map (·.2) = xs.map g := by
  rw [graph, List.map_map]
  rfl

/-! ## Functions from pairs -/

theorem entries_ofSortedEntries (es : List (Value × Value)) :
    (ofSortedEntries es).entries = es := by
  unfold ofSortedEntries
  split
  · next hcount =>
    have hkeys : (seq (es.map (·.2))).entries.map (·.1) = es.map (·.1) := by
      rw [keys_seq, keysCountFrom_eq_true_iff.mp hcount, List.length_map]
    rw [List.zip_of_prod hkeys (values_seq _), ← List.zip_of_prod rfl rfl]
  · rfl

-- Keys that count up in order do not leave the range of integers.
theorem isFunction_ofSortedEntries (h : Sorted.Increasing cmpKey es) :
    (ofSortedEntries es).IsFunction := by
  unfold ofSortedEntries
  split
  · next hcount =>
    change (es.map (·.2)).length < 0x8000000000000000
    rw [List.length_map]
    by_contra hlong
    have hkeys : Sorted.Increasing cmp (es.map (·.1)) := List.pairwise_map.mpr h
    rw [keysCountFrom_eq_true_iff.mp hcount] at hkeys
    have hends := List.pairwise_iff_getElem.mp (List.pairwise_map.mp hkeys) 0
      0x7fffffffffffffff (by simp; omega) (by simp; omega) (by decide)
    rw [List.getElem_range', List.getElem_range', cmp_int_eq_lt] at hends
    revert hends
    decide
  · trivial

theorem entries_ofEntries (l : List (Value × Value)) :
    (ofEntries l).entries = Sorted.ofList cmpKey l := entries_ofSortedEntries _

theorem isFunction_ofEntries (l : List (Value × Value)) : (ofEntries l).IsFunction :=
  isFunction_ofSortedEntries (Sorted.increasing_ofList l)

theorem apply_ofEntries_eq_ok_iff : (ofEntries l).apply k = .ok v ↔ IsLast l k v := by
  have hsorted : Sorted.Increasing cmpKey (ofEntries l).entries := by
    rw [entries_ofEntries]
    exact Sorted.increasing_ofList l
  rw [apply_eq_ok_iff_of_increasing hsorted (isFunction_ofEntries l), entries_ofEntries,
    mem_ofList_iff]

theorem apply_ofEntries_eq_error_iff :
    (∃ fault, (ofEntries l).apply k = .error fault) ↔ ∀ e ∈ l, e.1 ≠ k := by
  cases hv : (ofEntries l).apply k with
  | ok v =>
    have hmem := (apply_ofEntries_eq_ok_iff.mp hv).mem
    exact iff_of_false (by simp) fun h => h _ hmem rfl
  | error fault =>
    refine iff_of_true ⟨fault, rfl⟩ fun e he hk => ?_
    obtain ⟨v, hlast⟩ := exists_isLast (List.mem_map.mpr ⟨e, he, hk⟩)
    rw [apply_ofEntries_eq_ok_iff.mpr hlast] at hv
    cases hv

-- Sorting the pairs by their keys sorts the keys.
theorem keys_ofList (l : List (Value × Value)) :
    (Sorted.ofList cmpKey l).map (·.1) = Sorted.ofList cmp (l.map (·.1)) := by
  have hsorted : Sorted.Increasing cmpKey (Sorted.ofList cmpKey l) := Sorted.increasing_ofList l
  refine Sorted.eq_of_increasing (List.pairwise_map.mpr hsorted) (Sorted.increasing_ofList _)
    fun z => ?_
  rw [Sorted.mem_ofList]
  constructor
  · intro hz
    obtain ⟨e, he, rfl⟩ := List.mem_map.mp hz
    exact List.mem_map_of_mem (Sorted.mem_of_mem_ofList he)
  · intro hz
    obtain ⟨v, hv⟩ := exists_isLast hz
    exact List.mem_map.mpr ⟨(z, v), mem_ofList_iff.mpr hv, rfl⟩

theorem ofList_graph (g : Value → Value) (xs : List Value) :
    Sorted.ofList cmpKey (graph g xs) = graph g (Sorted.ofList cmp xs) := by
  have hpair : ∀ e ∈ Sorted.ofList cmpKey (graph g xs), (e.1, g e.1) = e := by
    intro e he
    obtain ⟨v, -, rfl⟩ := List.mem_map.mp (Sorted.mem_of_mem_ofList he)
    rfl
  have hgraph : graph g ((Sorted.ofList cmpKey (graph g xs)).map (·.1)) =
      Sorted.ofList cmpKey (graph g xs) := by
    rw [graph, List.map_map]
    exact (List.map_congr_left hpair).trans (List.map_id' _)
  rw [← hgraph, keys_ofList, keys_graph]

theorem domain_ofEntries (l : List (Value × Value)) :
    (ofEntries l).domain = .ok (ofElements (l.map (·.1))) := by
  rw [domain_eq (isFunction_ofEntries l), entries_ofEntries, keys_ofList]
  rfl

/-! ## Updates -/

theorem apply_fn (es : List (Value × Value)) (k : Value) : (fn es).apply k =
    match valueAt? k es with
    | some v => .ok v
    | none => .error (.keyNotFound k.render) := rfl

theorem apply_seq (xs : List Value) (i : Int64) : (seq xs).apply (.int i) =
    match itemAt? i xs with
    | some v => .ok v
    | none => .error (.indexOutOfBounds i xs.length) := rfl

theorem except_seq (xs : List Value) (i : Int64) (v : Value) : (seq xs).except (.int i) v =
    if (itemAt? i xs).isSome then .ok (.seq (xs.set (i.toInt - 1).toNat v))
    else .error (.indexOutOfBounds i xs.length) := rfl

-- Functions and sequences can be updated where they can be applied.
theorem exists_except_iff : (∃ g, f.except k v = .ok g) ↔ ∃ w, f.apply k = .ok w := by
  cases f with
  | fn es =>
    rw [Value.except, apply_fn]
    cases valueAt? k es <;> simp
  | seq xs =>
    cases k with
    | int i =>
      rw [except_seq, apply_seq]
      cases itemAt? i xs <;> simp
    | _ => simp [Value.except, apply, expectInt, mismatch]
  | _ => simp [Value.except, apply, mismatch]

theorem except_cases (h : f.except k v = .ok g) :
    (∃ es, f = fn es ∧ (valueAt? k es).isSome = true ∧
      g = fn (Sorted.insert cmpKey (k, v) es)) ∨
    ∃ xs i, f = seq xs ∧ k = int i ∧ (itemAt? i xs).isSome = true ∧
      g = seq (xs.set (i.toInt - 1).toNat v) := by
  cases f with
  | fn es =>
    rw [Value.except] at h
    split at h
    · next there => exact .inl ⟨es, rfl, there, (Except.ok.inj h).symm⟩
    · cases h
  | seq xs =>
    cases k with
    | int i =>
      rw [except_seq] at h
      split at h
      · next there => exact .inr ⟨xs, i, rfl, rfl, there, (Except.ok.inj h).symm⟩
      · cases h
    | _ => cases h
  | _ => cases h

theorem valueAt?_insert : valueAt? j (Sorted.insert cmpKey (k, v) es) =
    if j = k then some v else valueAt? j es := by
  have hfind : Sorted.find? (cmpKey (j, v)) (Sorted.insert cmpKey (k, v) es) =
      if cmpKey (j, v) (k, v) = .eq then some (k, v) else Sorted.find? (cmpKey (j, v)) es :=
    Sorted.find?_insert
  simp only [cmpKey_eq_iff] at hfind
  unfold valueAt?
  change Option.map _ (Sorted.find? (cmpKey (j, v)) _) =
    if j = k then some v else Option.map _ (Sorted.find? (cmpKey (j, v)) es)
  rw [hfind]
  split <;> rfl

theorem isSome_itemAt? {i : Int64} :
    (itemAt? i xs).isSome = true ↔ 1 ≤ i.toInt ∧ (i.toInt - 1).toNat < xs.length := by
  unfold itemAt?
  split <;> simp [*]

theorem itemAt?_set {i n : Int64} (there : (itemAt? i xs).isSome = true) :
    itemAt? n (xs.set (i.toInt - 1).toNat v) = if n = i then some v else itemAt? n xs := by
  obtain ⟨hpos, hlt⟩ := isSome_itemAt?.mp there
  unfold itemAt?
  by_cases hn : n = i
  · rw [if_pos hn, hn, if_pos hpos, List.getElem?_set_self hlt]
  · have hne : n.toInt ≠ i.toInt := fun heq => hn (Int64.toInt_inj.mp heq)
    rw [if_neg hn]
    split
    · exact List.getElem?_set_ne (by omega)
    · rfl

/-- An updated function has the new value at the key, and at other keys what it had there. -/
theorem apply_except (h : f.except k v = .ok g) :
    g.apply j = if j = k then .ok v else f.apply j := by
  rcases except_cases h with ⟨es, rfl, -, rfl⟩ | ⟨xs, i, rfl, rfl, there, rfl⟩
  · rw [apply_fn, apply_fn, valueAt?_insert]
    by_cases hj : j = k <;> simp [hj]
  · cases j with
    | int n =>
      rw [apply_seq, apply_seq, itemAt?_set there, List.length_set]
      by_cases hn : n = i <;> simp [hn]
    | _ => rfl

theorem domain_except (h : f.except k v = .ok g) : g.domain = f.domain := by
  rcases except_cases h with ⟨es, rfl, there, rfl⟩ | ⟨xs, i, rfl, rfl, -, rfl⟩
  · rw [domain, domain, keys_insert there]
  · rw [domain, domain, List.length_set]

-- A key at which a canonical function has a value is canonical itself.
theorem Canonical.of_except (hf : f.Canonical) (hv : v.Canonical) (h : f.except k v = .ok g) :
    g.Canonical := by
  have hk : k.Canonical := by
    rcases except_cases h with ⟨es, rfl, there, rfl⟩ | ⟨xs, i, rfl, rfl, -, rfl⟩
    · obtain ⟨w, hw⟩ := Option.isSome_iff_exists.mp there
      cases hf with
      | fn _ _ keys _ => exact keys _ (mem_of_valueAt? hw)
    · exact .int i
  exact gives_except hf hk hv g h

end Value

/-! ## Function literals -/

namespace Expr

open Value (IsLast graph ofEntries ofElements)

variable {s : Span} {x : String} {d e : Expr} {c : Context} {f : Value}

-- The entries of a function literal pair the elements of its domain with the values of its body.
theorem eval_function_eq_ok (h : (Expr.bind s .function x d e).eval c = .ok f) :
    ∃ items, ∃ g : Value → Value, d.domain c = .ok items ∧
      (∀ v ∈ items, e.eval (c.bind x v) = .ok (g v)) ∧ f = ofEntries (graph g items) := by
  obtain ⟨items, hd⟩ := exists_domain_of_eval_bind h
  rw [eval_bind hd] at h
  obtain ⟨es, hes, h⟩ := Result.bind_eq_ok.mp h
  obtain ⟨pair, hpair, rfl⟩ := Result.exists_map_of_mapM hes
  have hbody : ∀ v ∈ items, e.eval (c.bind x v) = .ok (pair v).2 ∧ pair v = (v, (pair v).2) := by
    intro v hv
    obtain ⟨w, hw, heq⟩ := Result.bind_eq_ok.mp (hpair v hv)
    rw [← Result.pure_eq_ok.mp heq]
    exact ⟨hw, rfl⟩
  refine ⟨items, fun v => (pair v).2, hd, fun v hv => (hbody v hv).1, ?_⟩
  rw [← Result.pure_eq_ok.mp h, List.map_congr_left fun v hv => (hbody v hv).2]
  rfl

/-- A function literal maps the elements of its domain to the values of its body. -/
theorem eval_function (h : (Expr.bind s .function x d e).eval c = .ok f) :
    ∃ D items, d.eval c = .ok D ∧ D.elements? = some items ∧
      f.domain = .ok (ofElements items) ∧
      ∀ v ∈ items, ∃ w, e.eval (c.bind x v) = .ok w ∧ f.apply v = .ok w := by
  obtain ⟨items, g, hd, hbody, rfl⟩ := eval_function_eq_ok h
  obtain ⟨D, hD, hitems⟩ := domain_eq_ok.mp hd
  refine ⟨D, items, hD, hitems, ?_, fun v hv => ⟨g v, hbody v hv, ?_⟩⟩
  · rw [Value.domain_ofEntries, Value.keys_graph]
  · obtain ⟨w, hlast⟩ := Value.exists_isLast (l := graph g items) (by rwa [Value.keys_graph])
    obtain ⟨k, -, heq⟩ := List.mem_map.mp hlast.mem
    cases heq
    exact Value.apply_ofEntries_eq_ok_iff.mpr hlast

end Expr

/-! ## Finite maps -/

namespace Value

/-- Functions and sequences are finite maps: those made from pairs, their updates, and those that
literals stand for. -/
theorem finite_map_laws :
    (∀ (l : List (Value × Value)) (k : Value),
      (∀ v, (ofEntries l).apply k = .ok v ↔ IsLast l k v) ∧
      ((∃ fault, (ofEntries l).apply k = .error fault) ↔ ∀ e ∈ l, e.1 ≠ k)) ∧
    (∀ l : List (Value × Value),
      (ofEntries l).domain = .ok (ofElements (l.map (·.1))) ∧
      (ofEntries l).entries = Sorted.insertAll cmpKey l []) ∧
    (∀ f k v : Value, f.Canonical →
      ((∃ g, f.except k v = .ok g) ↔ ∃ w, f.apply k = .ok w) ∧
      ∀ g, f.except k v = .ok g →
        (v.Canonical → g.Canonical) ∧ g.domain = f.domain ∧
        ∀ j, g.apply j = if j = k then .ok v else f.apply j) ∧
    ∀ (s : Span) (x : String) (d e : Expr) (c : Context) (f : Value),
      (Expr.bind s .function x d e).eval c = .ok f →
      ∃ D items, d.eval c = .ok D ∧ D.elements? = some items ∧
        f.domain = .ok (ofElements items) ∧
        ∀ v ∈ items, ∃ w, e.eval (c.bind x v) = .ok w ∧ f.apply v = .ok w := by
  refine ⟨fun l k => ⟨fun v => apply_ofEntries_eq_ok_iff, apply_ofEntries_eq_error_iff⟩,
    fun l => ⟨domain_ofEntries l, ?_⟩, fun f k v hf => ⟨exists_except_iff, fun g hg => ?_⟩,
    fun s x d e c f => Expr.eval_function⟩
  · rw [entries_ofEntries, Sorted.ofList_eq_insertAll]
  · exact ⟨fun hv => hf.of_except hv hg, domain_except hg, fun j => apply_except hg⟩

-- Of three pairs for the key 1 the last one counts, and the function is a sequence to be updated.
theorem finite_map_laws_repeated :
    (ofEntries [(int 1, str "a"), (int 1, str "b"), (int 1, str "c")]).apply (int 1) =
      .ok (str "c") ∧
    ∃ g, (seq [str "c"]).except (int 1) (str "d") = .ok g ∧ g.apply (int 1) = .ok (str "d") := by
  obtain ⟨hpairs, -, hexcept, -⟩ := finite_map_laws
  have hc : (seq [str "c"]).Canonical := .seq (by simp [Canonical.str])
  obtain ⟨hiff, hupdated⟩ := hexcept (seq [str "c"]) (int 1) (str "d") hc
  obtain ⟨g, hg⟩ := hiff.mpr ⟨str "c", rfl⟩
  refine ⟨((hpairs _ _).1 _).mpr ⟨[(int 1, str "a"), (int 1, str "b")], [], rfl, by simp⟩,
    g, hg, ?_⟩
  rw [(hupdated g hg).2.2, if_pos rfl]

end Value

end ActionSystem
