import ActionSystem.Proofs.Eval.Canonical
import ActionSystem.Proofs.Value.Functions

/-!
# Binders

Binders over one domain take the same elements in the same order, so that the set that a filter
gives says what the quantifiers and the choice by its condition give. Over a function literal they
take the elements of its domain, unless it is stored as a sequence: then they take the values of its
body.
-/

namespace ActionSystem

/-! ## The elements that are ranged over -/

namespace Value

variable {v : Value} {xs : List Value}

-- The elements come in the order of values, each of them once.
theorem Canonical.increasing_elements? (h : v.Canonical) (hxs : v.elements? = some xs) :
    Sorted.Increasing cmp xs := by
  cases h with
  | bool | int | str => cases hxs
  | set sorted _ =>
    cases hxs
    exact sorted
  | seq _ =>
    cases hxs
    exact Sorted.increasing_ofList _
  | fn sorted _ _ _ =>
    cases hxs
    exact List.pairwise_map.mpr sorted

theorem ofList_eq_nil_iff : Sorted.ofList cmp xs = [] ↔ xs = [] := by
  simp only [List.eq_nil_iff_forall_not_mem, Sorted.mem_ofList]

end Value

namespace Expr

variable {c : Context} {s t : Span} {x : String} {d e p : Expr} {items : List Value}

-- What a binder over an expression gives depends on the elements that are ranged over.
theorem eval_bind_congr {d' : Expr} {b : Binder} (hd : d.domain c = .ok items)
    (hd' : d'.domain c = .ok items) : (bind s b x d e).eval c = (bind s b x d' e).eval c := by
  rw [eval_bind hd, eval_bind hd']

theorem increasing_domain (hc : c.Canonical) (hd : d.domain c = .ok items) :
    Sorted.Increasing Value.cmp items := by
  obtain ⟨v, hv, hitems⟩ := domain_eq_ok.mp hd
  exact (gives_eval d hc v hv).increasing_elements? hitems

/-! ## Conditions -/

-- A filter has a result only if the condition is a truth value for each of the elements.
theorem eval_filter_eq_ok {S : Value} (h : (bind s .filter x d p).eval c = .ok S) :
    ∃ items, ∃ q : Value → Bool, d.domain c = .ok items ∧
      (∀ v ∈ items, p.holds (c.bind x v) = .ok (q v)) ∧ S = .ofElements (items.filter q) := by
  obtain ⟨items, hd⟩ := exists_domain_of_eval_bind h
  rw [eval_bind hd] at h
  obtain ⟨kept, hkept, h⟩ := Result.bind_eq_ok.mp h
  obtain ⟨hq, rfl⟩ := Result.filterM_eq_ok hkept
  exact ⟨items, _, hd, hq, (Result.pure_eq_ok.mp h).symm⟩

section

variable {q : Value → Bool} (hd : d.domain c = .ok items)
  (hq : ∀ v ∈ items, p.holds (c.bind x v) = .ok (q v))
include hd hq

theorem eval_any_of_forall : (bind t .any x d p).eval c = .ok (.bool (items.any q)) := by
  rw [eval_any hd, Result.anyM_of_forall hq]
  rfl

theorem eval_all_of_forall : (bind t .all x d p).eval c = .ok (.bool (items.all q)) := by
  rw [eval_all hd, Result.allM_of_forall hq]
  rfl

-- The element that is chosen is the first of those that a filter keeps.
theorem eval_choose_of_forall : (bind t .choose x d p).eval c =
    match (items.filter q).head? with
    | some v => .ok v
    | none => .error ⟨t, .chooseFailed⟩ := by
  have hfind : items.findM? (fun v => p.holds (c.bind x v)) = .ok (items.find? q) :=
    Result.findM?_of_forall hq
  rw [eval_bind hd, List.head?_filter]
  change (items.findM? (fun v => p.holds (c.bind x v)) >>= _) = _
  rw [hfind]
  cases items.find? q <;> rfl

end

theorem any_eq_filter {q : Value → Bool} :
    items.any q = decide (Sorted.ofList Value.cmp (items.filter q) ≠ []) := by
  rw [Bool.eq_iff_iff, decide_eq_true_iff, ne_eq, Value.ofList_eq_nil_iff, List.filter_eq_nil_iff,
    List.any_eq_true]
  push Not
  rfl

theorem all_eq_filter {q : Value → Bool} :
    items.all q = decide (Value.ofElements (items.filter q) = Value.ofElements items) := by
  rw [Bool.eq_iff_iff, decide_eq_true_iff, List.all_eq_true]
  constructor
  · intro hall
    rw [List.filter_eq_self.mpr hall]
  · intro heq v hv
    have hlists := Value.set.inj heq
    have hkept : v ∈ Sorted.ofList Value.cmp (items.filter q) := by
      rw [hlists]
      exact Sorted.mem_ofList.mpr hv
    exact (List.mem_filter.mp (Sorted.mem_ofList.mp hkept)).2

/-- If the filter of a domain by a condition gives a set, then the quantifiers have truth values:
whether the set has elements, and whether it is that of all elements of the domain. The choice gives
the least element of the set. -/
theorem binders_of_filter {S : Value} (h : (bind s .filter x d p).eval c = .ok S) :
    ∃ items kept, d.domain c = .ok items ∧ S = .set kept ∧
      (∀ t, (bind t .any x d p).eval c = .ok (.bool (kept ≠ []))) ∧
      (∀ t, (bind t .all x d p).eval c = .ok (.bool (S = .ofElements items))) ∧
      (∀ t, (bind t .choose x d p).eval c = .error ⟨t, .chooseFailed⟩ ↔ kept = []) ∧
      ∀ t, kept ≠ [] → ∃ v ∈ kept, (bind t .choose x d p).eval c = .ok v ∧
        (c.Canonical → ∀ w ∈ kept, (Value.cmp v w).isLE) := by
  obtain ⟨items, q, hd, hq, rfl⟩ := eval_filter_eq_ok h
  refine ⟨items, Sorted.ofList Value.cmp (items.filter q), hd, rfl, fun t => ?_, fun t => ?_,
    fun t => ?_, fun t hne => ?_⟩
  · rw [eval_any_of_forall hd hq, any_eq_filter]
  · rw [eval_all_of_forall hd hq, all_eq_filter]
  · rw [eval_choose_of_forall hd hq, Value.ofList_eq_nil_iff]
    cases items.filter q <;> simp
  · rw [eval_choose_of_forall hd hq]
    rw [ne_eq, Value.ofList_eq_nil_iff] at hne
    obtain ⟨v, rest, hkept⟩ := List.exists_cons_of_ne_nil hne
    rw [hkept]
    refine ⟨v, Sorted.mem_ofList.mpr List.mem_cons_self, rfl, fun hc w hw => ?_⟩
    have hsorted : Sorted.Increasing Value.cmp (v :: rest) := by
      rw [← hkept]
      exact (increasing_domain hc hd).filter q
    rcases List.mem_cons.mp (Sorted.mem_ofList.mp hw) with rfl | hw
    · rw [Value.cmp_self]
      rfl
    · rw [(Sorted.increasing_cons.mp hsorted).1 w hw]
      rfl

def above (n : Int64) : Expr := binary .none .gt (name .none "x") (literal .none (.int n))

def tuple : Expr :=
  seq .none ([3, 1, 2, 3].map fun n : Int64 => literal .none (.int n))

-- Two of its elements are above 1, the first of them in the sequence is not the least, and none is
-- above 5.
theorem binders_of_filter_tuple :
    let c : Context := ⟨⟨[], [], []⟩, .total [], .absent, []⟩
    c.Canonical ∧ (bind .none .filter "x" tuple (above 1)).eval c = .ok (.set [.int 2, .int 3]) ∧
      (bind .none .any "x" tuple (above 1)).eval c = .ok (.bool true) ∧
      (bind .none .all "x" tuple (above 1)).eval c = .ok (.bool false) ∧
      (bind .none .choose "x" tuple (above 1)).eval c = .ok (.int 2) ∧
      (bind .none .choose "x" tuple (above 5)).eval c = .error ⟨.none, .chooseFailed⟩ := by
  intro c
  have hc : c.Canonical := by
    refine ⟨?_, ?_, ?_, ?_⟩ <;> simp [c, Env.Canonical, Slots.Canonical, Slots.get?]
  have hitems : tuple.domain c = .ok [.int 1, .int 2, .int 3] := by cbv
  have hsome : (bind .none .filter "x" tuple (above 1)).eval c = .ok (.set [.int 2, .int 3]) := by
    cbv
  have hnone : (bind .none .filter "x" tuple (above 5)).eval c = .ok (.set []) := by cbv
  obtain ⟨items, kept, hd, hset, any, all, -, choose⟩ := binders_of_filter hsome
  cases hset
  cases hitems.symm.trans hd
  obtain ⟨v, hv, hchoose, hleast⟩ := choose .none (by simp)
  have hv2 : v = .int 2 := by
    rcases List.mem_pair.mp hv with rfl | rfl
    · rfl
    · exact absurd (hleast hc (.int 2) (by simp)) (by decide)
  obtain ⟨_, _, -, hempty, -, -, failed, -⟩ := binders_of_filter hnone
  cases hempty
  exact ⟨hc, hsome, any .none, all .none, hv2 ▸ hchoose, (failed .none).mpr rfl⟩

end Expr

/-! ## Functions -/

namespace Value

variable {es : List (Value × Value)} {keys : List Value}

theorem ofList_map_ofList (g : Value → Value) (xs : List Value) :
    Sorted.ofList cmp ((Sorted.ofList cmp xs).map g) = Sorted.ofList cmp (xs.map g) := by
  refine Sorted.eq_of_increasing (Sorted.increasing_ofList _) (Sorted.increasing_ofList _) fun v => ?_
  simp only [Sorted.mem_ofList, List.mem_map]

/-- The keys are `1, …, n` for an `n` that is at least 1. -/
def CountsUp (keys : List Value) : Prop := ∃ n : Int64, 1 ≤ n ∧ keys = interval 1 n

theorem countsUp_iff : CountsUp keys ↔ ∃ n : Nat, 0 < n ∧ n < 0x8000000000000000 ∧
    keys = (List.range' 1 n).map fun i => .int (Int64.ofNat i) := by
  have hone : (1 : Int64).toInt = 1 := rfl
  constructor
  · rintro ⟨n, hn, rfl⟩
    have hlt := n.toInt_lt
    rw [Int64.le_iff_toInt_le, hone] at hn
    obtain ⟨m, hm⟩ := Int.eq_ofNat_of_zero_le (a := n.toInt) (by omega)
    have hsmall : m < 0x8000000000000000 := by omega
    have hn' : n = Int64.ofNat m := by
      rw [← Int64.toInt_inj, Int64.toInt_ofNat_of_lt hsmall, hm]
    exact ⟨m, by omega, hsmall, by rw [hn', interval_one hsmall]⟩
  · rintro ⟨n, hpos, hlt, rfl⟩
    refine ⟨Int64.ofNat n, ?_, (interval_one hlt).symm⟩
    rw [Int64.le_iff_toInt_le, Int64.toInt_ofNat_of_lt hlt, hone]
    omega

theorem CountsUp.head? (h : CountsUp keys) : keys.head? = some (int 1) := by
  obtain ⟨n, hpos, -, rfl⟩ := countsUp_iff.mp h
  obtain ⟨m, rfl⟩ := Nat.exists_eq_succ_of_ne_zero hpos.ne'
  rw [List.range'_succ]
  rfl

-- Entries are those of a sequence if there are none, or if their keys count up.
theorem keysCountFrom_one_iff (sorted : Sorted.Increasing cmpKey es) :
    keysCountFrom 1 es = true ↔ es = [] ∨ CountsUp (es.map (·.1)) := by
  rw [countsUp_iff]
  constructor
  · intro hcount
    have hlength : es.length < 0x8000000000000000 := by
      have hfunction := isFunction_ofSortedEntries sorted
      rw [ofSortedEntries, if_pos hcount] at hfunction
      simpa [IsFunction] using hfunction
    rcases Nat.eq_zero_or_pos es.length with hzero | hpos
    · exact .inl (List.length_eq_zero_iff.mp hzero)
    · exact .inr ⟨es.length, hpos, hlength, keysCountFrom_eq_true_iff.mp hcount⟩
  · rintro (rfl | ⟨n, -, -, hkeys⟩)
    · rfl
    · have hlength : es.length = n := by
        rw [← List.length_map (·.1), hkeys, List.length_map, List.length_range']
      rw [keysCountFrom_eq_true_iff, hkeys, hlength]

theorem keysCountFrom_graph (g : Value → Value) (xs : List Value) :
    keysCountFrom 1 (graph g (Sorted.ofList cmp xs)) = true ↔
      graph g (Sorted.ofList cmp xs) = [] ∨ CountsUp (Sorted.ofList cmp xs) := by
  have hsorted : Sorted.Increasing cmpKey (graph g (Sorted.ofList cmp xs)) := by
    rw [← ofList_graph]
    exact Sorted.increasing_ofList _
  rw [keysCountFrom_one_iff hsorted, keys_graph]

theorem ofEntries_graph_of_countsUp {g : Value → Value} {xs : List Value}
    (h : CountsUp (Sorted.ofList cmp xs)) :
    ofEntries (graph g xs) = seq ((Sorted.ofList cmp xs).map g) := by
  have hcount := (keysCountFrom_graph g xs).mpr (.inr h)
  rw [ofEntries, ofList_graph, ofSortedEntries, if_pos hcount, values_graph]

-- A function without entries has no elements in either form.
theorem elements?_ofEntries_graph {g : Value → Value} {xs : List Value}
    (h : ¬ CountsUp (Sorted.ofList cmp xs)) :
    (ofEntries (graph g xs)).elements? = some (Sorted.ofList cmp xs) := by
  rw [ofEntries, ofList_graph]
  by_cases hcount : keysCountFrom 1 (graph g (Sorted.ofList cmp xs)) = true
  · have hnil := ((keysCountFrom_graph g xs).mp hcount).resolve_right h
    rw [← keys_graph g (Sorted.ofList cmp xs), hnil]
    rfl
  · rw [ofSortedEntries, if_neg hcount, elements?, keys_graph]

end Value

namespace Expr

variable {c : Context} {s t : Span} {x : String} {d e : Expr} {f : Value} {items : List Value}

theorem domain_domain {l : List (Value × Value)} (h : e.eval c = .ok (.ofEntries l)) :
    (unary t .domain e).domain c = .ok (Sorted.ofList Value.cmp (l.map (·.1))) := by
  refine domain_eq_ok.mpr ⟨.ofElements (l.map (·.1)), ?_, rfl⟩
  rw [eval, h]
  change Fault.at t (Value.ofEntries l).domain = _
  rw [Value.domain_ofEntries]
  rfl

theorem domain_image {g : Value → Value} (hd : d.domain c = .ok items)
    (hbody : ∀ v ∈ items, e.eval (c.bind x v) = .ok (g v)) :
    (bind t .image x d e).domain c = .ok (Sorted.ofList Value.cmp (items.map g)) := by
  refine domain_eq_ok.mpr ⟨.ofElements (items.map g), ?_, rfl⟩
  rw [eval_bind hd]
  change (items.mapM _ >>= _) = _
  rw [Result.mapM_of_forall hbody]
  rfl

/-- A function literal is ranged over as its domain is, the keys of the function, if these are not
`1, …, n`. If they are, the function is the sequence of its values, and is ranged over as the set
of these. -/
theorem function_ranged_over (h : (bind s .function x d e).eval c = .ok f) (t : Span) :
    ∃ items keys values, d.domain c = .ok items ∧ keys = Sorted.ofList Value.cmp items ∧
      keys.mapM (fun k => e.eval (c.bind x k)) = .ok values ∧
      (unary t .domain (bind s .function x d e)).domain c = .ok keys ∧
      (¬ Value.CountsUp keys →
        (bind s .function x d e).domain c = .ok keys ∧
        ∀ u b y body, (bind u b y (bind s .function x d e) body).eval c =
          (bind u b y (unary t .domain (bind s .function x d e)) body).eval c) ∧
      (Value.CountsUp keys →
        f = .seq values ∧
        (bind s .function x d e).domain c = .ok (Sorted.ofList Value.cmp values) ∧
        ∀ u b y body, (bind u b y (bind s .function x d e) body).eval c =
          (bind u b y (bind t .image x d e) body).eval c) := by
  obtain ⟨items, g, hd, hbody, rfl⟩ := eval_function_eq_ok h
  have hvalues : (Sorted.ofList Value.cmp items).mapM (fun k => e.eval (c.bind x k)) =
      .ok ((Sorted.ofList Value.cmp items).map g) :=
    Result.mapM_of_forall fun k hk => hbody k (Sorted.mem_ofList.mp hk)
  have hdomain := domain_domain (t := t) h
  rw [Value.keys_graph] at hdomain
  have himage := domain_image (t := t) hd hbody
  rw [← Value.ofList_map_ofList] at himage
  refine ⟨items, _, _, hd, rfl, hvalues, hdomain, fun hkeys => ?_, fun hkeys => ?_⟩
  · have hover := domain_eq_ok.mpr ⟨_, h, Value.elements?_ofEntries_graph hkeys⟩
    exact ⟨hover, fun u b y body => eval_bind_congr hover hdomain⟩
  · have hseq := Value.ofEntries_graph_of_countsUp (g := g) hkeys
    have hover := domain_eq_ok.mpr ⟨_, h, congrArg Value.elements? hseq⟩
    exact ⟨hseq, hover, fun u b y body => eval_bind_congr hover himage⟩

def squares (lo hi : Int64) : Expr :=
  bind .none .function "k" (range .none (literal .none (.int lo)) (literal .none (.int hi)))
    (binary .none .mul (name .none "k") (name .none "k"))

-- A function over `0..2` has its keys as elements, and one over `1..3` its values.
theorem function_ranged_over_squares :
    let c : Context := ⟨⟨[], [], []⟩, .total [], .absent, []⟩
    (squares 0 2).domain c = .ok [.int 0, .int 1, .int 2] ∧
      (squares 1 3).domain c = .ok [.int 1, .int 4, .int 9] := by
  intro c
  have hzero : (squares 0 2).eval c =
      .ok (.fn [(.int 0, .int 0), (.int 1, .int 1), (.int 2, .int 4)]) := by cbv
  have hone : (squares 1 3).eval c = .ok (.seq [.int 1, .int 4, .int 9]) := by cbv
  constructor
  · obtain ⟨items, _, _, hd, rfl, -, -, hkeys, -⟩ := function_ranged_over hzero .none
    cases hd
    refine (hkeys fun hcounts => ?_).1
    cases hcounts.head?
  · obtain ⟨items, _, _, hd, rfl, -, -, -, hvalues⟩ := function_ranged_over hone .none
    cases hd
    obtain ⟨hseq, hover, -⟩ := hvalues ⟨3, by decide, by decide⟩
    cases hseq
    exact hover

/-- Binders do not always range over the keys of a function. -/
theorem domain_squares_ne :
    let c : Context := ⟨⟨[], [], []⟩, .total [], .absent, []⟩
    (∃ f, (squares 1 3).eval c = .ok f) ∧
      (squares 1 3).domain c ≠ (unary .none .domain (squares 1 3)).domain c ∧
      (bind .none .choose "x" (squares 1 3) (above 1)).eval c = .ok (.int 4) ∧
      (bind .none .choose "x" (unary .none .domain (squares 1 3)) (above 1)).eval c =
        .ok (.int 2) := by
  intro c
  have hover : (squares 1 3).domain c = .ok [.int 1, .int 4, .int 9] := by cbv
  have hkeys : (unary .none .domain (squares 1 3)).domain c = .ok [.int 1, .int 2, .int 3] := by cbv
  refine ⟨⟨.seq [.int 1, .int 4, .int 9], by cbv⟩, ?_, by cbv, by cbv⟩
  rw [hover, hkeys]
  decide

end Expr

end ActionSystem
