import Mathlib.Data.Fintype.Card
import Mathlib.Data.Fintype.EquivFin
import Mathlib.Data.Fintype.Sets
import Mathlib.Order.WellFounded
import ActionSystem.Proofs.Solve.Enumeration

/-!
# Variables that hang on each other

Unless some variable hangs on itself, the solving order has every variable behind those that it
depends on. In general, that is so of the variables that do not lead into a circle. Those that do
come behind all others, as they are declared, whether they are on a circle or only depend on it.
-/

namespace ActionSystem.Expr

variable {deps : List Dependency} {left : List Nat} {v w : Nat}

def DependsOn (deps : List Dependency) (v w : Nat) : Prop := (v, w) ∈ deps ∧ v ≠ w

instance (deps : List Dependency) (v w : Nat) : Decidable (DependsOn deps v w) :=
  inferInstanceAs (Decidable (_ ∧ _))

/-- No variable hangs on itself through others. -/
def Acyclic (deps : List Dependency) : Prop := ∀ v, ¬ Relation.TransGen (DependsOn deps) v v

def Circular (deps : List Dependency) (v : Nat) : Prop :=
  ∃ u, Relation.ReflTransGen (DependsOn deps) v u ∧ Relation.TransGen (DependsOn deps) u u

/-! ## Circles -/

theorem Circular.of_dependsOn (hdep : DependsOn deps v w) (h : Circular deps w) :
    Circular deps v := by
  obtain ⟨u, hpath, hcircle⟩ := h
  exact ⟨u, hpath.head hdep, hcircle⟩

theorem Circular.of_circle (h : Relation.TransGen (DependsOn deps) v v) : Circular deps v :=
  ⟨v, .refl, h⟩

-- What leads into a circle has a next variable on the way, which leads there as well.
theorem Circular.exists_dependsOn (h : Circular deps v) :
    ∃ w, DependsOn deps v w ∧ Circular deps w := by
  obtain ⟨u, hpath, hcircle⟩ := h
  have hloop : Relation.TransGen (DependsOn deps) v u := .trans_right hpath hcircle
  obtain ⟨w, hdep, hrest⟩ := Relation.TransGen.head'_iff.mp hloop
  exact ⟨w, hdep, u, hrest, hcircle⟩

theorem Acyclic.not_circular (h : Acyclic deps) : ¬ Circular deps v :=
  fun ⟨u, _, hcircle⟩ => h u hcircle

-- It is enough that what a variable depends on has a lower rank.
theorem acyclic_of_rank (rank : Nat → Nat)
    (h : ∀ d ∈ deps, d.1 ≠ d.2 → rank d.2 < rank d.1) : Acyclic deps := by
  have hlower : ∀ {v w}, Relation.TransGen (DependsOn deps) v w → rank w < rank v := by
    intro v w hpath
    induction hpath with
    | single hdep => exact h _ hdep.1 hdep.2
    | tail _ hdep ih => exact (h _ hdep.1 hdep.2).trans ih
  exact fun v hv => Nat.lt_irrefl _ (hlower hv)

/-! ## Ready variables -/

theorem isReady_iff : isReady deps left v = true ↔ ∀ w ∈ left, ¬ DependsOn deps v w := by
  rw [isReady, List.all_eq_true]
  constructor
  · intro h w hw hdep
    have hd := h (v, w) hdep.1
    simp [hw, Ne.symm hdep.2] at hd
  · intro h d hd
    by_cases hv : d.1 = v
    · by_cases hself : d.2 = v
      · simp [hself]
      · have hfree : d.2 ∉ left := fun hmem => h d.2 hmem ⟨hv ▸ hd, fun heq => hself heq.symm⟩
        simp [hfree]
    · simp [hv]

-- Finitely many variables that do not hang on themselves have a bottom.
theorem wellFounded_of_no_circle (h : ∀ v ∈ left, ¬ Relation.TransGen (DependsOn deps) v v) :
    WellFounded fun v w : {u // u ∈ left} => Relation.TransGen (DependsOn deps) w.1 v.1 := by
  have htrans : IsTrans {u // u ∈ left} fun v w => Relation.TransGen (DependsOn deps) w.1 v.1 :=
    ⟨fun _ _ _ hvw hwu => hwu.trans hvw⟩
  have hirrefl : Std.Irrefl fun v w : {u // u ∈ left} =>
      Relation.TransGen (DependsOn deps) w.1 v.1 := ⟨fun v => h v.1 v.2⟩
  exact Finite.wellFounded_of_trans_of_irrefl _

theorem exists_isReady (h : ∀ v ∈ left, ¬ Relation.TransGen (DependsOn deps) v v)
    (hne : left ≠ []) : ∃ v ∈ left, isReady deps left v = true := by
  obtain ⟨u, hu⟩ := List.exists_mem_of_ne_nil left hne
  obtain ⟨v, -, hmin⟩ := (wellFounded_of_no_circle h).has_min Set.univ ⟨⟨u, hu⟩, trivial⟩
  refine ⟨v.1, v.2, isReady_iff.mpr fun w hw hdep => ?_⟩
  exact hmin ⟨w, hw⟩ trivial (.single hdep)

-- One that does not lead into a circle would be ready at the bottom of those that do not. What else
-- is left leads into a circle, so that it cannot depend on that.
theorem circular_of_stuck (stuck : ∀ v ∈ left, isReady deps left v = false) :
    ∀ v ∈ left, Circular deps v := by
  classical
  intro v hv
  by_contra hfree
  let straight := left.filter fun u => ¬ Circular deps u
  have hstraight : ∀ u, u ∈ straight ↔ u ∈ left ∧ ¬ Circular deps u := by simp [straight]
  have hne : straight ≠ [] := List.ne_nil_of_mem ((hstraight v).mpr ⟨hv, hfree⟩)
  obtain ⟨u, hu, hready⟩ : ∃ u ∈ straight, isReady deps straight u = true :=
    exists_isReady (fun u hu hcircle => ((hstraight u).mp hu).2 (.of_circle hcircle)) hne
  obtain ⟨hu, hufree⟩ := (hstraight u).mp hu
  have hready' : isReady deps left u = true := by
    refine isReady_iff.mpr fun w hw hdep => isReady_iff.mp hready w ?_ hdep
    exact (hstraight w).mpr ⟨hw, fun hc => hufree (hc.of_dependsOn hdep)⟩
  rw [stuck u hu] at hready'
  cases hready'

/-! ## The order -/

/-- The first variable may stand before the second: it leads into no circle and does not depend on
the other, or both lead into circles and it is declared first. -/
def MayPrecede (deps : List Dependency) (v w : Nat) : Prop :=
  (¬ Circular deps v ∧ ¬ DependsOn deps v w) ∨ (Circular deps v ∧ Circular deps w ∧ v < w)

-- While something is ready, that does not lead into a circle: what does is all left, so that there
-- is something left on its way.
theorem not_circular_of_isReady (all : ∀ u, Circular deps u → u ∈ left)
    (hready : isReady deps left v = true) : ¬ Circular deps v := by
  intro hc
  obtain ⟨w, hdep, hw⟩ := hc.exists_dependsOn
  exact isReady_iff.mp hready w (all w hw) hdep

-- Each turn takes a variable that depends on none of those that are left, or is the last one.
theorem arrange_pairwise (turns : Nat) (left : List Nat) (enough : left.length ≤ turns)
    (declared : left.Pairwise (· < ·)) (all : ∀ u, Circular deps u → u ∈ left) :
    (arrange deps turns left).Pairwise (MayPrecede deps) := by
  induction turns generalizing left with
  | zero =>
    rw [List.length_eq_zero_iff.mp (Nat.le_zero.mp enough)]
    exact .nil
  | succ turns ih =>
    unfold arrange
    cases hfind : left.find? (isReady deps left) with
    | none =>
      have hc : ∀ v ∈ left, Circular deps v :=
        circular_of_stuck fun v hv => by simpa using List.find?_eq_none.mp hfind v hv
      exact declared.imp_of_mem fun hv hw hlt => .inr ⟨hc _ hv, hc _ hw, hlt⟩
    | some v =>
      have hmem : v ∈ left := List.mem_of_find?_eq_some hfind
      have hready : isReady deps left v = true := List.find?_some hfind
      have hfree : ¬ Circular deps v := not_circular_of_isReady all hready
      apply List.Pairwise.cons
      · intro w hw
        have hw' : w ∈ left.erase v := (arrange_perm deps turns _).mem_iff.mp hw
        exact .inl ⟨hfree, isReady_iff.mp hready w (List.mem_of_mem_erase hw')⟩
      · refine ih (left.erase v) ?_ (declared.sublist List.erase_sublist) fun u hu => ?_
        · rw [List.length_erase_of_mem hmem]
          omega
        · have hne : u ≠ v := fun heq => hfree (heq ▸ hu)
          exact (List.mem_erase_of_ne hne).mpr (all u hu)

variable {vars bound : List String} {form : Form} {context : List Nat} {e : Expr}

theorem position?_lt {x : String} (h : position? vars x = some v) : v < vars.length :=
  (List.findIdx?_eq_some_iff_getElem.mp h).1

theorem target?_lt (h : target? vars form bound e = some v) : v < vars.length := by
  unfold target? at h
  split at h
  · split at h
    · exact position?_lt h
    · cases h
  · split at h
    · exact position?_lt h
    · cases h
  · cases h

theorem targetsIn_append_lt (e : Expr) (inner : ∀ w ∈ context, w < vars.length) :
    ∀ w ∈ targetsIn vars form bound e ++ context, w < vars.length := by
  refine List.forall_mem_append.mpr ⟨fun w hw => ?_, inner⟩
  obtain ⟨x, -, hx⟩ := List.mem_filterMap.mp hw
  exact position?_lt hx

theorem definedBy_lt (side other : Expr) (inner : ∀ w ∈ context, w < vars.length) :
    ∀ d ∈ definedBy vars form bound context side other,
      d.1 < vars.length ∧ d.2 < vars.length := by
  intro d hd
  unfold definedBy at hd
  cases hv : target? vars form bound side with
  | none =>
    rw [hv] at hd
    cases hd
  | some v =>
    rw [hv] at hd
    obtain ⟨w, hw, rfl⟩ := List.mem_map.mp hd
    exact ⟨target?_lt hv, targetsIn_append_lt other inner w hw⟩

-- Dependencies are between declared variables, as long as the context holds only such.
theorem dependencies_lt (e : Expr) (inner : ∀ w ∈ context, w < vars.length) :
    ∀ d ∈ dependencies vars form e bound context, d.1 < vars.length ∧ d.2 < vars.length := by
  fun_induction dependencies vars form e bound context with
  | case1 _ l r =>
    exact List.forall_mem_append.mpr ⟨definedBy_lt l r inner, definedBy_lt r l inner⟩
  | case2 _ l r => exact definedBy_lt l r inner
  | case3 _ _ _ _ _ ihl ihr | case4 _ _ _ _ _ _ ihl ihr =>
    exact List.forall_mem_append.mpr ⟨ihl inner, ihr inner⟩
  | case5 _ c _ _ bound context iht ihe =>
    have under : ∀ w ∈ targetsIn vars form bound c ++ context, w < vars.length :=
      targetsIn_append_lt c inner
    exact List.forall_mem_append.mpr ⟨iht under, ihe under⟩
  | case6 _ _ d _ _ _ ih | case7 _ _ d _ _ _ ih | case8 _ _ d _ _ _ ih =>
    exact ih (targetsIn_append_lt d inner)
  | case9 _ _ _ _ ih | case10 _ _ _ _ ih => exact ih inner
  | case11 => exact List.forall_mem_nil _

theorem Circular.lt (h : Circular (dependencies vars form e [] []) v) : v < vars.length := by
  obtain ⟨w, hdep, -⟩ := h.exists_dependsOn
  exact (dependencies_lt e (List.forall_mem_nil _) _ hdep.1).1

theorem solvingOrder_mayPrecede (vars : List String) (form : Form) (e : Expr) :
    (e.solvingOrder vars form).Pairwise (MayPrecede (dependencies vars form e [] [])) :=
  arrange_pairwise _ _ (by rw [List.length_range]) List.pairwise_lt_range
    fun _ h => List.mem_range.mpr h.lt

theorem solvingOrder_pairwise (acyclic : Acyclic (dependencies vars form e [] [])) :
    (e.solvingOrder vars form).Pairwise fun v w =>
      ¬ DependsOn (dependencies vars form e [] []) v w :=
  (solvingOrder_mayPrecede vars form e).imp fun h => by
    rcases h with h | h
    · exact h.2
    · exact absurd h.1 acyclic.not_circular

/-! ## Precedence -/

def Precedes (order : List Nat) (v w : Nat) : Prop := [v, w].Sublist order

theorem precedes_or_precedes {order : List Nat} (hv : v ∈ order) (hw : w ∈ order) (hne : v ≠ w) :
    Precedes order v w ∨ Precedes order w v := by
  obtain ⟨before, after, rfl⟩ := List.append_of_mem hv
  rcases List.mem_append.mp hw with hw | hw
  · right
    have h : [w].Sublist before := List.singleton_sublist.mpr hw
    exact h.append (List.singleton_sublist.mpr List.mem_cons_self)
  · left
    have hw : w ∈ after := (List.mem_cons.mp hw).resolve_left (Ne.symm hne)
    exact ((List.singleton_sublist.mpr hw).cons_cons v).trans (List.sublist_append_right _ _)

-- Where one order of two variables is ruled out, they are in the other one.
theorem precedes_of_not_mayPrecede (hv : v < vars.length) (hw : w < vars.length) (hne : v ≠ w)
    (h : ¬ MayPrecede (dependencies vars form e [] []) w v) :
    Precedes (e.solvingOrder vars form) v w := by
  have hor : Precedes (e.solvingOrder vars form) v w ∨ Precedes (e.solvingOrder vars form) w v :=
    precedes_or_precedes (mem_solvingOrder.mpr hv) (mem_solvingOrder.mpr hw) hne
  refine hor.resolve_right fun hsub => h ?_
  exact List.pairwise_iff_forall_sublist.mp (solvingOrder_mayPrecede vars form e) hsub

/-- What the order in which variables are solved for promises, for `n` variables. -/
structure RespectsDependencies (deps : List Dependency) (n : Nat) (order : List Nat) : Prop where
  /-- Every variable comes once. -/
  perm : order.Perm (List.range n)
  /-- A variable comes behind one that it depends on, unless that one leads into a circle. -/
  behind : ∀ v w, DependsOn deps v w → ¬ Circular deps w → Precedes order w v
  /-- The variables that lead into a circle come behind all others. -/
  last : ∀ v w, v < n → ¬ Circular deps v → Circular deps w → Precedes order v w
  /-- They come as they are declared, whatever depends on what. -/
  declared : ∀ v w, Circular deps v → Circular deps w → v < w → Precedes order v w

/-- Whatever the expression is, the solving order respects the dependencies that lead into no
circle, and falls back to the declared order for what does lead into one. -/
theorem solvingOrder_respectsDependencies (vars : List String) (form : Form) (e : Expr) :
    RespectsDependencies (dependencies vars form e [] []) vars.length
      (e.solvingOrder vars form) where
  perm := solvingOrder_perm vars form e
  behind v w hdep hfree := by
    obtain ⟨hv, hw⟩ := dependencies_lt e (List.forall_mem_nil _) _ hdep.1
    refine precedes_of_not_mayPrecede hw hv hdep.2.symm fun h => ?_
    rcases h with h | h
    · exact h.2 hdep
    · exact hfree h.2.1
  last v w hv hfree hc := by
    refine precedes_of_not_mayPrecede hv hc.lt (fun heq => hfree (heq ▸ hc)) fun h => ?_
    rcases h with h | h
    · exact h.1 hc
    · exact hfree h.2.1
  declared v w hv hw hlt := by
    refine precedes_of_not_mayPrecede hv.lt hw.lt (Nat.ne_of_lt hlt) fun h => ?_
    rcases h with h | h
    · exact h.1 hw
    · exact Nat.lt_asymm hlt h.2.2

/-- The action `z' = x' + 1 /\ x' = y'`. The variables `x` and `y` are on a circle, and `z` depends
on one of them. -/
def entangled : Expr :=
  .conj [
    .binary .none .eq (.primed .none "z")
      (.binary .none .add (.primed .none "x") (.literal .none (.int 1))),
    .binary .none .eq (.primed .none "x") (.primed .none "y")]

-- Nothing leads to the first variable, which comes before one that it depends on.
theorem not_precedes_entangled :
    let vars := ["z", "x", "y"]
    let deps := dependencies vars .primed entangled [] []
    let order := entangled.solvingOrder vars .primed
    vars.Nodup ∧ DependsOn deps 0 1 ∧ (∀ v, ¬ Relation.TransGen (DependsOn deps) v 0) ∧
      order = [0, 1, 2] ∧ ¬ Precedes order 1 0 := by
  intro vars deps order
  have horder : order = [0, 1, 2] := by decide
  refine ⟨by decide, by unfold DependsOn; decide, fun v h => ?_, horder, ?_⟩
  · obtain ⟨u, -, hdep⟩ := Relation.TransGen.tail'_iff.mp h
    have hnone : ∀ d ∈ deps, d.2 ≠ 0 := by decide
    exact hnone (u, 0) hdep.1 rfl
  · rw [horder]
    unfold Precedes
    decide

end ActionSystem.Expr
