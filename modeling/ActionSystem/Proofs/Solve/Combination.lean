import ActionSystem.Proofs.Comparison
import ActionSystem.Proofs.Eval.Truth
import ActionSystem.Proofs.Solve.Derivation

/-!
# Candidates taken together

What several alternatives say together, and what several conditions do, depends on what the single
ones say only, not on their number, their order, or how they are grouped.
-/

namespace ActionSystem

namespace Candidates

variable {form : Form} {current : Option Value} {cs ds : List Candidates} {a b r : Candidates}
  {v : Value}

def Lists (v : Value) : Candidates → Prop
  | values vs => v ∈ vs
  | _ => False

/-- The candidates say the same. In which order they list values, and how often, does not count. -/
structure Same (a b : Candidates) : Prop where
  disabled : a = .disabled ↔ b = .disabled
  unmentioned : a = .unmentioned ↔ b = .unmentioned
  constrained : a = .constrained ↔ b = .constrained
  lists : ∀ v, a.Lists v ↔ b.Lists v

theorem Same.refl (a : Candidates) : a.Same a := ⟨.rfl, .rfl, .rfl, fun _ => .rfl⟩

theorem Same.symm (h : a.Same b) : b.Same a :=
  ⟨h.disabled.symm, h.unmentioned.symm, h.constrained.symm, fun v => (h.lists v).symm⟩

theorem Same.trans (h : a.Same b) (h' : b.Same r) : a.Same r :=
  ⟨h.disabled.trans h'.disabled, h.unmentioned.trans h'.unmentioned,
    h.constrained.trans h'.constrained, fun v => (h.lists v).trans (h'.lists v)⟩

def Within (cs ds : List Candidates) : Prop := ∀ c ∈ cs, ∃ d ∈ ds, c.Same d

theorem within_of_forall₂ (h : List.Forall₂ Same cs ds) : Within cs ds ∧ Within ds cs := by
  induction h with
  | nil => exact ⟨nofun, nofun⟩
  | @cons a b as bs hab _ ih =>
    refine ⟨List.forall_mem_cons.mpr ⟨⟨b, List.mem_cons_self, hab⟩, fun c hc => ?_⟩,
      List.forall_mem_cons.mpr ⟨⟨a, List.mem_cons_self, hab.symm⟩, fun c hc => ?_⟩⟩
    · obtain ⟨d, hd, hcd⟩ := ih.1 c hc
      exact ⟨d, List.mem_cons_of_mem _ hd, hcd⟩
    · obtain ⟨d, hd, hcd⟩ := ih.2 c hc
      exact ⟨d, List.mem_cons_of_mem _ hd, hcd⟩

theorem within_of_subset (h : cs ⊆ ds) : Within cs ds := fun c hc => ⟨c, h hc, .refl c⟩

def Listed (cs : List Candidates) (v : Value) : Prop := ∃ c ∈ cs, c.Lists v

theorem listed_append : Listed (cs ++ ds) v ↔ Listed cs v ∨ Listed ds v := by
  simp [Listed, or_and_right, exists_or]

theorem listed_pair : Listed [a, b] v ↔ a.Lists v ∨ b.Lists v := by
  simp [Listed]

-- Only lists list values.
theorem Listed.exists_values (h : Listed cs v) : ∃ ws, values ws ∈ cs ∧ v ∈ ws := by
  obtain ⟨c, hc, hv⟩ := h
  cases c with
  | values ws => exact ⟨ws, hc, hv⟩
  | _ => cases hv

theorem mem_pair {c : Candidates} : c ∈ [a, b] ↔ a = c ∨ b = c := by
  simp [eq_comm]

-- What all alternatives have in common, all of those that say the same have in common.
theorem Within.forall_mem {P : Candidates → Prop} (h : Within ds cs)
    (inv : ∀ c d, c.Same d → P d → P c) (hP : ∀ c ∈ cs, P c) : ∀ d ∈ ds, P d := by
  intro d hd
  obtain ⟨c, hc, hdc⟩ := h d hd
  exact inv d c hdc (hP c hc)

theorem Within.listed (h : Within cs ds) (hv : Listed cs v) : Listed ds v := by
  obtain ⟨c, hc, hv⟩ := hv
  obtain ⟨d, hd, hcd⟩ := h c hc
  exact ⟨d, hd, (hcd.lists v).mp hv⟩

theorem Within.constrained (h : Within cs ds) (hc : .constrained ∈ cs) : .constrained ∈ ds := by
  obtain ⟨d, hd, hcd⟩ := h _ hc
  exact hcd.constrained.mp rfl ▸ hd

theorem Within.unmentioned (h : Within cs ds) (hc : .unmentioned ∈ cs) : .unmentioned ∈ ds := by
  obtain ⟨d, hd, hcd⟩ := h _ hc
  exact hcd.unmentioned.mp rfl ▸ hd

theorem Within.disabled (h : Within cs ds) (hc : .disabled ∈ cs) : .disabled ∈ ds := by
  obtain ⟨d, hd, hcd⟩ := h _ hc
  exact hcd.disabled.mp rfl ▸ hd

/-! ## Alternatives -/

/-- The candidates are what alternatives say together. One that does not look at the variable
stands for its `current` value if another one lists values. -/
structure Joins (form : Form) (current : Option Value) (cs : List Candidates) (r : Candidates) :
    Prop where
  disabled : r = .disabled ↔ ∀ c ∈ cs, c = .disabled
  unmentioned : r = .unmentioned ↔ .constrained ∉ cs ∧ .unmentioned ∈ cs ∧ ¬ ∃ v, Listed cs v
  constrained : r = .constrained ↔
    .constrained ∈ cs ∨ form = .unprimed ∧ .unmentioned ∈ cs ∧ ∃ v, Listed cs v
  lists : r ≠ .constrained → ∀ v, r.Lists v ↔
    Listed cs v ∨ .unmentioned ∈ cs ∧ (∃ w, Listed cs w) ∧ current = some v
  kept : form = .primed → .constrained ∉ cs → .unmentioned ∈ cs → (∃ v, Listed cs v) →
    current ≠ none

theorem joins_singleton (a : Candidates) : Joins form current [a] a where
  disabled := by simp
  unmentioned := by cases a <;> simp [Listed, Lists]
  constrained := by cases a <;> simp [Listed, Lists]
  lists _ v := by cases a <;> simp [Listed, Lists]
  kept _ _ hun := by
    rw [List.mem_singleton] at hun
    rintro ⟨v, hv⟩
    simp [Listed, Lists, ← hun] at hv

theorem Joins.exists_lists (h : Joins form current cs r) (hr : r ≠ .constrained) :
    (∃ v, r.Lists v) ↔ ∃ v, Listed cs v := by
  constructor
  · intro ⟨v, hv⟩
    exact ((h.lists hr v).mp hv).elim (fun hv => ⟨v, hv⟩) fun hw => hw.2.1
  · intro ⟨v, hv⟩
    exact ⟨v, (h.lists hr v).mpr (.inl hv)⟩

/-- Alternatives of alternatives are alternatives. -/
theorem Joins.append (ha : Joins form current cs a) (hb : Joins form current ds b)
    (h : Joins form current [a, b] r) : Joins form current (cs ++ ds) r := by
  have hla := ha.exists_lists
  have hlb := hb.exists_lists
  have hu := h.unmentioned
  have hc := h.constrained
  have hl := h.lists
  simp only [listed_pair, exists_or] at hu hc hl
  simp only [mem_pair] at hu hc hl
  refine ⟨?_, ?_, ?_, fun hr v => ?_, fun hform => ?_⟩
  · rw [h.disabled, List.forall_mem_append, ← ha.disabled, ← hb.disabled]
    simp
  · simp only [listed_append, List.mem_append, exists_or]
    grind [ha.unmentioned, hb.unmentioned, ha.constrained, hb.constrained]
  · simp only [listed_append, List.mem_append, exists_or]
    grind [ha.unmentioned, hb.unmentioned, ha.constrained, hb.constrained]
  · have hne : a ≠ .constrained ∧ b ≠ .constrained := by grind
    have hva := ha.lists hne.1 v
    have hvb := hb.lists hne.2 v
    simp only [hl hr, listed_append, List.mem_append, exists_or]
    grind [ha.unmentioned, hb.unmentioned, ha.constrained, hb.constrained]
  · have hk := h.kept hform
    simp only [listed_pair, exists_or] at hk
    simp only [mem_pair] at hk
    simp only [listed_append, List.mem_append, exists_or]
    grind [ha.unmentioned, hb.unmentioned, ha.constrained, hb.constrained, ha.kept hform,
      hb.kept hform]

-- What is said together is determined by what the single ones say.
theorem Joins.same (ha : Joins form current cs a) (hb : Joins form current ds b)
    (h : Within cs ds) (h' : Within ds cs) : a.Same b := by
  have hlisted : ∀ v, Listed cs v ↔ Listed ds v := fun v => ⟨h.listed, h'.listed⟩
  have hunmentioned : Candidates.unmentioned ∈ cs ↔ .unmentioned ∈ ds :=
    ⟨h.unmentioned, h'.unmentioned⟩
  have hconstrained : Candidates.constrained ∈ cs ↔ .constrained ∈ ds :=
    ⟨h.constrained, h'.constrained⟩
  have hdisabled : (∀ c ∈ cs, c = .disabled) ↔ ∀ d ∈ ds, d = .disabled :=
    ⟨h'.forall_mem fun _ _ hcd => hcd.disabled.mpr, h.forall_mem fun _ _ hcd => hcd.disabled.mpr⟩
  have heq : a = .constrained ↔ b = .constrained := by
    rw [ha.constrained, hb.constrained, hconstrained, hunmentioned]
    simp only [hlisted]
  refine ⟨by rw [ha.disabled, hb.disabled, hdisabled], ?_, heq, fun v => ?_⟩
  · rw [ha.unmentioned, hb.unmentioned, hconstrained, hunmentioned]
    simp only [hlisted]
  · by_cases hcon : a = .constrained
    · rw [hcon, heq.mp hcon]
    · rw [ha.lists hcon, hb.lists (mt heq.mpr hcon), hunmentioned]
      simp only [hlisted]

/-! ## Conditions -/

structure Meets (cs : List Candidates) (r : Candidates) : Prop where
  disabled : r = .disabled ↔ .disabled ∈ cs
  unmentioned : r = .unmentioned ↔ ∀ c ∈ cs, c = .unmentioned
  constrained : r = .constrained ↔
    .constrained ∈ cs ∧ ∀ c ∈ cs, c = .constrained ∨ c = .unmentioned
  lists : r ≠ .disabled → ∀ v, r.Lists v ↔ Listed cs v

theorem lists_conjoin (h : a.conjoin b ≠ .disabled) :
    (a.conjoin b).Lists v ↔ a.Lists v ∨ b.Lists v := by
  cases a <;> cases b <;> simp [conjoin, Lists, Sorted.mem_union] at h ⊢

theorem meets_pair (a b : Candidates) : Meets [a, b] (a.conjoin b) where
  disabled := by cases a <;> cases b <;> simp [conjoin]
  unmentioned := by cases a <;> cases b <;> simp [conjoin]
  constrained := by cases a <;> cases b <;> simp [conjoin]
  lists h v := by rw [lists_conjoin h, listed_pair]

-- Some condition looks at the variable, but none says what it is.
theorem Meets.forall_open (h : Meets cs r) :
    (∀ c ∈ cs, c = .constrained ∨ c = .unmentioned) ↔ r = .constrained ∨ r = .unmentioned := by
  rw [h.constrained, h.unmentioned]
  constructor
  · intro hall
    by_cases hc : Candidates.constrained ∈ cs
    · exact .inl ⟨hc, hall⟩
    · exact .inr fun c hc' => (hall c hc').resolve_left fun heq => hc (heq ▸ hc')
  · intro hall
    rcases hall with hall | hall
    · exact hall.2
    · exact fun c hc => .inr (hall c hc)

/-- Conditions of conditions are conditions. -/
theorem Meets.append (ha : Meets cs a) (hb : Meets ds b) : Meets (cs ++ ds) (a.conjoin b) := by
  have h := meets_pair a b
  refine ⟨?_, ?_, ?_, fun hr v => ?_⟩
  · rw [h.disabled, mem_pair, ha.disabled, hb.disabled, List.mem_append]
  · rw [h.unmentioned, List.forall_mem_append, ← ha.unmentioned, ← hb.unmentioned]
    simp
  · have hca : a = .constrained ∨ a = .unmentioned → (a = .constrained ↔ .constrained ∈ cs) := by
      intro hopen
      rw [ha.constrained, ha.forall_open]
      exact and_iff_left hopen
    have hcb : b = .constrained ∨ b = .unmentioned → (b = .constrained ↔ .constrained ∈ ds) := by
      intro hopen
      rw [hb.constrained, hb.forall_open]
      exact and_iff_left hopen
    rw [h.constrained, List.forall_mem_append, ha.forall_open, hb.forall_open, mem_pair,
      List.mem_append]
    constructor
    · intro ⟨hc, hall⟩
      have hopen := hall a (by simp)
      have hopen' := hall b (by simp)
      exact ⟨hc.imp (hca hopen).mp (hcb hopen').mp, hopen, hopen'⟩
    · intro ⟨hc, hopen, hopen'⟩
      exact ⟨hc.imp (hca hopen).mpr (hcb hopen').mpr, by simpa using ⟨hopen, hopen'⟩⟩
  · have hne : a ≠ .disabled ∧ b ≠ .disabled := by
      constructor <;> intro heq <;> exact hr (h.disabled.mpr (by simp [heq]))
    rw [lists_conjoin hr, ha.lists hne.1, hb.lists hne.2, listed_append]

theorem meets_nil : Meets [] .unmentioned :=
  ⟨by simp, by simp, by simp, by simp [Listed, Lists]⟩

theorem meets_singleton (a : Candidates) : Meets [a] a :=
  ⟨by simp [eq_comm], by simp, by simpa [eq_comm] using .inl, by simp [Listed]⟩

theorem meets_foldl (ha : Meets cs a) (ds : List Candidates) :
    Meets (cs ++ ds) (ds.foldl conjoin a) := by
  induction ds generalizing cs a with
  | nil => simpa using ha
  | cons d ds ih => simpa using ih (ha.append (meets_singleton d))

theorem Meets.same (ha : Meets cs a) (hb : Meets ds b) (h : Within cs ds) (h' : Within ds cs) :
    a.Same b := by
  have heq : a = .disabled ↔ b = .disabled := by
    rw [ha.disabled, hb.disabled]
    exact ⟨h.disabled, h'.disabled⟩
  refine ⟨heq, ?_, ?_, fun v => ?_⟩
  · rw [ha.unmentioned, hb.unmentioned]
    exact ⟨h'.forall_mem fun _ _ hcd => hcd.unmentioned.mpr,
      h.forall_mem fun _ _ hcd => hcd.unmentioned.mpr⟩
  · rw [ha.constrained, hb.constrained]
    have inv : ∀ c d : Candidates, c.Same d → d = .constrained ∨ d = .unmentioned →
        c = .constrained ∨ c = .unmentioned := fun _ _ hcd =>
      Or.imp hcd.constrained.mpr hcd.unmentioned.mpr
    exact and_congr ⟨h.constrained, h'.constrained⟩ ⟨h'.forall_mem inv, h.forall_mem inv⟩
  · by_cases hdis : a = .disabled
    · rw [hdis, heq.mp hdis]
    · rw [ha.lists hdis, hb.lists (mt heq.mpr hdis)]
      exact ⟨h.listed, h'.listed⟩

-- A survey that ends has all values that are listed.
theorem mem_iff_of_survey {vs : List Value} {live stutter : Bool}
    (h : survey [] false false cs = .listed vs live stutter) : v ∈ vs ↔ Listed cs v := by
  obtain ⟨hmem, -⟩ := survey_eq_listed h
  rw [hmem]
  constructor
  · intro h
    obtain ⟨ws, hws, hv⟩ := h.resolve_left (by simp)
    exact ⟨_, hws, hv⟩
  · intro ⟨c, hc, hv⟩
    cases c with
    | values ws => exact .inr ⟨ws, hc, hv⟩
    | _ => exact hv.elim

theorem Same.conjoin {a' b' : Candidates} (ha : a.Same a') (hb : b.Same b') :
    (a.conjoin b).Same (a'.conjoin b') := by
  obtain ⟨within, within'⟩ := within_of_forall₂ (.cons ha (.cons hb .nil))
  exact (meets_pair a b).same (meets_pair a' b') within within'

theorem conjoin_self_same (a : Candidates) : (a.conjoin a).Same a :=
  (meets_pair a a).same (meets_singleton a) (within_of_subset (by simp))
    (within_of_subset (by simp))

/-! ## Candidates of all items -/

section

variable {f : Value → Except EvalError Candidates} {us vs : List Value}

def said (f : Value → Except EvalError Candidates) (v : Value) : Candidates :=
  (f v).toOption.getD .constrained

theorem said_of_ok (h : f v = .ok a) : said f v = a := by
  rw [said, h]
  rfl

structure JoinsAll (f : Value → Except EvalError Candidates) (form : Form)
    (current : Option Value) (vs : List Value) (r : Candidates) : Prop where
  results : ∀ v ∈ vs, f v = .ok (said f v)
  joins : Joins form current (vs.map (said f)) r

theorem joinsAll_singleton (h : f v = .ok a) : JoinsAll f form current [v] a where
  results := by simp [h, said_of_ok h]
  joins := by simpa [said_of_ok h] using joins_singleton a

theorem JoinsAll.append (hu : JoinsAll f form current us a) (hv : JoinsAll f form current vs b)
    (h : Joins form current [a, b] r) : JoinsAll f form current (us ++ vs) r where
  results := List.forall_mem_append.mpr ⟨hu.results, hv.results⟩
  joins := by
    rw [List.map_append]
    exact hu.joins.append hv.joins h

theorem within_map (h : SameMembers us vs) :
    Within (us.map (said f)) (vs.map (said f)) :=
  within_of_subset (List.map_subset _ fun v => (h v).mp)

theorem JoinsAll.same (hu : JoinsAll f form current us a) (hv : JoinsAll f form current vs b)
    (h : SameMembers us vs) : a.Same b :=
  hu.joins.same hv.joins (within_map h) (within_map fun v => (h v).symm)

/-- The computation for one of the values says that the relation is disabled, or all of them have
results, and as conditions they say this. -/
inductive MeetsAll (f : Value → Except EvalError Candidates) (vs : List Value) :
    Candidates → Prop where
  | disabled {v : Value} (mem : v ∈ vs) (result : f v = .ok .disabled) : MeetsAll f vs .disabled
  | meets {r : Candidates} (results : ∀ v ∈ vs, f v = .ok (said f v))
      (meets : Meets (vs.map (said f)) r) : MeetsAll f vs r

theorem meetsAll_singleton (h : f v = .ok a) : MeetsAll f [v] a :=
  .meets (by simp [h, said_of_ok h]) (by simpa [said_of_ok h] using meets_singleton a)

theorem MeetsAll.exists_disabled (h : MeetsAll f vs .disabled) :
    ∃ v ∈ vs, f v = .ok .disabled := by
  cases h with
  | disabled mem result => exact ⟨_, mem, result⟩
  | meets results meets =>
    obtain ⟨v, hv, hsaid⟩ := List.mem_map.mp (meets.disabled.mp rfl)
    exact ⟨v, hv, hsaid ▸ results v hv⟩

theorem MeetsAll.append (hu : MeetsAll f us a) (hv : MeetsAll f vs b) :
    MeetsAll f (us ++ vs) (a.conjoin b) := by
  have hright : MeetsAll f vs .disabled → MeetsAll f (us ++ vs) .disabled := by
    intro h
    obtain ⟨v, hv, hresult⟩ := h.exists_disabled
    exact .disabled (List.mem_append_right _ hv) hresult
  cases hu with
  | disabled mem result => exact .disabled (List.mem_append_left _ mem) result
  | meets results meets =>
    cases hv with
    | disabled mem result =>
      have hdis : a.conjoin .disabled = .disabled := by cases a <;> rfl
      rw [hdis]
      exact .disabled (List.mem_append_right _ mem) result
    | meets results' meets' =>
      refine .meets (List.forall_mem_append.mpr ⟨results, results'⟩) ?_
      rw [List.map_append]
      exact meets.append meets'

theorem MeetsAll.same (hu : MeetsAll f us a) (hv : MeetsAll f vs b) (h : SameMembers us vs) :
    a.Same b := by
  have disabled : ∀ {us vs a}, MeetsAll f us .disabled → MeetsAll f vs a → SameMembers us vs →
      a = .disabled := by
    intro us vs a hu hv h
    cases hv with
    | disabled mem result => rfl
    | meets results meets =>
      obtain ⟨v, hmem, hresult⟩ := hu.exists_disabled
      exact meets.disabled.mpr (List.mem_map.mpr ⟨v, (h v).mp hmem, said_of_ok hresult⟩)
  cases hu with
  | disabled mem result => exact disabled (.disabled mem result) hv h ▸ .refl _
  | meets results meets =>
    cases hv with
    | disabled mem result =>
      exact disabled (.disabled mem result) (.meets results meets) (fun v => (h v).symm) ▸ .refl _
    | meets results' meets' =>
      exact meets.same meets' (within_map h) (within_map fun v => (h v).symm)

end

end Candidates

namespace Unknown

variable {u : Unknown} {outer : Context} {cs ds : List Candidates} {r : Candidates}

theorem joins_of_disjoin (h : u.disjoin outer cs = .ok r) :
    Candidates.Joins u.form (outer.value? u.name) cs r := by
  unfold disjoin at h
  cases hs : Candidates.survey [] false false cs with
  | constrained =>
    rw [hs] at h
    cases h
    have hc := Candidates.mem_of_survey_eq_constrained hs
    exact ⟨by simpa using ⟨_, hc, by simp⟩, by simp [hc], by simp [hc], by simp, by simp [hc]⟩
  | listed vs live stutter =>
    obtain ⟨-, hlive, hstutter, hcon⟩ := Candidates.survey_eq_listed hs
    have hlisted : ∀ v, v ∈ vs ↔ Candidates.Listed cs v := fun v => Candidates.mem_iff_of_survey hs
    rw [hs] at h
    cases live with
    | false =>
      cases h
      have hdead : ∀ c ∈ cs, c = .disabled := by simpa using hlive
      have hun : .unmentioned ∉ cs := fun hmem => by cases hdead _ hmem
      have hlists : ∀ v, ¬ Candidates.Listed cs v := by
        intro v ⟨c, hc, hv⟩
        rw [hdead c hc] at hv
        exact hv
      exact ⟨by simpa using hdead, by simp [hun], by simp [hcon, hun],
        by simp [hun, hlists, Candidates.Lists], by simp [hun]⟩
    | true =>
      have hlive : ∃ c ∈ cs, c ≠ .disabled := by simpa using hlive
      cases stutter with
      | false =>
        have hr : r = .values vs := by
          cases vs <;> cases h <;> rfl
        have hun : .unmentioned ∉ cs := by simpa using hstutter
        subst hr
        exact ⟨by simpa using hlive, by simp [hun], by simp [hcon, hun],
          by simp [hun, Candidates.Lists, hlisted], by simp [hun]⟩
      | true =>
        have hun : .unmentioned ∈ cs := by simpa using hstutter
        cases vs with
        | nil =>
          cases h
          have hlists : ∀ v, ¬ Candidates.Listed cs v := fun v hv => by
            cases (hlisted v).mpr hv
          exact ⟨by simpa using hlive, by simp [hcon, hun, hlists], by simp [hcon, hlists],
            by simp [hlists, Candidates.Lists], by simp [hlists]⟩
        | cons w vs =>
          have hsome : ∃ v, Candidates.Listed cs v := ⟨w, (hlisted w).mp List.mem_cons_self⟩
          cases hform : u.form with
          | unprimed =>
            simp only [hform, Except.ok.injEq] at h
            subst h
            exact ⟨by simpa using hlive, by simp [hsome], by simp [hun, hsome], by simp,
              by simp⟩
          | primed =>
            simp only [hform, Result.bind_eq_ok, Result.pure_eq_ok, Expr.lookup_eq_ok] at h
            obtain ⟨x, hx, rfl⟩ := h
            refine ⟨by simpa using hlive, by simp [hsome], by simp [hcon], fun _ v => ?_,
              by simp [hx]⟩
            change v ∈ Sorted.insert Value.cmp x (w :: vs) ↔ _
            rw [Sorted.mem_insert, hlisted, hx, Option.some.injEq, or_comm, eq_comm]
            simp [hun, hsome]

-- Alternatives look at the variable if each of them does.
theorem disjoin_ne_unmentioned (h : u.disjoin outer cs = .ok r) (hcs : .unmentioned ∉ cs) :
    r ≠ .unmentioned := by
  intro hr
  obtain ⟨-, hun, -⟩ := (joins_of_disjoin h).unmentioned.mp hr
  exact hcs hun

-- Alternatives list values only if one of them does.
theorem exists_values_of_disjoin {vs : List Value} (h : u.disjoin outer cs = .ok (.values vs)) :
    ∃ ws, .values ws ∈ cs := by
  have joins := joins_of_disjoin h
  have hcon : .constrained ∉ cs := fun hc => by cases joins.constrained.mpr (.inl hc)
  have hlive : ¬ ∀ c ∈ cs, c = .disabled := fun hdead => by cases joins.disabled.mpr hdead
  obtain ⟨c, hc, hne⟩ : ∃ c ∈ cs, c ≠ .disabled := by simpa using hlive
  cases c with
  | values ws => exact ⟨ws, hc⟩
  | disabled => exact absurd rfl hne
  | constrained => exact absurd hc hcon
  | unmentioned =>
    -- all alternatives would leave the variable alone if none listed values
    by_contra hnone
    have hlisted : ¬ ∃ v, Candidates.Listed cs v := by
      rintro ⟨v, hv⟩
      obtain ⟨ws, hws, -⟩ := hv.exists_values
      exact hnone ⟨ws, hws⟩
    cases joins.unmentioned.mpr ⟨hcon, hc, hlisted⟩

-- What one of several alternatives admits, they admit together. The value that is put in for an
-- alternative that does not look at the variable may be wrong, so that lists are exact only without
-- such alternatives, or if there is no other alternative.
theorem disjoin_admits {exact : Prop} {a : Candidates} {v : Option Value}
    (h : u.disjoin outer cs = .ok r) (ha : a ∈ cs) (hv : a.Admits exact v)
    (pure : exact → u.form = .primed →
      .unmentioned ∉ cs ∨ ∀ c ∈ cs, c = .unmentioned ∨ c = .disabled) :
    r.Admits exact v := by
  have joins := joins_of_disjoin h
  cases r with
  | unmentioned | constrained => trivial
  | disabled =>
    rw [joins.disabled.mp rfl a ha] at hv
    exact hv
  | values vs =>
    intro hexact
    cases a with
    | disabled => exact hv.elim
    | constrained => cases joins.constrained.mpr (.inl ha)
    | values us =>
      obtain ⟨w, hw, hvw⟩ := hv hexact
      have hlists : (Candidates.values vs).Lists w :=
        (joins.lists (by simp) w).mpr (.inl ⟨_, ha, hw⟩)
      exact ⟨w, hlists, hvw⟩
    | unmentioned =>
      obtain ⟨us, hus⟩ := exists_values_of_disjoin h
      cases hform : u.form with
      | primed =>
        rcases pure hexact hform with hnot | hall
        · exact absurd ha hnot
        · rcases hall _ hus with hc | hc <;> cases hc
      | unprimed =>
        have hcon : .constrained ∉ cs := fun hc => by cases joins.constrained.mpr (.inl hc)
        have hlisted : ∃ w, Candidates.Listed cs w := by
          by_contra hnone
          cases joins.unmentioned.mpr ⟨hcon, ha, hnone⟩
        cases joins.constrained.mpr (.inr ⟨hform, ha, hlisted⟩)

-- Alternatives have nothing to say together only if a current value is called for that is missing.
theorem of_disjoin_eq_error {err : EvalError} (h : u.disjoin outer cs = .error err) :
    u.form = .primed ∧ .constrained ∉ cs ∧ .unmentioned ∈ cs ∧ (∃ v, Candidates.Listed cs v) ∧
      outer.value? u.name = none := by
  unfold disjoin at h
  cases hs : Candidates.survey [] false false cs with
  | constrained =>
    rw [hs] at h
    cases h
  | listed vs live stutter =>
    obtain ⟨-, -, hstutter, hcon⟩ := Candidates.survey_eq_listed hs
    rw [hs] at h
    cases live with
    | false => cases h
    | true =>
      cases stutter with
      | false => cases vs <;> cases h
      | true =>
        cases vs with
        | nil => cases h
        | cons w vs =>
          cases hform : u.form with
          | unprimed =>
            simp only [hform] at h
            cases h
          | primed =>
            simp only [hform] at h
            refine ⟨rfl, hcon, by simpa using hstutter,
              ⟨w, (Candidates.mem_iff_of_survey hs).mp List.mem_cons_self⟩, ?_⟩
            unfold Context.lookup at h
            cases hv : outer.value? u.name with
            | none => rfl
            | some v =>
              rw [hv] at h
              cases h

/-- Alternatives that say the same say the same together. -/
theorem matches_disjoin {firm : Prop} (hcs : List.Forall₂ Candidates.Same cs ds) :
    Result.Matches firm Candidates.Same (u.disjoin outer cs) (u.disjoin outer ds) := by
  obtain ⟨h, h'⟩ := Candidates.within_of_forall₂ hcs
  intro b hb
  have joins := joins_of_disjoin hb
  refine ⟨fun _ => ?_, fun a ha => (joins_of_disjoin ha).same joins h h'⟩
  cases ha : u.disjoin outer cs with
  | ok a => exact ⟨a, rfl⟩
  | error err =>
    obtain ⟨hform, hcon, hun, ⟨v, hv⟩, hnone⟩ := of_disjoin_eq_error ha
    exact absurd hnone (joins.kept hform (fun hc => hcon (h'.constrained hc)) (h.unmentioned hun)
      ⟨v, h.listed hv⟩)

end Unknown

end ActionSystem
