import ActionSystem.Proofs.Result
import ActionSystem.Solve.Infer
import ActionSystem.Sorted.Lemmas
import ActionSystem.Value.Order

/-!
# What candidates admit

The value that a variable has in a solution is not excluded by the candidates for the variable,
and where they list values, it is in the list. Here is how this passes through conjunctions, and
what a survey of alternatives has seen at its end.
-/

namespace ActionSystem

namespace Candidates

variable {a b : Candidates} {cs : List Candidates} {vs ws : List Value} {v : Option Value}

/-- The candidates allow for a solution in which the variable has the value `v`. Lists of values
count only if they are `exact`. -/
def Admits (exact : Prop) (v : Option Value) : Candidates → Prop
  | disabled => False
  | unmentioned | constrained => True
  | values vs => exact → ∃ w ∈ vs, v = some w

/-! ## Conjunctions -/

theorem Admits.conjoin {exact : Prop} (ha : a.Admits exact v) (hb : b.Admits exact v) :
    (a.conjoin b).Admits exact v := by
  cases a with
  | disabled => exact ha.elim
  | unmentioned => cases b <;> exact hb
  | constrained => cases b <;> exact hb
  | values vs =>
    cases b with
    | disabled => exact hb.elim
    | unmentioned | constrained => exact ha
    | values ws =>
      intro hexact
      obtain ⟨w, hw, hv⟩ := ha hexact
      exact ⟨w, Sorted.mem_union.mpr (.inl hw), hv⟩

-- A conjunction looks at the variable if one side does.
theorem conjoin_eq_unmentioned (h : a.conjoin b = unmentioned) :
    a = unmentioned ∧ b = unmentioned := by
  cases a <;> cases b <;> first | exact ⟨rfl, rfl⟩ | cases h

theorem foldl_conjoin_eq_unmentioned (h : cs.foldl conjoin a = unmentioned) :
    a = unmentioned ∧ ∀ c ∈ cs, c = unmentioned := by
  induction cs generalizing a with
  | nil => exact ⟨h, by simp⟩
  | cons c cs ih =>
    obtain ⟨hac, hcs⟩ := ih h
    obtain ⟨ha, hc⟩ := conjoin_eq_unmentioned hac
    exact ⟨ha, List.forall_mem_cons.mpr ⟨hc, hcs⟩⟩

-- A list of values comes from one side.
theorem conjoin_eq_values (h : a.conjoin b = values vs) :
    (∃ ws, a = values ws) ∨ ∃ ws, b = values ws := by
  cases a with
  | values ws => exact .inl ⟨ws, rfl⟩
  | disabled => cases h
  | unmentioned | constrained =>
    cases b with
    | values ws => exact .inr ⟨ws, rfl⟩
    | _ => cases h

theorem foldl_conjoin_eq_values (h : cs.foldl conjoin a = values vs) :
    (∃ ws, a = values ws) ∨ ∃ c ∈ cs, ∃ ws, c = values ws := by
  induction cs generalizing a vs with
  | nil => exact .inl ⟨vs, h⟩
  | cons c cs ih =>
    rcases ih h with ⟨ws, hac⟩ | ⟨d, hd, hws⟩
    · rcases conjoin_eq_values hac with ha | hc
      · exact .inl ha
      · exact .inr ⟨c, List.mem_cons_self, hc⟩
    · exact .inr ⟨d, List.mem_cons_of_mem _ hd, hws⟩

theorem Admits.foldl_conjoin {exact : Prop} (ha : a.Admits exact v)
    (h : ∀ c ∈ cs, c.Admits exact v) : (cs.foldl Candidates.conjoin a).Admits exact v := by
  induction cs generalizing a with
  | nil => exact ha
  | cons c cs ih =>
    obtain ⟨hc, hcs⟩ := List.forall_mem_cons.mp h
    exact ih (ha.conjoin hc) hcs

/-! ## Alternatives -/

-- What a survey that ends with a list has seen.
theorem survey_eq_listed {live stutter live' stutter' : Bool}
    (h : survey vs live stutter cs = .listed ws live' stutter') :
    (∀ w, w ∈ ws ↔ w ∈ vs ∨ ∃ us, values us ∈ cs ∧ w ∈ us) ∧
      (live' = true ↔ live = true ∨ ∃ c ∈ cs, c ≠ disabled) ∧
      (stutter' = true ↔ stutter = true ∨ unmentioned ∈ cs) ∧ constrained ∉ cs := by
  induction cs generalizing vs live stutter with
  | nil =>
    cases h
    simp
  | cons c cs ih =>
    cases c with
    | constrained => cases h
    | disabled =>
      obtain ⟨hmem, hlive, hstutter, hcon⟩ := ih h
      simp [hmem, hlive, hstutter, hcon]
    | unmentioned =>
      obtain ⟨hmem, hlive, hstutter, hcon⟩ := ih h
      simp [hmem, hlive, hstutter, hcon]
    | values us =>
      obtain ⟨hmem, hlive, hstutter, hcon⟩ := ih h
      refine ⟨fun w => ?_, by simp [hlive], by simp [hstutter], by simp [hcon]⟩
      rw [hmem, Sorted.mem_union]
      simp [or_assoc, or_and_right, exists_or]

theorem mem_of_survey_eq_constrained {live stutter : Bool}
    (h : survey vs live stutter cs = .constrained) : constrained ∈ cs := by
  induction cs generalizing vs live stutter with
  | nil => cases h
  | cons c cs ih =>
    cases c with
    | constrained => exact List.mem_cons_self
    | disabled | unmentioned | values us => exact List.mem_cons_of_mem _ (ih h)

end Candidates

end ActionSystem
