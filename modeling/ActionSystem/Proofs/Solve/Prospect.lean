import ActionSystem.Proofs.Solve.Combination
import ActionSystem.Proofs.Solve.Framing
import ActionSystem.Proofs.Solve.Ordering

/-!
# Prospects of a variable

What inference may answer for a variable can be foreseen from the text of a relation, as far as it
does not hang on values, and so can the variables that it needs to know for that. Both follow
inference through the connectives. What is needed is not always among the dependencies by which the
variables are ordered: these miss the premises of implications and the surroundings of frames.
-/

namespace ActionSystem

/-- The answers that inference may give for a variable, besides that the expression is false. -/
structure Prospect where
  /-- A list of values. -/
  lists : Bool
  /-- That the expression does not look at the variable. -/
  skips : Bool
  /-- That there is no list of values, even if all that the variable needs is known. -/
  hangs : Bool
deriving DecidableEq

namespace Prospect

def silent : Prospect := ⟨false, true, false⟩

/-- An equation, membership or frame, which is a source of values or is none. -/
def ofSource (source : Bool) : Prospect := ⟨source, false, !source⟩

def isSure (a : Prospect) : Bool := a.lists && !a.skips && !a.hangs

def both (a b : Prospect) : Prospect where
  lists := a.lists || b.lists
  skips := a.skips && b.skips
  hangs := a.hangs && !b.isSure || b.hangs && !a.isSure

/-- What several alternatives may say that have the same prospect each. In an initial state lists
do not go with alternatives that do not look at the variable. -/
def among (form : Form) (a : Prospect) : Prospect :=
  { a with hangs := a.hangs || form = .unprimed && a.lists && a.skips }

def either (form : Form) (a b : Prospect) : Prospect :=
  among form ⟨a.lists || b.lists, a.skips || b.skips, a.hangs || b.hangs⟩

def behind (blocked : Bool) (a : Prospect) : Prospect := if blocked then ofSource false else a

/-- Inference always has values for the variable to go on with, or it never has. -/
def isDecided (form : Form) (a : Prospect) : Bool :=
  !a.hangs && (form = .primed || !a.skips) || !a.lists && (form = .unprimed || !a.skips)

/-! ## Answers that are foreseen -/

/-- That there is no list of values has to be foreseen only if all that the variable needs is
`known`. -/
def Allows (a : Prospect) (known : Prop) : Candidates → Prop
  | .disabled => True
  | .unmentioned => a.skips = true
  | .constrained => known → a.hangs = true
  | .values _ => a.lists = true

variable {a b : Prospect} {known : Prop} {form : Form} {r r' : Candidates} {cs : List Candidates}

theorem Allows.mono (h : a.Allows known r) (lists : a.lists = true → b.lists = true)
    (skips : a.skips = true → b.skips = true) (hangs : a.hangs = true → b.hangs = true) :
    b.Allows known r := by
  cases r with
  | disabled => trivial
  | unmentioned => exact skips h
  | constrained => exact fun hk => hangs (h hk)
  | values vs => exact lists h

theorem Allows.both (ha : a.Allows known r) (hb : b.Allows known r') :
    (a.both b).Allows known (r.conjoin r') := by
  cases r with
  | disabled => trivial
  | unmentioned =>
    have hskips : a.skips = true := ha
    cases r' with
    | disabled => trivial
    | unmentioned =>
      have hskips' : b.skips = true := hb
      simp [Candidates.conjoin, Allows, Prospect.both, hskips, hskips']
    | constrained =>
      intro hk
      simp [Prospect.both, isSure, hskips, hb hk]
    | values ws =>
      have hlists : b.lists = true := hb
      simp [Candidates.conjoin, Allows, Prospect.both, hlists]
  | constrained =>
    cases r' with
    | disabled => trivial
    | unmentioned =>
      have hskips : b.skips = true := hb
      intro hk
      simp [Prospect.both, isSure, hskips, ha hk]
    | constrained =>
      intro hk
      simp [Prospect.both, isSure, ha hk, hb hk]
    | values ws =>
      have hlists : b.lists = true := hb
      simp [Candidates.conjoin, Allows, Prospect.both, hlists]
  | values vs =>
    have hlists : a.lists = true := ha
    cases r' with
    | disabled => trivial
    | _ => simp [Candidates.conjoin, Allows, Prospect.both, hlists]

-- Conditions that are joined one after the other are together what each may be, or nothing.
theorem Allows.foldl_conjoin (hr : { a with skips := true }.Allows known r)
    (h : ∀ c ∈ cs, a.Allows known c) :
    { a with skips := true }.Allows known (cs.foldl .conjoin r) := by
  induction cs generalizing r with
  | nil => exact hr
  | cons c cs ih =>
    obtain ⟨hc, hcs⟩ := List.forall_mem_cons.mp h
    refine ih ((hr.both hc).mono ?_ (fun _ => rfl) ?_) hcs
    · simp [Prospect.both]
    · show (a.hangs && !a.isSure || a.hangs && _) = true → a.hangs = true
      cases a.hangs <;> simp

-- What several alternatives say is foreseen by what each of them may say.
theorem allows_of_disjoin {u : Unknown} {outer : Context} (h : ∀ c ∈ cs, a.Allows known c)
    (joined : u.disjoin outer cs = .ok r) : (a.among u.form).Allows known r := by
  have joins := Unknown.joins_of_disjoin joined
  cases r with
  | disabled => trivial
  | unmentioned =>
    obtain ⟨-, hun, -⟩ := joins.unmentioned.mp rfl
    exact h _ hun
  | values vs =>
    obtain ⟨ws, hws⟩ := Unknown.exists_values_of_disjoin joined
    exact h _ hws
  | constrained =>
    intro hk
    rcases joins.constrained.mp rfl with hcon | ⟨hform, hun, v, hv⟩
    · have hhangs : a.hangs = true := h _ hcon hk
      simp [among, hhangs]
    · obtain ⟨ws, hws, -⟩ := hv.exists_values
      have hskips : a.skips = true := h _ hun
      have hlists : a.lists = true := h _ hws
      simp [among, hform, hlists, hskips]

theorem allows_either_of_disjoin {u : Unknown} {outer : Context} {d : Candidates}
    (ha : a.Allows known r) (hb : b.Allows known r')
    (joined : u.disjoin outer [r, r'] = .ok d) : (a.either u.form b).Allows known d := by
  refine allows_of_disjoin (fun c hc => ?_) joined
  simp only [List.mem_cons, List.not_mem_nil, or_false] at hc
  rcases hc with rfl | rfl
  · exact ha.mono (by simp +contextual) (by simp +contextual) (by simp +contextual)
  · exact hb.mono (by simp +contextual) (by simp +contextual) (by simp +contextual)

-- One of two alternatives may be all there is.
theorem Allows.either_left (h : a.Allows known r) : (a.either form b).Allows known r :=
  h.mono (by simp +contextual [either, among]) (by simp +contextual [either, among])
    (by simp +contextual [either, among])

theorem Allows.either_right (h : b.Allows known r) : (a.either form b).Allows known r :=
  h.mono (by simp +contextual [either, among]) (by simp +contextual [either, among])
    (by simp +contextual [either, among])

/-! ## Prospects without an end -/

@[simp] theorem silent_both : (silent.both a).hangs = a.hangs := by
  simp [both, silent, isSure]

@[simp] theorem both_silent : (a.both silent).hangs = a.hangs := by
  simp [both, silent, isSure]

theorem hangs_both (h : (a.both b).hangs = false) : a.hangs = false ∨ b.hangs = false := by
  simp only [both, isSure] at h
  revert h
  cases a.hangs <;> cases b.hangs <;> simp

theorem hangs_either (h : (a.either form b).hangs = false) :
    a.hangs = false ∧ b.hangs = false := by
  simp only [either, among, Bool.or_eq_false_iff] at h
  exact h.1

theorem hangs_behind {blocked : Bool} (h : (a.behind blocked).hangs = false) :
    blocked = false ∧ a.hangs = false := by
  cases blocked with
  | true => cases h
  | false => exact ⟨rfl, h⟩

-- A prospect is open if there may be values to go on with, and there may be none.
theorem not_isDecided (values : a.lists = true ∨ form = .primed ∧ a.skips = true)
    (none : a.hangs = true ∨ form = .unprimed ∧ a.skips = true) : ¬ a.isDecided form = true := by
  simp only [isDecided]
  revert values none
  cases form <;> cases a.lists <;> cases a.skips <;> cases a.hangs <;> decide

end Prospect

/-! ## Prospects of expressions -/

/-- The names that inference looks for in one form. A frame condition counts in both forms, whether
or not binders take its names. -/
def Reference.sought : Form → Reference → List String
  | .unprimed, name x | .primed, primed x => [x]
  | .unprimed, primed _ | .primed, name _ => []
  | _, frame xs _ => xs

namespace Expr

section

variable (vars : List String) (form : Form) (p : Nat) (bound : List String)

def soughtIn (e : Expr) : List Nat :=
  ((e.references bound).flatMap (·.sought form)).filterMap (position? vars)

def seeks (e : Expr) : Bool := (e.soughtIn vars form bound).contains p

def isVariable (e : Expr) : Bool := target? vars form bound e = some p

def isSource (side other : Expr) : Bool :=
  side.isVariable vars form p bound && !other.seeks vars form p bound

end

/-- What inference may answer for the variable declared at a position. -/
def prospect (vars : List String) (form : Form) (p : Nat) (e : Expr) (bound : List String) :
    Prospect :=
  if e.seeks vars form p bound then
    match e with
    | binary _ .eq l r =>
      .ofSource (l.isSource vars form p bound r || r.isSource vars form p bound l)
    | binary _ .mem l r => .ofSource (l.isSource vars form p bound r)
    | unchanged _ _ => .ofSource (form = .primed)
    | logical _ .and l r => (prospect vars form p l bound).both (prospect vars form p r bound)
    | logical _ .or l r => (prospect vars form p l bound).either form (prospect vars form p r bound)
    | logical _ .implies l r =>
      { prospect vars form p r bound with skips := true }.behind (l.seeks vars form p bound)
    | ite _ _ y n => (prospect vars form p y bound).either form (prospect vars form p n bound)
    | bind _ .any x d body =>
      ((prospect vars form p body (x :: bound)).among form).behind (d.seeks vars form p bound)
    | bind _ .all x d body =>
      { prospect vars form p body (x :: bound) with skips := true }.behind
        (d.seeks vars form p bound)
    | letIn _ x v body =>
      (prospect vars form p body (x :: bound)).behind (v.seeks vars form p bound)
    | _ => .ofSource false
  else .silent
termination_by structural e

/-! ## What inference needs -/

/-- If `side` is a variable, its values need what `other` refers to and the `context`. -/
def neededBy (vars : List String) (form : Form) (bound : List String) (context : List Nat)
    (side other : Expr) : List Dependency :=
  match target? vars form bound side with
  | some v => (soughtIn vars form bound other ++ context).map fun w => (v, w)
  | none => []

/-- What inference has to know of other variables to answer for one. `context` holds the variables
that the premises, domains and local definitions around the expression refer to. -/
def needs (vars : List String) (form : Form) : Expr → List String → List Nat → List Dependency
  | binary _ .eq l r, bound, context =>
    neededBy vars form bound context l r ++ neededBy vars form bound context r l
  | binary _ .mem l r, bound, context => neededBy vars form bound context l r
  | unchanged s xs, bound, context => (soughtIn vars form bound (unchanged s xs)).product context
  | logical _ .implies l r, bound, context =>
    needs vars form r bound (soughtIn vars form bound l ++ context)
  | logical _ _ l r, bound, context =>
    needs vars form l bound context ++ needs vars form r bound context
  | ite _ q y n, bound, context =>
    (soughtIn vars form bound q).product context ++
      (needs vars form y bound context ++ needs vars form n bound context)
  | bind _ .all x d e, bound, context | bind _ .any x d e, bound, context
  | letIn _ x d e, bound, context =>
    needs vars form e (x :: bound) (soughtIn vars form bound d ++ context)
  | _, _, _ => []

/-- Inference needs the second variable for the first one, but it is not among the dependencies by
which the variables are ordered. -/
def Missed (vars : List String) (form : Form) (e : Expr) (v w : Nat) : Prop :=
  DependsOn (needs vars form e [] []) v w ∧ ¬ DependsOn (dependencies vars form e [] []) v w

instance (vars : List String) (form : Form) (e : Expr) (v w : Nat) :
    Decidable (Missed vars form e v w) :=
  inferInstanceAs (Decidable (_ ∧ _))

variable {vars : List String} {form : Form} {p : Nat} {bound : List String} {e : Expr}

theorem seeks_iff : e.seeks vars form p bound = true ↔ p ∈ e.soughtIn vars form bound :=
  List.contains_iff_mem

-- An expression that refers to what two others refer to seeks what they seek.
theorem seeks_append {l r : Expr} {bound' : List String}
    (h : e.references bound = l.references bound ++ r.references bound') :
    e.seeks vars form p bound = (l.seeks vars form p bound || r.seeks vars form p bound') := by
  rw [Bool.eq_iff_iff, Bool.or_eq_true, seeks_iff, seeks_iff, seeks_iff, soughtIn, h,
    List.flatMap_append, List.filterMap_append, List.mem_append]
  rfl

theorem prospect_of_seeks_eq_false (h : e.seeks vars form p bound = false) :
    e.prospect vars form p bound = .silent := by
  unfold prospect
  rw [h, if_neg Bool.false_ne_true]

-- A variable on one side needs everything around the equation or membership.
theorem mem_neededBy {side other : Expr} {context : List Nat} {w : Nat}
    (h : side.isVariable vars form p bound = true)
    (hw : w ∈ soughtIn vars form bound other ∨ w ∈ context) :
    (p, w) ∈ neededBy vars form bound context side other := by
  rw [neededBy, of_decide_eq_true h]
  exact List.mem_map_of_mem (List.mem_append.mpr hw)

-- Of two conditions that together always have an answer, one that seeks the variable has.
theorem hangs_of_both {l r : Expr}
    (seeks : (l.seeks vars form p bound || r.seeks vars form p bound) = true)
    (hangs : ((l.prospect vars form p bound).both (r.prospect vars form p bound)).hangs = false) :
    l.seeks vars form p bound = true ∧ (l.prospect vars form p bound).hangs = false ∨
      r.seeks vars form p bound = true ∧ (r.prospect vars form p bound).hangs = false := by
  cases hl : l.seeks vars form p bound with
  | false =>
    rw [prospect_of_seeks_eq_false hl, Prospect.silent_both] at hangs
    rw [hl, Bool.false_or] at seeks
    exact .inr ⟨seeks, hangs⟩
  | true =>
    cases hr : r.seeks vars form p bound with
    | false =>
      rw [prospect_of_seeks_eq_false hr, Prospect.both_silent] at hangs
      exact .inl ⟨rfl, hangs⟩
    | true => exact (Prospect.hangs_both hangs).imp (⟨rfl, ·⟩) (⟨rfl, ·⟩)

/-- A variable that is referred to and may always be given an answer needs the premises, domains and
local definitions around the expression. -/
theorem mem_needs {context : List Nat} {w : Nat} (seeks : e.seeks vars form p bound = true)
    (hangs : (e.prospect vars form p bound).hangs = false) (hw : w ∈ context) :
    (p, w) ∈ needs vars form e bound context := by
  induction e using of_parts generalizing bound context with
  | step e ih =>
    unfold prospect at hangs
    rw [if_pos seeks] at hangs
    have around (l : List Nat) : w ∈ l ++ context := List.mem_append_right l hw
    split at hangs
    · next s l r =>
      simp only [Prospect.ofSource, Bool.not_eq_false', Bool.or_eq_true, isSource,
        Bool.and_eq_true] at hangs
      rcases hangs with ⟨hside, -⟩ | ⟨hside, -⟩
      · exact List.mem_append_left _ (mem_neededBy hside (.inr hw))
      · exact List.mem_append_right _ (mem_neededBy hside (.inr hw))
    · next s l r =>
      simp only [Prospect.ofSource, Bool.not_eq_false', isSource, Bool.and_eq_true] at hangs
      exact mem_neededBy hangs.1 (.inr hw)
    · next s xs => exact List.pair_mem_product.mpr ⟨seeks_iff.mp seeks, hw⟩
    · next s l r =>
      rw [seeks_append rfl] at seeks
      rcases hangs_of_both seeks hangs with ⟨hs, hh⟩ | ⟨hs, hh⟩
      · exact List.mem_append_left _ (ih l (by simp [parts]) hs hh hw)
      · exact List.mem_append_right _ (ih r (by simp [parts]) hs hh hw)
    · next s l r =>
      rw [seeks_append rfl, Bool.or_eq_true] at seeks
      obtain ⟨hl, hr⟩ := Prospect.hangs_either hangs
      rcases seeks with hs | hs
      · exact List.mem_append_left _ (ih l (by simp [parts]) hs hl hw)
      · exact List.mem_append_right _ (ih r (by simp [parts]) hs hr hw)
    · next s l r =>
      obtain ⟨hfree, hh⟩ := Prospect.hangs_behind hangs
      rw [seeks_append rfl, hfree, Bool.false_or] at seeks
      exact ih r (by simp [parts]) seeks hh (around _)
    · next s q y n =>
      obtain ⟨hy, hn⟩ := Prospect.hangs_either hangs
      have hchoice : (logical s .or y n).seeks vars form p bound =
        (y.seeks vars form p bound || n.seeks vars form p bound) := seeks_append rfl
      rw [seeks_append (l := q) (r := logical s .or y n) rfl, hchoice, Bool.or_eq_true,
        Bool.or_eq_true] at seeks
      rcases seeks with hs | hs | hs
      · exact List.mem_append_left _ (List.pair_mem_product.mpr ⟨seeks_iff.mp hs, hw⟩)
      · have hmem := ih y (by simp [parts]) hs hy hw
        exact List.mem_append_right _ (List.mem_append_left _ hmem)
      · have hmem := ih n (by simp [parts]) hs hn hw
        exact List.mem_append_right _ (List.mem_append_right _ hmem)
    · next s x d body =>
      obtain ⟨hfree, hh⟩ := Prospect.hangs_behind hangs
      rw [seeks_append rfl, hfree, Bool.false_or] at seeks
      exact ih body (by simp [parts]) seeks (Bool.or_eq_false_iff.mp hh).1 (around _)
    · next s x d body =>
      obtain ⟨hfree, hh⟩ := Prospect.hangs_behind hangs
      rw [seeks_append rfl, hfree, Bool.false_or] at seeks
      exact ih body (by simp [parts]) seeks hh (around _)
    · next s x v body =>
      obtain ⟨hfree, hh⟩ := Prospect.hangs_behind hangs
      rw [seeks_append rfl, hfree, Bool.false_or] at seeks
      exact ih body (by simp [parts]) seeks hh (around _)
    · cases hangs

end Expr

end ActionSystem
