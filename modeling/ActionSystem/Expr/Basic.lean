import ActionSystem.Span

/-!
# Expressions

The expressions of a specification. A name stands for a local binder, a variable of the current
state or a constant; a primed name stands for a variable of the next state. Every expression
carries the span where it stands.
-/

namespace ActionSystem

/-- Connectives whose right operand is looked at only if the left one leaves the result open. -/
inductive Connective where
  | and | or | implies
deriving DecidableEq

inductive BinaryOp where
  | iff
  | eq | ne | lt | le | gt | ge
  | add | sub | mul | div | mod
  | mem | notMem | union | inter | diff | subsetEq
  | concat
deriving DecidableEq

inductive UnaryOp where
  | not | neg
  | domain | cardinality | len | head | tail | powerset | bigUnion
deriving DecidableEq

/-- What is made of the values of a body under a binder. -/
inductive Binder where
  /-- A function, `[x \in D |-> e]`. -/
  | function
  /-- Universal quantification, `\A x \in D : P`. -/
  | all
  /-- Existential quantification, `\E x \in D : P`. -/
  | any
  /-- The first element with a property, `CHOOSE x \in D : P`. -/
  | choose
  /-- The elements `x` of `D` with `P`. -/
  | filter
  /-- The values of `e` for the `x` of `D`. -/
  | image
deriving DecidableEq

inductive Literal where
  | bool (b : Bool)
  | int (n : Int64)
  | str (s : String)
deriving DecidableEq

inductive Expr where
  | literal (span : Span) (l : Literal)
  | name (span : Span) (x : String)
  /-- The value of a variable in the next state. -/
  | primed (span : Span) (x : String)
  /-- A frame condition, `UNCHANGED <<x, y>>`. -/
  | unchanged (span : Span) (names : List String)
  | unary (span : Span) (op : UnaryOp) (operand : Expr)
  | logical (span : Span) (op : Connective) (left right : Expr)
  | binary (span : Span) (op : BinaryOp) (left right : Expr)
  /-- The integers of an interval, `lo..hi`. -/
  | range (span : Span) (lo hi : Expr)
  | set (span : Span) (elements : List Expr)
  | seq (span : Span) (items : List Expr)
  | record (span : Span) (fields : List (String × Expr))
  /-- A function or sequence at an argument, `f[arg]`. -/
  | apply (span : Span) (f arg : Expr)
  /-- A field of a record, `r.field`. -/
  | field (span : Span) (r : Expr) (field : String)
  /-- A function changed at one key, `[f EXCEPT ![key] = value]`. -/
  | except (span : Span) (f key value : Expr)
  | append (span : Span) (s x : Expr)
  | bind (span : Span) (binder : Binder) (x : String) (domain body : Expr)
  /-- A local definition, `LET x == value IN body`. -/
  | letIn (span : Span) (x : String) (value body : Expr)
  | ite (span : Span) (cond yes no : Expr)

/-! ## Symbols -/

namespace Connective

def symbol : Connective → String
  | and => "/\\"
  | or => "\\/"
  | implies => "=>"

end Connective

namespace BinaryOp

def symbol : BinaryOp → String
  | iff => "<=>"
  | eq => "="
  | ne => "/="
  | lt => "<"
  | le => "<="
  | gt => ">"
  | ge => ">="
  | add => "+"
  | sub => "-"
  | mul => "*"
  | div => "\\div"
  | mod => "%"
  | mem => "\\in"
  | notMem => "\\notin"
  | union => "\\union"
  | inter => "\\intersect"
  | diff => "\\"
  | subsetEq => "\\subseteq"
  | concat => "\\o"

/-- Equivalence combines truth values, as the connectives do. -/
def isLogical (op : BinaryOp) : Bool := op = .iff

end BinaryOp

namespace UnaryOp

def symbol : UnaryOp → String
  | not => "~"
  | neg => "-"
  | domain => "DOMAIN"
  | cardinality => "Cardinality"
  | len => "Len"
  | head => "Head"
  | tail => "Tail"
  | powerset => "SUBSET"
  | bigUnion => "UNION"

end UnaryOp

namespace Expr

/-! ## Spans -/

def span : Expr → Span
  | literal s _ | name s _ | primed s _ | unchanged s _ | unary s _ _ | logical s _ _ _
  | binary s _ _ _ | range s _ _ | set s _ | seq s _ | record s _ | apply s _ _ | field s _ _
  | except s _ _ _ | append s _ _ | bind s _ _ _ _ | letIn s _ _ _ | ite s _ _ _ => s

def withSpan (s : Span) : Expr → Expr
  | literal _ l => literal s l
  | name _ x => name s x
  | primed _ x => primed s x
  | unchanged _ xs => unchanged s xs
  | unary _ op e => unary s op e
  | logical _ op l r => logical s op l r
  | binary _ op l r => binary s op l r
  | range _ lo hi => range s lo hi
  | set _ es => set s es
  | seq _ es => seq s es
  | record _ fs => record s fs
  | apply _ f a => apply s f a
  | field _ r x => field s r x
  | except _ f k v => except s f k v
  | append _ q x => append s q x
  | bind _ b x d e => bind s b x d e
  | letIn _ x v e => letIn s x v e
  | ite _ c t e => ite s c t e

@[simp] theorem span_withSpan (s : Span) (e : Expr) : (e.withSpan s).span = s := by
  cases e <;> rfl

/-! ## Parts -/

/-- The immediate parts of an expression, in the order in which they are evaluated. -/
def parts : Expr → List Expr
  | literal _ _ | name _ _ | primed _ _ | unchanged _ _ => []
  | unary _ _ e | field _ e _ => [e]
  | logical _ _ l r | binary _ _ l r | range _ l r | apply _ l r | append _ l r => [l, r]
  | set _ es | seq _ es => es
  | record _ fs => fs.map (·.2)
  | except _ f k v => [f, k, v]
  | bind _ _ _ d e => [d, e]
  | letIn _ _ v e => [v, e]
  | ite _ c t e => [c, t, e]

inductive Occurs (a : Expr) : Expr → Prop where
  | here : Occurs a a
  | inside {e p : Expr} (part : p ∈ e.parts) (occurs : Occurs a p) : Occurs a e

mutual

/-- What passes from the parts of an expression to the expression holds of every expression. -/
theorem of_parts {P : Expr → Prop} (step : ∀ e, (∀ p ∈ e.parts, P p) → P e) : (e : Expr) → P e
  | literal s l => step _ (by simp [parts])
  | name s x => step _ (by simp [parts])
  | primed s x => step _ (by simp [parts])
  | unchanged s xs => step _ (by simp [parts])
  | unary s op e => step _ (by simpa [parts] using of_parts step e)
  | logical s op l r => step _ (by simpa [parts] using ⟨of_parts step l, of_parts step r⟩)
  | binary s op l r => step _ (by simpa [parts] using ⟨of_parts step l, of_parts step r⟩)
  | range s l r => step _ (by simpa [parts] using ⟨of_parts step l, of_parts step r⟩)
  | set s es => step _ (of_parts_list step es)
  | seq s es => step _ (of_parts_list step es)
  | record s fs => step _ (of_parts_fields step fs)
  | apply s f a => step _ (by simpa [parts] using ⟨of_parts step f, of_parts step a⟩)
  | field s r x => step _ (by simpa [parts] using of_parts step r)
  | except s f k v =>
    step _ (by simpa [parts] using ⟨of_parts step f, of_parts step k, of_parts step v⟩)
  | append s q x => step _ (by simpa [parts] using ⟨of_parts step q, of_parts step x⟩)
  | bind s b x d e => step _ (by simpa [parts] using ⟨of_parts step d, of_parts step e⟩)
  | letIn s x v e => step _ (by simpa [parts] using ⟨of_parts step v, of_parts step e⟩)
  | ite s c t e =>
    step _ (by simpa [parts] using ⟨of_parts step c, of_parts step t, of_parts step e⟩)

theorem of_parts_list {P : Expr → Prop} (step : ∀ e, (∀ p ∈ e.parts, P p) → P e) :
    (es : List Expr) → ∀ p ∈ es, P p
  | [] => by simp
  | e :: es => by simpa using ⟨of_parts step e, of_parts_list step es⟩

theorem of_parts_fields {P : Expr → Prop} (step : ∀ e, (∀ p ∈ e.parts, P p) → P e) :
    (fs : List (String × Expr)) → ∀ p ∈ fs.map (·.2), P p
  | [] => by simp
  | (_, e) :: fs => by
    simp only [List.map_cons, List.mem_cons, forall_eq_or_imp]
    exact ⟨of_parts step e, of_parts_fields step fs⟩

end

/-! ## Construction -/

def truth (b : Bool) : Expr := literal .none (.bool b)

/-- Combine a list of conditions to the right; the empty list gives the truth value `unit`. -/
def combine (op : Connective) (unit : Bool) : List Expr → Expr
  | [] => truth unit
  | [e] => e
  | e :: es => logical .none op e (combine op unit es)

def conj (es : List Expr) : Expr := combine .and true es

def disj (es : List Expr) : Expr := combine .or false es

end Expr

end ActionSystem
