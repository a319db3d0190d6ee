/-!
# Answers

The answers to a question, one after the other, each found only when it is asked for. A run of
answers ends, or breaks off with an error; after either there are no more.
-/

namespace ActionSystem

/-- Answers of type `α`, found on demand, with an error of type `ε` at most at the end. -/
inductive Answers (ε α : Type) where
  | done
  | fail (e : ε)
  | yield (a : α) (rest : Unit → Answers ε α)

namespace Answers

variable {ε α β : Type}

def only (a : α) : Answers ε α := yield a fun _ => done

def ofOption? : Except ε (Option α) → Answers ε α
  | .error e => fail e
  | .ok none => done
  | .ok (some a) => only a

def append : Answers ε α → (Unit → Answers ε α) → Answers ε α
  | done, more => more ()
  | fail e, _ => fail e
  | yield a rest, more => yield a fun _ => append (rest ()) more

def forEach (answers : β → Answers ε α) : List β → Answers ε α
  | [] => done
  | b :: bs => (answers b).append fun _ => forEach answers bs

def toList : Answers ε α → List α × Option ε
  | done => ([], none)
  | fail e => ([], some e)
  | yield a rest => (a :: (toList (rest ())).1, (toList (rest ())).2)

/-- Collect all answers behind those collected, which are held in reverse. -/
def collectOnto (found : List α) : Answers ε α → Except ε (List α)
  | done => .ok found.reverse
  | fail e => .error e
  | yield a rest => collectOnto (a :: found) (rest ())

def collect (s : Answers ε α) : Except ε (List α) := collectOnto [] s

/-- Whether there is an answer, as far as the first one tells. -/
def hasAny : Answers ε α → Except ε Bool
  | done => .ok false
  | fail e => .error e
  | yield _ _ => .ok true

/-- Ask `n` times. Each time gives an answer, the error that ends the answers, or nothing. -/
def ask : Nat → (Unit → Answers ε α) → List (Option (Except ε α))
  | 0, _ => []
  | n + 1, s =>
    match s () with
    | done => none :: ask n fun _ => done
    | fail e => some (.error e) :: ask n fun _ => done
    | yield a rest => some (.ok a) :: ask n rest

/-! ## As lists -/

@[simp] theorem toList_only (a : α) : (only a : Answers ε α).toList = ([a], none) := rfl

-- The further answers count only if no error came before.
theorem toList_append (s : Answers ε α) (more : Unit → Answers ε α) :
    (s.append more).toList =
      match s.toList with
      | (as, some e) => (as, some e)
      | (as, none) => (as ++ (more ()).toList.1, (more ()).toList.2) := by
  induction s with
  | done => simp [append, toList]
  | fail e => simp [append, toList]
  | yield a rest ih =>
    simp only [append, toList, ih]
    rcases toList (rest ()) with ⟨as, _ | e⟩ <;> rfl

theorem collectOnto_eq (s : Answers ε α) (found : List α) :
    s.collectOnto found =
      match s.toList with
      | (_, some e) => .error e
      | (as, none) => .ok (found.reverse ++ as) := by
  induction s generalizing found with
  | done => simp [collectOnto, toList]
  | fail e => simp [collectOnto, toList]
  | yield a rest ih =>
    simp only [collectOnto, ih, toList]
    rcases toList (rest ()) with ⟨as, _ | e⟩ <;> simp

/-- Collecting gives all answers if no error ends them, else that error. -/
theorem collect_eq (s : Answers ε α) :
    s.collect = match s.toList with
      | (_, some e) => .error e
      | (as, none) => .ok as := by
  simp only [collect, collectOnto_eq, List.reverse_nil, List.nil_append]

end Answers

end ActionSystem
