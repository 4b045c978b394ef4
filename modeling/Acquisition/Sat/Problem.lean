import Acquisition.Checked
import Acquisition.Propositional.Formula

/-!
# Problems of propositional search

A formula is laid out as its clauses, its window, its objective and its atoms in
increasing order. A partial assignment is extended by what it forces:

* a clause in which every literal but one fails forces that literal, and one in
  which every literal fails is a conflict;
* the window forces its open literals to fail once enough of them hold, and to
  hold once all of them are needed.

The window is counted, and no clauses are added for it.
-/
namespace Acquisition.Sat

/-- Truth values of atoms, some of which are open. -/
structure Assignment where
  values : Array (Option Bool)

namespace Assignment

/-- All of the first `n` atoms are open. -/
def allOpen (n : Nat) : Assignment := ⟨Array.replicate n none⟩

def value (m : Assignment) (a : Atom) : Option Bool := m.values.getD a none

def assign (m : Assignment) (a : Atom) (b : Bool) : Assignment :=
  ⟨m.values.setIfInBounds a (some b)⟩

/-- The truth value of a literal. -/
def literal (m : Assignment) (l : Literal) : Option Bool := (m.value l.atom).map (· != l.negated)

/-- Whether a literal is true. -/
def holds (m : Assignment) (l : Literal) : Bool := match m.value l.atom with
  | some b => b != l.negated
  | none => false

def isOpen (m : Assignment) (l : Literal) : Bool := (m.value l.atom).isNone

/-- Makes a literal hold. -/
def satisfy (m : Assignment) (l : Literal) : Assignment := m.assign l.atom (!l.negated)

theorem value_assign {m : Assignment} {a : Atom} (h : a < m.values.size) (b : Bool) (a' : Atom) :
    (m.assign a b).value a' = if a = a' then some b else m.value a' := by
  simp only [value, assign, Array.getD_eq_getD_getElem?, Array.getElem?_setIfInBounds]
  split <;> simp_all

theorem holds_eq (m : Assignment) (l : Literal) : m.holds l = (m.literal l == some true) := by
  unfold holds literal
  cases m.value l.atom with
  | none => rfl
  | some b => cases b <;> cases l.negated <;> rfl

theorem isOpen_eq (m : Assignment) (l : Literal) : m.isOpen l = (m.literal l == none) := by
  unfold isOpen literal
  cases m.value l.atom <;> rfl

end Assignment

structure Problem where
  clauses : List (List Literal)
  window : Option Window
  objective : List (Literal × Int)
  atoms : List Atom

namespace Problem

/-- The literals of a formula: those of its clauses, of its window, and of its
objective. -/
def literals (F : Formula) : List Literal :=
  F.clauses.flatMap (·.literals) ++
    (match F.window with
      | some w => w.clause.literals
      | none => []) ++
    F.objective.map (·.1)

def ofFormula (F : Formula) : Problem where
  clauses := F.clauses.map (·.literals)
  window := F.window
  objective := F.objective
  atoms := (IndexSet.ofList ((literals F).map (·.atom))).toList

/-- What becomes of an assignment when it is extended by what it forces. -/
inductive Extension
  | conflict
  /-- The assignment reached, and whether it differs from the one before. -/
  | reached (m : Assignment) (changed : Bool)

/-- Extends an assignment by what a clause forces. -/
def extendByClause (m : Assignment) (ls : List Literal) : Extension :=
  if ls.any m.holds then .reached m false
  else match ls.filter m.isOpen with
    | [] => .conflict
    | [l] => .reached (m.satisfy l) true
    | _ => .reached m false

/-- Extends an assignment by what the clauses force, one after the other. -/
def extendByClauses : List (List Literal) → Assignment → Bool → Extension
  | [], m, changed => .reached m changed
  | ls :: rest, m, changed => match extendByClause m ls with
    | .conflict => .conflict
    | .reached m' changed' => extendByClauses rest m' (changed || changed')

/-- Extends an assignment by what a window forces. -/
def extendByWindow (w : Window) (m : Assignment) : Extension :=
  let holding := (w.clause.literals.filter m.holds).length
  let free := w.clause.literals.filter m.isOpen
  if w.upper < holding ∨ holding + free.length < w.lower then .conflict
  else if free.isEmpty then .reached m false
  else if holding = w.upper then
    .reached (free.foldl (fun m l => m.satisfy l.negate) m) true
  else if holding + free.length = w.lower then
    .reached (free.foldl Assignment.satisfy m) true
  else .reached m false

/-- Extends an assignment by one round of what the clauses and the window force. -/
def extend (P : Problem) (m : Assignment) : Extension :=
  match extendByClauses P.clauses m false, P.window with
  | .conflict, _ => .conflict
  | .reached m changed, none => .reached m changed
  | .reached m changed, some w => match extendByWindow w m with
    | .conflict => .conflict
    | .reached m changed' => .reached m (changed || changed')

/-- Extends an assignment until nothing more is forced, or not at all if there is
a conflict. A round that changes the assignment settles an open atom, so there
are no more such rounds than atoms. -/
def close (P : Problem) : Nat → Assignment → Option Assignment
  | 0, m => some m
  | fuel + 1, m => match P.extend m with
    | .conflict => none
    | .reached m true => close P fuel m
    | .reached m false => some m

def propagate (P : Problem) (m : Assignment) : Option Assignment :=
  P.close (m.values.size + 1) m

end Problem

end Acquisition.Sat
