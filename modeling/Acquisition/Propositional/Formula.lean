import Acquisition.Propositional.ClauseStore

/-!
# Formulas

A formula is what a propositional backend is asked about: some clause stores,
all of which must hold; possibly a window on how many literals of a clause hold;
and an objective, a sum of integers over the literals that hold, to be made as
small as can be.

A clause whose literals ought to weigh as much as possible contributes the
negated weight of each literal. When every literal of the objective weighs one,
nothing is left to choose between, and there is no objective.
-/
namespace Acquisition

/-- At least `lower` and at most `upper` literals of the clause hold. -/
structure Window where
  clause : Clause
  lower : Nat
  upper : Nat

structure Formula where
  stores : List ClauseStore := []
  window : Option Window := none
  /-- The clauses whose literals are to weigh as much as possible. -/
  weighed : List Clause := []
  terms : List (Literal × Int) := []

namespace Formula

def empty : Formula := {}

instance : Inhabited Formula := ⟨empty⟩

def addStore (F : Formula) (S : ClauseStore) : Formula := { F with stores := F.stores ++ [S] }

def addClause (F : Formula) (c : Clause) : Formula := F.addStore (ClauseStore.empty.adding c)

def ofStore (S : ClauseStore) : Formula := empty.addStore S

def clauses (F : Formula) : List Clause := F.stores.flatMap (·.clauses)

def setWindow (F : Formula) (window : Window) : Formula := { F with window := some window }

/-- The contribution of a literal to the objective. -/
def term (A : Arena) (l : Literal) : Checked (Literal × Int) := do
  return (l, ← Checked.negateWord (← A.weight l.constraint))

/-- Asks that the literals of a clause that hold weigh as much as possible. -/
def addWeighed (A : Arena) (F : Formula) (c : Clause) : Checked Formula := do
  return { F with terms := F.terms ++ (← c.literals.mapM (term A)), weighed := F.weighed ++ [c] }

/-- The terms to be summed, of which there are none if every literal weighs one. -/
def objective (F : Formula) : List (Literal × Int) :=
  if F.terms.all (·.2 == -1) then [] else F.terms

/-- The stores in brackets, a line for each, and two lines for the window. -/
def render (F : Formula) : String :=
  let stores := "\nand ".intercalate (F.stores.map fun S => "[" ++ S.render ++ "]")
  match F.window with
  | none => stores
  | some w =>
    stores ++ "\natLeast(" ++ w.clause.render ++ ", " ++ toString w.lower ++ ")" ++
      "\natMost(" ++ w.clause.render ++ ", " ++ toString w.upper ++ ")"

end Formula

end Acquisition
