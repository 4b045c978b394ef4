import Acquisition.Backend
import Acquisition.Sat.Search

/-!
# The propositional backend

The atoms allocated so far, each with the constraint that it stands for and a
name, and a search for the best model of a formula over them. A model reports
the constraints of the atoms that are mentioned by the formula and true.
-/
namespace Acquisition.Sat

structure Dpll where
  atoms : Array (ConstraintId × String) := #[]
  limit : Limit := .unbounded
  timedOut : Bool := false

namespace Dpll

instance : Inhabited Dpll := ⟨{}⟩

/-- The name under which an atom was allocated. -/
def name? (D : Dpll) (a : Atom) : Option String := (D.atoms[a]?).map (·.2)

def allocate (c : ConstraintId) (name : String) : Action Dpll Literal := do
  let D ← get
  set { D with atoms := D.atoms.push (c, name) }
  return { atom := D.atoms.size, constraint := c }

/-- The constraints of the atoms that are true. -/
def model (D : Dpll) (P : Problem) (m : Assignment) : Model :=
  (P.atoms.filter (m.value · == some true)).filterMap fun a => (D.atoms[a]?).map (·.1)

/-- The first literal of an atom that was never allocated. -/
def unknown? (D : Dpll) (F : Formula) : Option Literal :=
  (Problem.literals F).find? fun l => D.atoms.size ≤ l.atom

def solve (F : Formula) : Action Dpll (Option Model) := do
  modify ({ · with timedOut := false })
  let D ← get
  if let some l := D.unknown? F then Action.fail (.unknownAtom l.atom)
  let P := Problem.ofFormula F
  if P.clauses.any (·.isEmpty) then return none
  if D.limit.isPassed then
    modify ({ · with timedOut := true })
    Action.fail .backendTimeout
  let best ← Action.ofChecked (P.best D.atoms.size)
  return best.map fun b => D.model P b.1

def setLimit (l : Limit) : Action Dpll Unit := modify ({ · with limit := l })

/-- The backend on its own states. -/
def backend : SatBackend Dpll where
  allocate := allocate
  solve := solve
  setLimit := setLimit
  timedOut := (·.timedOut)

end Dpll

end Acquisition.Sat
