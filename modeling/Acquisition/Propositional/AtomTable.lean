import Acquisition.Propositional.Literal

/-!
# The table of atoms

Each constraint of an acquisition, and its negation, is given an atom before
anything is learnt. The table keeps the positive literal of each constraint in
the order in which they were given, and a constraint keeps the atom it has.
-/
namespace Acquisition

structure AtomTable where
  entries : List (ConstraintId × Literal) := []
deriving DecidableEq, Repr

namespace AtomTable

instance : Inhabited AtomTable := ⟨{}⟩

def contains (T : AtomTable) (c : ConstraintId) : Bool := (T.entries.lookup c).isSome

/-- The positive literal of a constraint. -/
def literal (T : AtomTable) (c : ConstraintId) : Except ErrorKind Literal :=
  match T.entries.lookup c with
  | some l => .ok l
  | none => .error (.missing c)

/-- Gives a constraint its positive literal. A constraint has only one. -/
def add (T : AtomTable) (c : ConstraintId) (l : Literal) : Except Failure AtomTable :=
  if l.negated then .error (.fault .negatedLiteral)
  else if l.constraint ≠ c then .error (.fault .foreignLiteral)
  else if T.contains c then .error (.error (.doubleRegistration c))
  else .ok ⟨T.entries ++ [(c, l)]⟩

def size (T : AtomTable) : Nat := T.entries.length

def isEmpty (T : AtomTable) : Bool := T.entries.isEmpty

def literals (T : AtomTable) : List Literal := T.entries.map (·.2)

/-- The literals in increasing order. -/
def sorted (T : AtomTable) : List Literal := T.literals.mergeSort fun a b => !decide (b < a)

/-- The constraint that an atom stands for. -/
def constraintOf? (T : AtomTable) (a : Atom) : Option ConstraintId :=
  (T.literals.find? (·.atom == a)).map (·.constraint)

end AtomTable

end Acquisition
