import Acquisition.Constraint.Arena

/-!
# Constraint networks

A network is a set of constraints over a scope of variables. The scope holds
the variables of every constraint that was ever added, and may be wider than
that: a witness of the network gives a value to each variable of the scope.
-/
namespace Acquisition

structure Network where
  scope : IndexSet := .empty
  constraints : IndexSet := .empty
deriving DecidableEq, Repr

namespace Network

instance : Inhabited Network := ⟨{}⟩

/-- The network over a scope, without constraints. -/
def ofScope (scope : IndexSet) : Network := { scope }

/-- Adds a constraint, and its variables to the scope. -/
def add (A : Arena) (N : Network) (c : ConstraintId) : Checked Network := do
  return ⟨N.scope.extend (← A.vars c), N.constraints.insert c⟩

def addAll (A : Arena) (N : Network) (cs : List ConstraintId) : Checked Network :=
  cs.foldlM (add A) N

/-- The network of some constraints over at least `scope`. -/
def ofList (A : Arena) (scope : IndexSet) (cs : List ConstraintId) : Checked Network :=
  (ofScope scope).addAll A cs

def union (N M : Network) : Network :=
  ⟨N.scope.union M.scope, N.constraints.union M.constraints⟩

def remove (N : Network) (c : ConstraintId) : Network :=
  { N with constraints := N.constraints.erase c }

def contains (N : Network) (c : ConstraintId) : Bool := N.constraints.contains c

def size (N : Network) : Nat := N.constraints.size

def isEmpty (N : Network) : Bool := N.constraints.isEmpty

/-- The constraints in increasing order. -/
def toList (N : Network) : List ConstraintId := N.constraints.toList

/-- Whether every constraint holds on a query, looked at in order up to the first
that fails. -/
def check (A : Arena) (N : Network) (q : Query) : Checked Bool := N.toList.allM (A.check q)

/-- Declarations of the variables, then an assertion for each constraint. -/
def smt (A : Arena) (N : Network) : Checked String := do
  let declarations := N.scope.toList.map fun v => "(declare-const x" ++ toString v ++ " Int)\n"
  let assertions ← N.toList.mapM fun c => do return "(assert " ++ (← A.smt c) ++ ")\n"
  return String.join (declarations ++ assertions)

/-- The names of the constraints in braces. -/
def render (A : Arena) (N : Network) : Checked String := do
  return "\x7b" ++ ", ".intercalate (← N.toList.mapM A.name) ++ "\x7d"

end Network

end Acquisition
