import Acquisition.Network

/-!
# The bias

The bias of an acquisition is the pool of constraints that its target may hold.
A bias only shrinks, and remembers how many constraints it had at first.

The *kappa* of a query is the set of constraints of the bias that it violates.
A query says nothing about a constraint with a variable outside its scope, so
only constraints with all their variables in scope are looked at.
-/
namespace Acquisition

structure Bias where
  network : Network
  initialSize : Nat
deriving DecidableEq, Repr

namespace Bias

def ofNetwork (N : Network) : Bias := ⟨N, N.size⟩

def ofList (A : Arena) (scope : IndexSet) (cs : List ConstraintId) : Checked Bias :=
  ofNetwork <$> Network.ofList A scope cs

def scope (B : Bias) : IndexSet := B.network.scope

def constraints (B : Bias) : IndexSet := B.network.constraints

def toList (B : Bias) : List ConstraintId := B.network.toList

def size (B : Bias) : Nat := B.network.size

def isEmpty (B : Bias) : Bool := B.network.isEmpty

def contains (B : Bias) (c : ConstraintId) : Bool := B.network.contains c

def reduce (B : Bias) (c : ConstraintId) : Bias := { B with network := B.network.remove c }

def reduceAll (B : Bias) (cs : IndexSet) : Bias := cs.toList.foldl reduce B

/-- Whether a query violates a constraint all of whose variables it assigns. -/
def violates (A : Arena) (q : Query) (c : ConstraintId) : Checked Bool := do
  if (← A.scope c).subset q.scope then return !(← A.check q c) else return false

/-- The constraints of the bias that a query violates. -/
def kappa (A : Arena) (B : Bias) (q : Query) : Checked IndexSet := do
  return .ofList (← B.toList.filterM (violates A q))

end Bias

end Acquisition
