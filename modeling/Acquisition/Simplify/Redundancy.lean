import Acquisition.Backend

/-!
# Redundant constraints

A constraint is redundant in a network if the network without it has the same
solutions, among those of what is known. Some redundant constraints are seen
without looking at solutions: a disjunction one of whose members is there, and a
conjunction all of whose members are.
-/
namespace Acquisition.Simplify

/-- Whether a disjunction has a member in a network. -/
def subsumedDisjunction (A : Arena) (N : Network) (c : ConstraintId) : Checked Bool := do
  match ← A.disjuncts? c with
  | some members => return members.toList.any N.contains
  | none => return false

/-- Whether a disjunction has a member in a network, or a conjunction all of its
members. -/
def subsumed (A : Arena) (N : Network) (c : ConstraintId) : Checked Bool := do
  match ← A.conjuncts? c with
  | some members => return members.toList.all N.contains
  | none => subsumedDisjunction A N c

/-- Adds those of the given constraints for which `skip` does not hold of the
network so far. -/
def addUnless (A : Arena) (skip : Network → ConstraintId → Checked Bool) :
    Network → List ConstraintId → Checked Network
  | N, [] => .ok N
  | N, c :: cs => do
    if ← skip N c then addUnless A skip N cs else addUnless A skip (← N.add A c) cs

/-- The constraints of a network that those kept before them do not subsume. -/
def condense (A : Arena) (N : Network) : Checked Network :=
  addUnless A (subsumed A) (.ofScope N.scope) N.toList

variable {σ : Type}

/-- Drops each of the given constraints without which a network means the same. -/
def dropRedundant (cp : CpBackend σ) (A : Arena) (known : Network) :
    Network → List ConstraintId → Action σ Network
  | N, [] => return N
  | N, c :: cs => do
    if ← cp.equivalent A N (N.remove c) known then dropRedundant cp A known (N.remove c) cs
    else dropRedundant cp A known N cs

/-- The network without constraints that the others imply, given what is known.
Constraints registered last are dropped first. -/
def removeRedundant (cp : CpBackend σ) (A : Arena) (N known : Network) : Action σ Network := do
  let reduced ← Action.ofChecked (addUnless A (subsumedDisjunction A) (.ofScope N.scope) N.toList)
  dropRedundant cp A known reduced reduced.toList.reverse

end Acquisition.Simplify
