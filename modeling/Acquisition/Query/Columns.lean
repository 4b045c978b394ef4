import Acquisition.IndexSet.Words
import Acquisition.Query

/-!
# Queries in two columns

A query may be kept as the set of its variables and the column of its values. The
set is visited in increasing order, and the values stand in that order, so that the
value of a variable is found by the place of the variable among the others.

Pairs of variables and values come in any order. They are sorted by their
variables, where pairs of one variable stay in the order in which they came. Read
from the back, the first pair of each run of one variable is then the last one that
was given for it.
-/
namespace Acquisition

/-- The count of members that are visited before `i`, if `i` is a member. -/
def Words.position? (s : Words) (i : Nat) : Option Nat :=
  if s.contains i then s.toList.findIdx? (· == i) else none

structure Columns where
  /-- The variables of the query. -/
  scope : Words
  /-- The values in increasing order of variable. -/
  values : List Value
  verdict : Option Bool := none

namespace Columns

/-- The pairs sorted by variable, of which the last one is kept for each. -/
def lastByVar (given : List (Var × Value)) : List (Var × Value) :=
  ((given.mergeSort fun p q => p.1 ≤ q.1).reverse.eraseRepsBy fun p q => p.1 == q.1).reverse

def ofPairs (given : List (Var × Value)) : Columns where
  scope := .ofList ((lastByVar given).map (·.1))
  values := (lastByVar given).map (·.2)

def ofValues (scope : Words) (values : List Value) : Except ErrorKind Columns :=
  if scope.size = values.length then .ok { scope, values } else .error .misaligned

def valueOf (q : Columns) (v : Var) : Option Value := (q.scope.position? v).bind (q.values[·]?)

/-- The values of some variables in the order asked, if each is in scope. -/
def valuesFor (q : Columns) (vs : List Var) : Option (List Value) := vs.mapM q.valueOf

instance : BEq Columns :=
  ⟨fun q r => q.scope == r.scope && q.values == r.values && q.verdict == r.verdict⟩

/-- The query that is kept. -/
def query (q : Columns) : Query :=
  { Query.ofPairs (q.scope.toList.zip q.values) with verdict := q.verdict }

def classify (q : Columns) (accepted : Bool) : Except ErrorKind Columns := do
  return { q with verdict := (← q.query.classify accepted).verdict }

end Columns

end Acquisition
