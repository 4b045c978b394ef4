import Acquisition.Network
import Acquisition.Propositional.AtomTable
import Acquisition.Propositional.ClauseStore

/-!
# Contradictions

A contradiction is a network whose constraints cannot hold together. As a clause
it says that some constraint of the network does not belong to the target.

The contradictions of an acquisition are gathered in a clause store, from which
none is ever removed.
-/
namespace Acquisition

namespace Contradiction

/-- Some constraint of the network does not hold. -/
def clause (T : AtomTable) (N : Network) : Except ErrorKind Clause := do
  return .ofList (← N.toList.mapM fun c => Literal.negate <$> T.literal c)

/-- Records a contradiction, which has at least one constraint. -/
def record (T : AtomTable) (S : ClauseStore) (N : Network) : Except Failure ClauseStore :=
  if N.isEmpty then .error (.fault .emptyContradiction)
  else match clause T N with
    | .ok c => .ok (S.adding c)
    | .error e => .error (.error e)

end Contradiction

end Acquisition
