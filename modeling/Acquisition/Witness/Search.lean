import Acquisition.Backend
import Acquisition.Domain
import Acquisition.Random.Shuffle

/-!
# Search for witnesses

The variables of a scope are given values in increasing order of variable. The
values of a variable are tried in an order that is drawn anew each time the
search reaches the variable. After each choice the constraints that mention the
variable are evaluated on the choices made so far, and the choice is given up if
one of them is violated. A disjunction or conjunction may be violated before all
of its variables have values.
-/
namespace Acquisition.Witness

/-- A variable, the values it may take, and the constraints that mention it. -/
structure Level where
  var : Var
  values : List Value
  watched : List ConstraintId

/-- The choices made so far, the last one first. -/
abbrev Choices := List (Var × Value)

/-- Whether a constraint is violated by the choices. -/
def violates (A : Arena) (choices : Choices) (c : ConstraintId) : Checked Bool :=
  (· == some false) <$> A.eval (choices.lookup ·) c

/-- The first value with which `attempt` succeeds. -/
def firstSuccess {α : Type} (attempt : Value → Stream → Checked (Option α) × Stream) :
    List Value → Stream → Checked (Option α) × Stream
  | [], g => (.ok none, g)
  | x :: xs, g => match attempt x g with
    | (.ok none, g) => firstSuccess attempt xs g
    | settled => settled

/-- Choices for the given levels that extend those made so far. -/
def explore (A : Arena) : List Level → Choices → Stream → Checked (Option Choices) × Stream
  | [], choices, g => (.ok (some choices), g)
  | level :: rest, choices, g =>
    let (xs, g) := Stream.shuffle level.values g
    firstSuccess (fun x g =>
      let choices := (level.var, x) :: choices
      match level.watched.anyM (violates A choices) with
      | .error f => (.error f, g)
      | .ok true => (.ok none, g)
      | .ok false => explore A rest choices g) xs g

structure Searcher where
  domain : Domain
  stream : Stream
  limit : Limit := .unbounded
  timedOut : Bool := false

namespace Searcher

/-- The values of a variable, which has a domain. -/
def values (D : Domain) (v : Var) : Except Failure (List Value) :=
  match D.interval? v with
  | some i => i.list.mapError .fault
  | none => .error (.error (.unknownVariable v))

/-- The constraints of a network with their variables. -/
def mentions (A : Arena) (N : Network) : Checked (List (ConstraintId × List Var)) :=
  N.toList.mapM fun c => do return (c, ← A.vars c)

/-- A level for each variable of the scope of a network. -/
def levels (D : Domain) (A : Arena) (N : Network) : Except Failure (List Level) := do
  let valued ← N.scope.toList.mapM fun v => do return (v, ← values D v)
  let mentioned ← (mentions A N).mapError .fault
  return valued.map fun (v, xs) => ⟨v, xs, (mentioned.filter (·.2.contains v)).map (·.1)⟩

def witness (A : Arena) (N : Network) : Action Searcher (Option Query) := do
  modify ({ · with timedOut := false })
  let S ← get
  let levels ← Action.ofExcept (levels S.domain A N)
  if S.limit.isPassed then
    modify ({ · with timedOut := true })
    Action.fail .backendTimeout
  let (found, stream) := explore A levels [] S.stream
  set { S with stream }
  return (← Action.ofChecked found).map Query.ofPairs

def setLimit (l : Limit) : Action Searcher Unit := modify ({ · with limit := l })

/-- The backend on its own states. -/
def backend : CpBackend Searcher where
  witness := witness
  setLimit := setLimit
  timedOut := (·.timedOut)

end Searcher

end Acquisition.Witness
