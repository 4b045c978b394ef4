import Acquisition.Learner.Generate
import Acquisition.Learner.Replay

/-!
# A run of a learner

A run learns from what is set for replay, then generates queries and learns from
the answers until nothing is undecided, there is no informative query, or an
answer contradicts what is known.

On convergence the learned network is read off a model of the theory in which no
constraint that was ruled out holds.

A backend that runs past its limit ends a run as a collapse, since learning
cannot go on from what is known. At the limit of the run itself the theory stays
as it is and nothing is read off.
-/
namespace Acquisition

/-- How a run ended. -/
inductive Outcome
  /-- No informative query is left, and the learned network is available. -/
  | converged
  /-- The answers contradict what is known. -/
  | collapsed
  /-- The limit passed before either. -/
  | timeout
deriving DecidableEq, Repr

def Outcome.name : Outcome → String
  | converged => "Converged"
  | collapsed => "Collapsed"
  | timeout => "Timeout"

namespace Learner

variable {σ : Type}

/-- The theory, with the negated literal of each constraint ruled out. -/
def closedTheory : Procedure Learner σ ClauseStore := do
  let L ← Procedure.own
  let ruledOut := L.bias.toList.filter (!L.undecided.contains ·)
  return (← ruledOut.mapM literal).foldl (fun S l => S.adding (.ofLiteral l.negate)) L.theory

/-- Reads the learned network off a model of the theory. Without one, the query
that explains this is noted. -/
def extract (sat : SatBackend σ) : Procedure Learner σ Outcome := do
  let S ← closedTheory
  count fun k => { k with satCalls := k.satCalls + 1 }
  match ← Procedure.call (sat.solveStore S) with
  | some model => do
    let learned ← Procedure.check fun L => Network.ofList L.arena L.bias.scope model
    Procedure.update ({ · with learned := some learned })
    return .converged
  | none => do
    let collapsing ← Procedure.check (·.collapsingQuery)
    Procedure.update ({ · with collapsing })
    return .collapsed

/-- Generates queries and learns from the answers. -/
def acquire (B : Backends σ) (oracle : Oracle σ) : Nat → Procedure Learner σ Outcome
  | 0 => throw .outOfFuel
  | fuel + 1 => do
    poll
    if (← Procedure.own).undecided.isEmpty then extract B.sat
    else match ← generate B fuel with
      | none => extract B.sat
      | some q => do
        if (← ask oracle q) = .collapse then return .collapsed
        acquire B oracle fuel

/-- What a run does once its limits are set. -/
def run (B : Backends σ) (oracle : Oracle σ) (fuel : Nat) : Procedure Learner σ Outcome := do
  if (← preprocess B.cp oracle) = .collapse then return .collapsed
  if (← Procedure.own).passive then extract B.sat else acquire B oracle fuel

/-- Runs a learner under its settings. -/
def process (B : Backends σ) (oracle : Oracle σ) (fuel : Nat) : Procedure Learner σ Outcome := do
  Procedure.update fun L =>
    { L with deadline := .after L.settings.timeLimit.value, timedOut := false }
  let limit := Limit.after (← Procedure.own).settings.solverLimit.value
  Procedure.call (B.sat.setLimit limit)
  Procedure.call (B.cp.setLimit limit)
  match ← (run B oracle fuel).attempt with
  | .ok outcome => return outcome
  | .error (.error .timeout) => do
    Procedure.update ({ · with timedOut := true })
    return .timeout
  | .error (.error .backendTimeout) => return .collapsed
  | .error e => throw e

end Learner

end Acquisition
