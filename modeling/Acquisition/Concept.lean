import Acquisition.Learner.Run
import Acquisition.Simplify.Redundancy
import Acquisition.Simplify.Contraction
import Acquisition.Subsets.MapSearch

/-!
# Concepts as networks of disjunctions

Over a bias that is closed under negation, each assignment satisfies a maximal
satisfiable subset of the bias, and what an oracle says about one witness of the
subset it says about all. So the witness of each maximal subset is put to the
oracle, and one that is rejected is excluded by a disjunction: some constraint
that holds on it fails.

What is learnt is the conjunction of these disjunctions. It may be simplified
with the minimal unsatisfiable subsets met on the way.
-/
namespace Acquisition

structure Concept where
  settings : Settings := {}
  counters : Counters := {}
  arena : Arena
  atoms : AtomTable
  bias : Bias
  /-- Constraints taken to hold. -/
  known : Network
  /-- The constraints known beforehand not to hold together. -/
  background : ClauseStore := .empty
  /-- What is learnt: a disjunction for each rejected query. -/
  learned : Network
  /-- The minimal unsatisfiable subsets met by the last run. -/
  muses : List IndexSet := []
  /-- The queries asked, with their verdicts. -/
  queries : List Query := []
  /-- Whether the last run ended at a limit. -/
  timedOut : Bool := false

namespace Concept

variable {σ : Type}

/-- The first constraint of a bias whose negation is not in it. -/
def unpaired? (A : Arena) (bias : Bias) : Checked (Option ConstraintId) :=
  bias.toList.findSomeM? fun c => do
    return if bias.contains (← A.negation c) then none else some c

/-- A concept over a bias closed under negation, of which nothing is learnt yet. -/
def start (sat : SatBackend σ) (settings : Settings) (A : Arena) (bias : Bias) (known : Network) :
    Action σ Concept := do
  if let some c ← Action.ofChecked (unpaired? A bias) then Action.fail (.incompleteBias c)
  let due ← Action.ofChecked ((bias.toList ++ known.toList).mapM (Learner.bothSigns A))
  let atoms ← Learner.registerAll sat A {} due.flatten
  return { settings, arena := A, atoms, bias, known, learned := .ofScope bias.scope }

/-- Records contradictions known beforehand, up to the first that cannot be. -/
def addBackground : List Network → Procedure Concept σ Unit
  | [] => return
  | N :: rest => do
    let C ← Procedure.own
    let background ← Action.ofExcept (Contradiction.record C.atoms C.background N)
    Procedure.update ({ · with background })
    addBackground rest

/-- A concept in the course of an enumeration, with the members of a disjunction
for each query rejected so far. -/
structure Sweep where
  concept : Concept
  search : MapSearch
  rejected : List IndexSet := []

/-- The search for the maximal subsets of the bias, less those excluded by the
background. -/
def search (C : Concept) : MapSearch :=
  (MapSearch.start C.bias.network (.ofScope C.bias.scope) C.known C.settings.grow.value
    (.after C.settings.timeLimit.value)).exclude C.background

/-- The negations of the constraints of the bias that hold on a query. -/
def exclusion (C : Concept) (q : Query) : Checked IndexSet := do
  let holding ← C.bias.toList.filterM (C.arena.check q)
  return .ofList (← holding.mapM C.arena.negation)

/-- Puts a query to the oracle and notes its verdict, and what excludes it if it
is rejected. -/
def judge (oracle : Oracle σ) (q : Query) : Procedure Sweep σ Unit := do
  let count (f : Counters → Counters) (S : Sweep) : Sweep :=
    { S with concept := { S.concept with counters := f S.concept.counters } }
  Procedure.update (count fun k => { k with queries := k.queries + 1 })
  let accepted ← match ← Procedure.call (oracle q) with
    | .accept => pure true
    | .reject => pure false
    | .unknown => .fail .oracleUnknown
  let q ← Action.ofForeseen (q.classify accepted)
  if accepted then Procedure.update (count fun k => { k with positive := k.positive + 1 })
  else
    Procedure.update (count fun k => { k with negative := k.negative + 1 })
    let members ← Procedure.check (·.concept.exclusion q)
    Procedure.update fun S => { S with rejected := S.rejected ++ [members] }
  Procedure.update fun S =>
    { S with concept := { S.concept with queries := S.concept.queries ++ [q] } }

/-- Judges the witness of each maximal satisfiable subset. -/
def enumerate (B : Backends σ) (oracle : Oracle σ) : Nat → Procedure Sweep σ Unit
  | 0 => throw .outOfFuel
  | fuel + 1 => do
    let C := (← Procedure.own).concept
    match ← Procedure.within (·.search) (fun M S => { S with search := M })
        (MapSearch.next? C.arena C.atoms B.sat B.cp fuel) with
    | none => return
    | some found => do
      judge oracle found.witness
      enumerate B oracle fuel

/-- Adds a disjunction of each set of members to what is learnt. -/
def learn (C : Concept) : List IndexSet → Checked Concept
  | [] => .ok C
  | members :: rest => do
    let (c, A) ← C.arena.disjunction members
    learn { C with arena := A, learned := ← C.learned.add A c } rest

/-- Runs the enumeration. However it ends, what was rejected is learnt. -/
def process (B : Backends σ) (oracle : Oracle σ) (fuel : Nat) : Procedure Concept σ Outcome := do
  let limit := Limit.after (← Procedure.own).settings.solverLimit.value
  Procedure.call (B.sat.setLimit limit)
  Procedure.call (B.cp.setLimit limit)
  Procedure.update ({ · with timedOut := false })
  let (result, sweep) ← Procedure.within (fun C => { concept := C, search := C.search : Sweep })
    (fun S _ => S.concept) (do return (← (enumerate B oracle fuel).attempt, ← Procedure.own))
  let learned ← Procedure.check (·.learn sweep.rejected)
  let muses := sweep.search.muses
  Procedure.update fun _ =>
    { learned with muses, counters := { learned.counters with muses := muses.length } }
  match result with
  | .ok () => return .converged
  | .error (.error .timeout) | .error (.error .backendTimeout) => do
    Procedure.update ({ · with timedOut := true })
    return .timeout
  | .error e => throw e

/-- What is learnt, simplified with some unsatisfiable subsets. -/
def simplify (muses : List IndexSet) (fuel : Nat) : Procedure Concept σ Network := do
  let C ← Procedure.own
  let (A, N) ← Action.ofExcept (Simplify.network C.arena C.learned muses fuel)
  Procedure.update ({ · with arena := A })
  return N

/-- A network without constraints that the others imply. -/
def removeRedundant (cp : CpBackend σ) (N known : Network) : Procedure Concept σ Network :=
  Procedure.callWith fun C => Simplify.removeRedundant cp C.arena N known

/-- What is learnt, simplified with the unsatisfiable subsets met by the last run,
and then without redundant constraints. -/
def simplified (cp : CpBackend σ) (fuel : Nat) : Procedure Concept σ Network := do
  let C ← Procedure.own
  removeRedundant cp (← simplify C.muses fuel) C.known

end Concept

end Acquisition
