import Acquisition.Backend
import Acquisition.Bias
import Acquisition.Counters
import Acquisition.Oracle
import Acquisition.Propositional.Contradiction
import Acquisition.Propositional.Propagation
import Acquisition.Settings

/-!
# The state of a learner

A learner looks for a target network whose constraints are in its bias. What it
knows of the target is a theory, a store of clauses over the literals of the
bias, together with the constraints that are still undecided. Beside the theory
it keeps a background of contradictions, sets of constraints that no assignment
satisfies.

Before anything is learnt each constraint of the bias and each known constraint
is given an atom, and so are their negations. Conjunctions are dropped from the
bias.
-/
namespace Acquisition

/-- The backends of an acquisition in one world, in which time passes. -/
structure Backends (σ : Type) where
  sat : SatBackend σ
  cp : CpBackend σ
  /-- How many witnesses there is time to draw until the sampling budget is spent. -/
  draws : σ → Nat

structure Learner where
  settings : Settings := {}
  counters : Counters := {}
  arena : Arena
  atoms : AtomTable
  /-- The bias as given, without conjunctions. -/
  bias : Bias
  /-- The constraints of the bias that are not ruled out. -/
  undecided : Bias
  /-- Constraints taken to belong to the target. -/
  known : Network
  /-- What is known of the target. -/
  theory : ClauseStore := .empty
  /-- The constraints that cannot hold together. -/
  background : ClauseStore := .empty
  /-- The clause that is being split. -/
  pivot : Option ClauseKey := none
  /-- How many literals of the pivot a query is to violate. -/
  aim : Nat := 1
  /-- By how many literals a query may miss that aim. -/
  slack : Nat := 0
  /-- Queries to learn from before any is generated. -/
  replay : List Query := []
  /-- Networks for which to ask about a witness before any query is generated. -/
  strategies : List Network := []
  /-- Whether to stop after that. -/
  passive : Bool := false
  /-- The classified queries in order. -/
  asked : List Query := []
  /-- The query on which a run collapsed. -/
  collapsing : Option Query := none
  learned : Option Network := none
  /-- Whether the last run ended at its limit. -/
  timedOut : Bool := false
  deadline : Limit := .unbounded

namespace Learner

variable {σ : Type}

/-- Gives a constraint an atom unless it has one. -/
def register (sat : SatBackend σ) (A : Arena) (T : AtomTable) (c : ConstraintId) :
    Action σ AtomTable := do
  if T.contains c then return T
  let l ← sat.allocate c (← Action.ofChecked (A.name c))
  Action.ofExcept (T.add c l)

def registerAll (sat : SatBackend σ) (A : Arena) (T : AtomTable) (cs : List ConstraintId) :
    Action σ AtomTable := cs.foldlM (register sat A) T

/-- A constraint, and its negation unless that is in the bias itself and has its
own turn. -/
def atomsDue (A : Arena) (bias : Bias) (c : ConstraintId) : Checked (List ConstraintId) := do
  let n ← A.negation c
  return if bias.contains n then [c] else [c, n]

/-- A constraint and its negation. -/
def bothSigns (A : Arena) (c : ConstraintId) : Checked (List ConstraintId) := do
  return [c, ← A.negation c]

/-- The bias without its conjunctions. -/
def withoutConjunctions (A : Arena) (bias : Bias) : Checked Bias := do
  let kept ← bias.toList.filterM fun c => return (← A.conjuncts? c).isNone
  Bias.ofList A bias.scope kept

/-- A learner over a bias that has learnt nothing yet. -/
def start (sat : SatBackend σ) (settings : Settings) (A : Arena) (bias : Bias) (known : Network) :
    Action σ Learner := do
  let bias ← Action.ofChecked (withoutConjunctions A bias)
  let due ← Action.ofChecked (bias.toList.mapM (atomsDue A bias))
  let dueKnown ← Action.ofChecked (known.toList.mapM (bothSigns A))
  let atoms ← registerAll sat A {} (due.flatten ++ dueKnown.flatten)
  return { settings, arena := A, atoms, bias, undecided := bias, known }

/-- Records contradictions known before learning, up to the first that cannot be. -/
def addBackground : List Network → Procedure Learner σ Unit
  | [] => return
  | N :: rest => do
    let L ← Procedure.own
    let background ← Action.ofExcept (Contradiction.record L.atoms L.background N)
    Procedure.update ({ · with background })
    addBackground rest

/-- The positive literal of a constraint. -/
def literal (c : ConstraintId) : Procedure Learner σ Literal := do
  Action.ofForeseen ((← Procedure.own).atoms.literal c)

def negation (c : ConstraintId) : Procedure Learner σ ConstraintId :=
  Procedure.check (·.arena.negation c)

def count (f : Counters → Counters) : Procedure Learner σ Unit :=
  Procedure.update fun L => { L with counters := f L.counters }

def poll : Procedure Learner σ Unit := Procedure.callWith (·.deadline.poll)

/-- The queries rejected so far. -/
def rejected (L : Learner) : List Query := L.asked.filter (·.isNegative)

/-- The queries accepted so far. -/
def accepted (L : Learner) : List Query := L.asked.filter (·.isPositive)

/-- The query on which a run collapsed. If none was noted, the origin of a
literal that stands beside its complement in a theory of single literals. -/
def collapsingQuery (L : Learner) : Checked (Option Query) := do
  match L.collapsing with
  | some q => return some q
  | none => if ← L.theory.isMonomial then L.theory.inconsistency else return none

end Learner

end Acquisition
