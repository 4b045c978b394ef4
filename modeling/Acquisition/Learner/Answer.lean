import Acquisition.Learner.State

/-!
# Learning from an answer

What a query has to say is about its kappa, the undecided constraints that it
violates.

* If it is accepted, no constraint of its kappa belongs to the target.
* If it is rejected, some constraint of its kappa belongs to the target. If there
  is only one, that one does, and its negation is ruled out. If there is none,
  the answer contradicts what is known, and learning collapses.
-/
namespace Acquisition

/-- What became of a classified query. -/
inductive Learnt
  | consistent
  /-- The query contradicts what is known. -/
  | collapse
deriving DecidableEq, Repr

namespace Learner

variable {σ : Type}

/-- Asks the oracle about a query that has no verdict yet. -/
def classify (oracle : Oracle σ) (q : Query) : Procedure Learner σ Query := do
  count fun k => { k with queries := k.queries + 1 }
  match ← Procedure.call (oracle q) with
  | .accept => Action.ofForeseen (q.classify true)
  | .reject => Action.ofForeseen (q.classify false)
  | .unknown => .fail .oracleUnknown

def noteFirstLearned : Procedure Learner σ Unit := count ({ · with firstLearned := true })

/-- Propagates a literal through the theory. -/
def propagate (l : Literal) : Procedure Learner σ Unit := do
  let (report, theory) ← Procedure.check (·.theory.propagate l)
  Procedure.update ({ · with theory })
  if report.learnedPositive then noteFirstLearned

/-- Adds a clause to the theory, in place of the clauses it subsumes if `reduce`. -/
def addClause (reduce : Bool) (c : Clause) : Procedure Learner σ Unit :=
  Procedure.update fun L =>
    { L with theory := if reduce then (L.theory.addReduced c).2 else L.theory.adding c }

def noteAsked (q : Query) : Procedure Learner σ Unit :=
  Procedure.update fun L => { L with asked := L.asked ++ [q] }

/-- Rules out constraints that an accepted query violates. -/
def ruleOut (kappa : IndexSet) : Procedure Learner σ Unit := do
  kappa.toList.forM fun c => do propagate (← literal c).negate
  Procedure.update fun L => { L with undecided := L.undecided.reduceAll kappa }

/-- Learns that a constraint belongs to the target, from the query that only it
could reject. -/
def confirm (reduce : Bool) (q : Query) (c : ConstraintId) : Procedure Learner σ Unit := do
  noteFirstLearned
  let l ← literal c
  propagate l
  addClause reduce ((Clause.ofLiteral l).withOrigin (some q))
  let n ← negation c
  Procedure.update fun L => { L with undecided := L.undecided.reduce n }
  propagate (← literal n).negate

/-- Learns from a classified query. Clauses are added in place of those that they
subsume if `reduce`. -/
def learn (q : Query) (reduce : Bool) : Procedure Learner σ Learnt := do
  let kappa ← Procedure.check fun L => L.undecided.kappa L.arena q
  if q.isPositive then
    count fun k => { k with positive := k.positive + 1 }
    ruleOut kappa
    noteAsked q
    return .consistent
  count fun k => { k with negative := k.negative + 1 }
  match kappa.toList with
  | [] => do
    Procedure.update ({ · with collapsing := some q })
    noteAsked q
    return .collapse
  | [c] => do
    confirm reduce q c
    noteAsked q
    return .consistent
  | cs => do
    addClause reduce ((Clause.ofList (← cs.mapM literal)).withOrigin (some q))
    noteAsked q
    return .consistent

/-- Asks the oracle about a query and learns from the answer. -/
def ask (oracle : Oracle σ) (q : Query) : Procedure Learner σ Learnt := do
  learn (← classify oracle q) false

end Learner

end Acquisition
