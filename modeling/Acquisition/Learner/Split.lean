import Acquisition.Learner.State

/-!
# The formula of a split

To split a clause of the theory is to look for a query that satisfies some of
its constraints and violates others. Either answer then shortens the clause.

A model of the formula is read as the constraints that the query is to satisfy.
For each undecided constraint of the pivot the formula asks for the constraint
or its negation. While the split is *close*, it also asks for every undecided
constraint that has nothing to do with the pivot, so that the answer is about
the pivot alone, and the window on the pivot lies around the aim, within the
slack. After that, and whenever weights matter, any query will do that satisfies
some and not all constraints of the pivot.
-/
namespace Acquisition.Learner

variable {σ : Type}

/-- Whether the theory and the background have a model in which a literal holds. -/
def isPossible (sat : SatBackend σ) (S : ClauseStore) (l : Literal) : Procedure Learner σ Bool := do
  count fun k => { k with satCalls := k.satCalls + 1 }
  return (← Procedure.call (sat.solveStore (S.adding (.ofLiteral l)))).isSome

/-- Whether a constraint may belong to the target or not, for all that is known. -/
def isFree (sat : SatBackend σ) (c : ConstraintId) : Procedure Learner σ Bool := do
  let L ← Procedure.own
  let S := L.theory.concat L.background
  let l ← literal c
  if ← isPossible sat S l then isPossible sat S l.negate else return false

/-- Whether a split of a clause of the given size still aims at a share of it. -/
def isClose (L : Learner) (size : Nat) : Bool := L.aim + L.slack < size || L.slack < L.aim

/-- How many literals of a pivot of the given size are to hold. -/
def bounds (L : Learner) (close : Bool) (size : Nat) : Nat × Nat :=
  if close && !L.settings.weighted.value then
    (max (size - (L.aim + L.slack)) 1, min (size + L.slack - L.aim) (size - 1))
  else (1, size - 1)

/-- Adds what is asked about an undecided constraint to the theory, and to the
objective if weights matter. -/
def addDemand (pivot : Clause) (close : Bool) (S : ClauseStore) (F : Formula) (c : ConstraintId) :
    Procedure Learner σ (ClauseStore × Formula) := do
  let L ← Procedure.own
  let l ← literal c
  let n ← negation c
  if pivot.containsConstraint c then
    let either := Clause.ofList [l, ← literal n]
    let F ← if L.settings.weighted.value then Action.ofChecked (F.addWeighed L.arena either)
      else pure F
    return (S.adding either, F)
  else if close && !pivot.containsConstraint n then return (S.adding (.ofLiteral l), F)
  else return (S, F)

/-- The formula that splits a pivot. -/
def splitFormula (pivot : Clause) (close : Bool) : Procedure Learner σ Formula := do
  let L ← Procedure.own
  let (S, F) ← L.undecided.toList.foldlM (fun (S, F) c => addDemand pivot close S F c)
    (L.theory, Formula.empty)
  let (lower, upper) := L.bounds close pivot.size
  return (F.addStore S).setWindow ⟨pivot, lower, upper⟩

/-- Without a pivot, lets the negation of some free constraint hold. Collects the
literals of the negations of the free ones among the given constraints. -/
def addFree (sat : SatBackend σ) (S : ClauseStore) (informative : Clause) :
    List ConstraintId → Procedure Learner σ (ClauseStore × Clause)
  | [] => return (S, informative)
  | c :: cs => do
    if ← isFree sat c then
      let l ← literal (← negation c)
      addFree sat (S.discard (.ofLiteral l.negate)).2 (informative.insert l) cs
    else addFree sat S informative cs

/-- The formula that asks for the negation of some free constraint. -/
def freeFormula (sat : SatBackend σ) : Procedure Learner σ Formula := do
  let L ← Procedure.own
  let (S, informative) ← addFree sat L.theory .empty L.undecided.toList
  if informative.isEmpty then Action.fault .nothingFree
  return .ofStore (S.adding informative)

/-- The formula of the next query. -/
def formula (sat : SatBackend σ) (pivot : Option Clause) (close : Bool) :
    Procedure Learner σ Formula :=
  match pivot with
  | some c => splitFormula c close
  | none => freeFormula sat

end Acquisition.Learner
