import Acquisition.Conflict
import Acquisition.Learner.Answer
import Acquisition.Learner.Probe
import Acquisition.Learner.Split
import Acquisition.Simplify.Redundancy

/-!
# Generation of queries

While some clause of the theory has more than one literal, a pivot is chosen
among these clauses and split.

* If the formula of the split has no model, the slack grows. Once the split is no
  longer close, no query splits the pivot: each of its constraints is needed, and
  all of them are committed.
* If the formula has a model whose constraints cannot hold together, a minimal
  conflict among them joins the background, which rules the model out.
* Otherwise a witness of the model is the next query.

After that the undecided constraints are probed.
-/
namespace Acquisition.Learner

variable {σ : Type}

/-- Forgets a pivot that is no longer in the theory, and chooses a pivot if there
is none. A new pivot is split from one literal on. -/
def choosePivot : Procedure Learner σ Unit := do
  let L ← Procedure.own
  if (L.pivot.bind L.theory.get?).isSome then return
  let (pivot, theory) ← Procedure.check fun L =>
    L.theory.select L.arena L.settings.clauseSelection.value
  Procedure.update ({ · with pivot, theory, aim := 1, slack := 0 })

/-- Learns that each of the given literals of a clause holds. -/
def commitEach (origin : Option Query) : List Literal → Procedure Learner σ Unit
  | [] => return
  | l :: rest => do
    if l.negated then Action.fault .negatedLiteral
    Procedure.update fun L =>
      { L with theory := L.theory.adding ((Clause.ofLiteral l).withOrigin origin) }
    propagate l
    let n ← negation l.constraint
    Procedure.update fun L => { L with undecided := L.undecided.reduce n }
    commitEach origin rest

/-- Puts the literals of a clause in its place. -/
def commit (k : ClauseKey) (c : Clause) : Procedure Learner σ Unit := do
  Procedure.update fun L => { L with theory := L.theory.erase k }
  commitEach c.origin c.literals

/-- Goes on from a formula without a model. -/
def widen (pivot : Option (ClauseKey × Clause)) (close : Bool) : Procedure Learner σ Unit := do
  match pivot, close with
  | some _, true => Procedure.update fun L => { L with slack := L.slack + 1 }
  | some (k, c), false => do
    commit k c
    Procedure.update ({ · with pivot := none })
  | none, _ => .fault .nothingToSplit

/-- Adds a minimal conflict among the constraints of a network to the background. -/
def addConflict (cp : CpBackend σ) (N : Network) : Procedure Learner σ Unit := do
  let condensed ← Procedure.check fun L => Simplify.condense L.arena N
  count fun k => { k with explanations := k.explanations + 1 }
  let conflict ← Procedure.callWith fun L => Conflict.explain cp L.arena L.deadline {} condensed
  addBackground [conflict]
  count fun k => { k with contradictions := k.contradictions + 1 }

/-- One attempt at a split: the query found, if there is one. -/
def attemptSplit (B : Backends σ) : Procedure Learner σ (Option Query) := do
  poll
  choosePivot
  let L ← Procedure.own
  let pivot := L.pivot.bind fun k => (L.theory.get? k).map (k, ·)
  let close := pivot.any fun p => L.isClose p.2.size
  let F ← formula B.sat (pivot.map (·.2)) close
  count fun k => { k with satCalls := k.satCalls + 1 }
  match ← Procedure.callWith fun L => B.sat.solve (F.addStore L.background) with
  | none => do
    widen pivot close
    return none
  | some model => do
    let N ← Procedure.check fun L => Network.ofList L.arena L.bias.scope model
    match ← witness B.cp N with
    | none => do
      addConflict B.cp N
      return none
    | some q => do
      if !close then
        if let some (k, _) := pivot then
          Procedure.update fun L => { L with theory := L.theory.mark k }
      return some q

/-- The next informative query, if there is one. -/
def generate (B : Backends σ) : Nat → Procedure Learner σ (Option Query)
  | 0 => throw .outOfFuel
  | fuel + 1 => do
    if ← Procedure.check (·.theory.isMonomial) then probeQuery B
    else match ← attemptSplit B with
      | some q => return some q
      | none => generate B fuel

end Acquisition.Learner
