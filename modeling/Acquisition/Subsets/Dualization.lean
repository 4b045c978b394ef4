import Acquisition.Subsets.HittingSets
import Acquisition.Subsets.MapSearch

/-!
# Maximal satisfiable subsets by dualization

The complement of a maximal satisfiable subset is a minimal correction set, and
the minimal unsatisfiable subsets are the minimal hitting sets of all minimal
correction sets.

So the minimal hitting sets of the correction sets met so far are looked at. One
that is satisfiable lies in no maximal subset met so far and is grown to a new
one. One that is not is a minimal unsatisfiable subset. The search is over when
none is satisfiable.

The bias is sifted first: a constraint that conflicts with the base is a minimal
unsatisfiable subset by itself, and one that the base implies is in every
maximal subset. Neither is looked at any more.
-/
namespace Acquisition

structure Dualization where
  /-- The constraints whose subsets are looked for. -/
  bias : IndexSet := .empty
  /-- What holds throughout. -/
  base : Network
  /-- The minimal correction sets met so far. -/
  corrections : List IndexSet := []
  /-- The minimal hitting sets of the correction sets. -/
  hitting : List IndexSet := [.empty]
  /-- The minimal unsatisfiable subsets met so far. -/
  muses : List IndexSet := []
  started : Bool := false
  exhausted : Bool := false
  deadline : Limit := .unbounded

namespace Dualization

variable {σ : Type}

/-- The base with the constraints of a subset. -/
def networkOf (A : Arena) (D : Dualization) (s : IndexSet) : Checked Network :=
  D.base.addAll A s.toList

def satisfiable (A : Arena) (cp : CpBackend σ) (D : Dualization) (s : IndexSet) :
    Action σ Bool := do
  cp.satisfiable A (← Action.ofChecked (D.networkOf A s))

def witness (A : Arena) (cp : CpBackend σ) (D : Dualization) (s : IndexSet) :
    Action σ (Option Query) := do
  cp.witness A (← Action.ofChecked (D.networkOf A s))

/-- Whether the base has a solution on which a constraint fails. -/
def leavesOpen (A : Arena) (cp : CpBackend σ) (D : Dualization) (c : ConstraintId) :
    Action σ Bool := do
  cp.satisfiable A (← Action.ofChecked (do D.base.add A (← A.negation c)))

/-- Sifts each of the given constraints. -/
def sift (A : Arena) (cp : CpBackend σ) :
    Dualization → List ConstraintId → Action σ Dualization
  | D, [] => return D
  | D, c :: cs => do
    D.deadline.poll
    if !(← D.satisfiable A cp (.singleton c)) then
      sift A cp { D with muses := D.muses ++ [.singleton c] } cs
    else if ← D.leavesOpen A cp c then sift A cp { D with bias := D.bias.insert c } cs
    else sift A cp D cs

/-- A search for the maximal subsets of a bias that hold together with a base and
what is known. Nothing is looked for if the base is inconsistent, or if nothing
of the bias is left. -/
def start (A : Arena) (cp : CpBackend σ) (bias base known : Network) (deadline : Limit) :
    Action σ Dualization := do
  let D : Dualization :=
    { base := ((Network.ofScope bias.scope).union base).union known, deadline }
  if ← D.satisfiable A cp .empty then
    let D ← sift A cp D (bias.constraints.diff D.base.constraints).toList
    return { D with exhausted := D.bias.isEmpty }
  else return { D with exhausted := true }

/-- Tries to add each constraint in turn. One that holds on the witness is added;
otherwise a witness for both is sought. -/
def tryEach (A : Arena) (cp : CpBackend σ) (D : Dualization) :
    MaximalSubset → List ConstraintId → Action σ MaximalSubset
  | G, [] => return G
  | G, c :: cs => do
    D.deadline.poll
    if ← Action.ofChecked (A.check G.witness c) then
      tryEach A cp D { G with subset := G.subset.insert c } cs
    else
      let extended := G.subset.insert c
      match ← D.witness A cp extended with
      | some witness => tryEach A cp D ⟨extended, witness⟩ cs
      | none => tryEach A cp D G cs

/-- Grows a satisfiable seed to a maximal satisfiable subset. -/
def grow (A : Arena) (cp : CpBackend σ) (D : Dualization) (seed : IndexSet) :
    Action σ MaximalSubset := do
  match ← D.witness A cp seed with
  | none => .fail .missingWitness
  | some witness => tryEach A cp D ⟨seed, witness⟩ (D.bias.diff seed).toList

/-- The first satisfiable one of the given hitting sets. Those before it that
were not known to be unsatisfiable are recorded. -/
def nextSeed (A : Arena) (cp : CpBackend σ) :
    List IndexSet → Procedure Dualization σ (Option IndexSet)
  | [] => return none
  | s :: rest => do
    let D ← Procedure.own
    Procedure.call (D.deadline.poll)
    if D.muses.contains s then nextSeed A cp rest
    else if ← Procedure.call (D.satisfiable A cp s) then return some s
    else
      Procedure.update fun D => { D with muses := D.muses ++ [s] }
      nextSeed A cp rest

/-- The seed of the next maximal subset: the empty set, then a hitting set. -/
def seed (A : Arena) (cp : CpBackend σ) : Procedure Dualization σ (Option IndexSet) := do
  let D ← Procedure.own
  if D.started then nextSeed A cp D.hitting
  else
    Procedure.update ({ · with started := true })
    return some .empty

/-- Records the complement of a maximal subset. -/
def record (D : Dualization) (found : MaximalSubset) : Dualization :=
  let correction := D.bias.diff found.subset
  { D with
    hitting := HittingSets.extend D.hitting correction
    corrections := D.corrections ++ [correction] }

/-- The next maximal satisfiable subset, if there is one left. -/
def next? (A : Arena) (cp : CpBackend σ) : Procedure Dualization σ (Option MaximalSubset) := do
  if (← Procedure.own).exhausted then return none
  match ← seed A cp with
  | none => do
    Procedure.update ({ · with exhausted := true })
    return none
  | some s => do
    let found ← Procedure.callWith fun D => D.grow A cp s
    Procedure.update (·.record found)
    return some found

end Dualization

end Acquisition
