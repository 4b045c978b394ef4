import Acquisition.Backend
import Acquisition.Propositional.Contradiction
import Acquisition.Settings

/-!
# Maximal satisfiable subsets by a map of what is unexplored

A subset of the bias is satisfiable when it holds together with a base network.
A clause store over the literals of the bias, the *map*, has as its models the
subsets that are still unexplored. Each step takes a model of the map as a seed.

* A seed with a witness is grown to a maximal satisfiable subset, and every later
  seed must have some constraint outside that subset.
* Any other seed is shrunk to a minimal unsatisfiable subset, and every later
  seed must lack some constraint of that subset.

The search is over when the map has no model.
-/
namespace Acquisition

/-- A maximal satisfiable subset with a witness on which it holds. -/
structure MaximalSubset where
  subset : IndexSet
  witness : Query
deriving DecidableEq

structure MapSearch where
  /-- The constraints whose subsets are looked for. -/
  bias : IndexSet
  /-- What holds throughout. -/
  base : Network
  /-- The subsets that are still unexplored. -/
  map : ClauseStore := .empty
  growth : Growth := .witness
  deadline : Limit := .unbounded
  /-- The minimal unsatisfiable subsets met so far. -/
  muses : List IndexSet := []
  started : Bool := false
  exhausted : Bool := false

namespace MapSearch

variable {σ : Type}

/-- A search for the maximal subsets of a bias, less a base, that hold together
with the base and what is known. -/
def start (bias base known : Network) (growth : Growth) (deadline : Limit) : MapSearch where
  bias := bias.constraints.diff base.constraints
  base := ((Network.ofScope bias.scope).union base).union known
  growth := growth
  deadline := deadline

/-- Rules out every subset that contains one of the given contradictions. -/
def exclude (M : MapSearch) (contradictions : ClauseStore) : MapSearch :=
  { M with map := M.map.concat contradictions }

/-- The base with the constraints of a subset. -/
def networkOf (A : Arena) (M : MapSearch) (s : IndexSet) : Checked Network :=
  M.base.addAll A s.toList

/-- A subset that is being grown, its witness, and the count of constraints found
to be inconsistent with it. -/
structure Growing where
  subset : IndexSet
  witness : Query
  refuted : Nat := 0

/-- Adds the constraints that hold on the witness. -/
def absorb (A : Arena) : Growing → List ConstraintId → Checked Growing
  | G, [] => .ok G
  | G, c :: cs => do
    if ← A.check G.witness c then absorb A { G with subset := G.subset.insert c } cs
    else absorb A G cs

/-- Tries to add each constraint in turn. One that holds on the witness is added
and one whose negation is there is not; otherwise a witness for both is sought. -/
def tryEach (A : Arena) (cp : CpBackend σ) (M : MapSearch) :
    Growing → List ConstraintId → Action σ Growing
  | G, [] => return G
  | G, c :: cs => do
    M.deadline.poll
    if G.subset.contains (← Action.ofChecked (A.negation c)) then
      tryEach A cp M { G with refuted := G.refuted + 1 } cs
    else if ← Action.ofChecked (A.check G.witness c) then
      tryEach A cp M { G with subset := G.subset.insert c } cs
    else
      let extended := G.subset.insert c
      match ← cp.witness A (← Action.ofChecked (M.networkOf A extended)) with
      | some witness => tryEach A cp M { G with subset := extended, witness } cs
      | none => tryEach A cp M { G with refuted := G.refuted + 1 } cs

/-- What a grown subset has to meet: all of it holds on its witness, and it is
empty only if every constraint of the bias was refuted. -/
def verify (A : Arena) (M : MapSearch) (G : Growing) : Checked Unit := do
  unless ← (← M.networkOf A G.subset).check A G.witness do throw .unsupportedSubset
  if G.subset.isEmpty && G.refuted != M.bias.size then throw .neglectedConstraint

/-- Grows a satisfiable seed to a maximal satisfiable subset. -/
def grow (A : Arena) (cp : CpBackend σ) (M : MapSearch) (seed : IndexSet) (witness : Query) :
    Action σ MaximalSubset := do
  let G ← match M.growth with
    | .witness => .ofChecked (absorb A { subset := seed, witness } (M.bias.diff seed).toList)
    | .resolve => pure { subset := seed, witness }
  let G ← tryEach A cp M G (M.bias.diff G.subset).toList
  Action.ofChecked (M.verify A G)
  return ⟨G.subset, G.witness⟩

/-- Removes each of the given constraints without which a subset is still
unsatisfiable. -/
def shrink (A : Arena) (cp : CpBackend σ) (M : MapSearch) :
    IndexSet → List ConstraintId → Action σ IndexSet
  | mus, [] => return mus
  | mus, c :: cs => do
    M.deadline.poll
    let reduced := mus.erase c
    if ← cp.satisfiable A (← Action.ofChecked (M.networkOf A reduced)) then
      shrink A cp M mus cs
    else shrink A cp M reduced cs

/-- Some constraint outside the subset is in any later seed. -/
def blockDown (T : AtomTable) (M : MapSearch) (s : IndexSet) : Except ErrorKind MapSearch := do
  let literals ← (M.bias.diff s).toList.mapM T.literal
  return { M with map := M.map.adding (.ofList literals) }

/-- Some constraint of the subset is outside any later seed. -/
def blockUp (T : AtomTable) (M : MapSearch) (s : IndexSet) : Except ErrorKind MapSearch := do
  let literals ← s.toList.mapM T.literal
  return { M with map := M.map.adding (.ofList (literals.map .negate)) }

/-- Whether the base is consistent, looked into the first time only. -/
def consistentBase (A : Arena) (cp : CpBackend σ) : Procedure MapSearch σ Bool := do
  if (← Procedure.own).started then return true
  Procedure.update ({ · with started := true })
  let consistent ← Procedure.callWith fun M => cp.satisfiable A M.base
  unless consistent do Procedure.update ({ · with exhausted := true })
  return consistent

/-- Takes seeds up to the first that has a witness. -/
def explore (A : Arena) (T : AtomTable) (sat : SatBackend σ) (cp : CpBackend σ) :
    Nat → Procedure MapSearch σ (Option MaximalSubset)
  | 0 => throw .outOfFuel
  | fuel + 1 => do
    Procedure.callWith (·.deadline.poll)
    match ← Procedure.callWith fun M => sat.solveStore M.map with
    | none => do
      Procedure.update ({ · with exhausted := true })
      return none
    | some model => do
      let M ← Procedure.own
      let seed := IndexSet.ofList (model.filter M.bias.contains)
      match ← Procedure.call (do cp.witness A (← Action.ofChecked (M.networkOf A seed))) with
      | some witness => do
        let found ← Procedure.call (M.grow A cp seed witness)
        let blocked ← Action.ofForeseen (M.blockDown T found.subset)
        Procedure.update fun _ => blocked
        return some found
      | none => do
        let mus ← Procedure.call (M.shrink A cp seed seed.toList)
        let blocked ← Action.ofForeseen (M.blockUp T mus)
        Procedure.update fun _ => { blocked with muses := blocked.muses ++ [mus] }
        explore A T sat cp fuel

/-- The next maximal satisfiable subset, if there is one left. -/
def next? (A : Arena) (T : AtomTable) (sat : SatBackend σ) (cp : CpBackend σ) (fuel : Nat) :
    Procedure MapSearch σ (Option MaximalSubset) := do
  if (← Procedure.own).exhausted then return none
  if ← consistentBase A cp then explore A T sat cp fuel else return none

end MapSearch

end Acquisition
