import Acquisition.Sat.Problem

/-!
# Search for models

Atoms are decided in increasing order, false before true, and each decision is
followed by what it forces. So the first model found is the least one, where
models are compared atom by atom from the lowest, and false is less than true.

With an objective the search goes on for cheaper models. An assignment is given
up if even its least cost, in which every open literal of negative weight holds
and no other one does, is no less than the cost of the model at hand. Costs are
sums of signed words.
-/
namespace Acquisition.Sat.Problem

/-- The sum of the weights of the literals that hold. -/
def cost (P : Problem) (m : Assignment) : Checked Int :=
  Checked.sumSigned ((P.objective.filter fun t => m.holds t.1).map (·.2))

/-- The least cost of the assignments that extend `m`. -/
def leastCost (P : Problem) (m : Assignment) : Checked Int :=
  Checked.sumSigned (P.objective.map fun t => match m.literal t.1 with
    | some true => t.2
    | some false => 0
    | none => min t.2 0)

/-- A model with its cost. -/
abbrev Best := Option (Assignment × Int)

/-- Goes on from an assignment with `next`, unless it conflicts or cannot be
cheaper than the best model so far. -/
def enter (P : Problem) (next : Assignment → Best → Checked Best) (m : Assignment) (best : Best) :
    Checked Best :=
  match P.propagate m, best with
  | none, _ => .ok best
  | some m, none => next m none
  | some m, some (b, least) => do
    if least ≤ (← P.leastCost m) then return best else next m (some (b, least))

/-- The best model that extends an assignment by values of the given atoms, of
which some may have values already. -/
def descend (P : Problem) : List Atom → Assignment → Best → Checked Best
  | [], m, _ => do return some (m, ← P.cost m)
  | a :: rest, m, best => match m.value a with
    | some _ => P.descend rest m best
    | none => do
      let best ← P.enter (P.descend rest) (m.assign a false) best
      if best.isSome && P.objective.isEmpty then return best
      P.enter (P.descend rest) (m.assign a true) best

/-- The best model among those of the first `n` atoms. -/
def best (P : Problem) (n : Nat) : Checked Best :=
  if P.clauses.any (·.isEmpty) then .ok none
  else P.enter (P.descend P.atoms) (.allOpen n) none

end Acquisition.Sat.Problem
