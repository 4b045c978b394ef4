import Acquisition.Network
import Acquisition.Simplify.Disjunction

/-!
# Contraction of networks of disjunctions

Pairs of constraints of a network are contracted as long as some rule applies.

* Beside `a`, a disjunction with the negation of `a` loses that member.
* Beside `a`, a constraint that `a` implies is dropped.
* Two disjunctions that differ in one member, `a` in one and its negation in the
  other, become the disjunction of what they share.
* Two disjunctions that differ in one member, `a` in one and `b` in the other,
  become the disjunction of what they share and a constraint equivalent to `a`
  and `b` together.

Between runs of these rules the disjunctions are simplified one by one, until
that leaves the network as it is. New disjunctions are registered in the arena.
-/
namespace Acquisition.Simplify

/-- A network without the `removed` constraints and with those `added`. -/
def replace (A : Arena) (N : Network) (removed added : List ConstraintId) : Checked Network :=
  (Network.ofScope N.scope).addAll A (N.toList.filter (!removed.contains ·) ++ added)

/-- The network in which the `removed` constraints make room for a disjunction. -/
def replaceByDisjunction (A : Arena) (N : Network) (removed : List ConstraintId)
    (members : IndexSet) : Checked (Option (Arena × Network)) := do
  let (c, A) ← A.disjunction members
  return some (A, ← replace A N removed [c])

/-- Contracts `second` beside an atomic constraint or a conjunction `first`. -/
def contractBeside (A : Arena) (muses : List IndexSet) (N : Network) (first second : ConstraintId) :
    Checked (Option (Arena × Network)) := do
  let opposite ← A.negation first
  let falsified ← match ← A.disjuncts? second with
    | some members => do
      if members.contains opposite then
        return ← replaceByDisjunction A N [second] (members.erase opposite)
      A.negations members
    | none => do pure (.singleton (← A.negation second))
  if isRefuted muses (falsified.insert first) then return some (A, ← replace A N [second] [])
  else return none

/-- Merges two disjunctions that differ in one member. -/
def merge (A : Arena) (muses : List IndexSet) (N : Network) (first second : ConstraintId)
    (left right : IndexSet) : Checked (Option (Arena × Network)) := do
  match (left.diff right).toList, (right.diff left).toList with
  | [a], [b] => do
    let common := left.erase a
    if (← A.negation a) == b then replaceByDisjunction A N [first, second] common
    else match ← jointName? A muses a b with
      | some r => replaceByDisjunction A N [first, second] (common.insert r)
      | none => return none
  | _, _ => return none

/-- Contracts a pair of constraints, if a rule applies. -/
def contractPair (A : Arena) (muses : List IndexSet) (N : Network)
    (pair : ConstraintId × ConstraintId) : Checked (Option (Arena × Network)) := do
  match ← A.disjuncts? pair.1 with
  | none => contractBeside A muses N pair.1 pair.2
  | some left => do
    match ← A.disjuncts? pair.2 with
    | some right =>
      if left.size = right.size then merge A muses N pair.1 pair.2 left right else return none
    | none => return none

/-- The pairs of different constraints of a network. -/
def pairs (N : Network) : List (ConstraintId × ConstraintId) :=
  N.toList.flatMap fun c => (N.toList.filter (· != c)).map (c, ·)

/-- Contracts the first pair to which a rule applies. -/
def contract? (A : Arena) (muses : List IndexSet) (N : Network) :
    Checked (Option (Arena × Network)) :=
  (pairs N).findSomeM? (contractPair A muses N)

/-- Contracts pairs as long as a rule applies. -/
def contractAll (muses : List IndexSet) : Nat → Arena → Network → Except Failure (Arena × Network)
  | 0, _, _ => throw .outOfFuel
  | fuel + 1, A, N => do
    match ← (contract? A muses N).mapError .fault with
    | some (A, N) => contractAll muses fuel A N
    | none => return (A, N)

/-- Simplifies one constraint, which changes only a disjunction. -/
def simplifyOne (muses : List IndexSet) (A : Arena) (c : ConstraintId) :
    Checked (ConstraintId × Arena) := do
  match ← A.disjuncts? c with
  | some members => do A.disjunction (← disjunction A muses members)
  | none => return (c, A)

/-- Adds the given constraints to a network, each one simplified. -/
def simplifyEach (muses : List IndexSet) :
    List ConstraintId → Arena → Network → Checked (Arena × Network)
  | [], A, N => .ok (A, N)
  | c :: cs, A, N => do
    let (c, A) ← simplifyOne muses A c
    simplifyEach muses cs A (← N.add A c)

/-- Simplifies the disjunctions of a network and contracts it, until it stays as it is. -/
def rounds (muses : List IndexSet) : Nat → Arena → Network → Except Failure (Arena × Network)
  | 0, _, _ => throw .outOfFuel
  | fuel + 1, A, N => do
    let (A, each) ← (simplifyEach muses N.toList A (.ofScope N.scope)).mapError .fault
    let (A, next) ← contractAll muses fuel A each
    if next.constraints = N.constraints then return (A, next) else rounds muses fuel A next

/-- A network that means the same as `N` where no known unsatisfiable subset
holds, and the arena with the disjunctions it needs. Small subsets are looked at
first. -/
def network (A : Arena) (N : Network) (muses : List IndexSet) (fuel : Nat) :
    Except Failure (Arena × Network) :=
  rounds (muses.mergeSort (·.size ≤ ·.size)) fuel A N

end Acquisition.Simplify
