import Acquisition.Constraint.Arena

/-!
# Simplification of disjunctions

A minimal unsatisfiable subset reads as an implication: of `a` and the negation
of `b` it says that `a` implies `b`, and of `r` and the negations of some
constraints that `r` implies one of these.

A member of a disjunction is dropped when some known unsatisfiable subset lies
in the member together with the negations of the others, for then the member
implies one of the others. Members that are equivalent, taken together, to a
single constraint are then replaced by it.
-/
namespace Acquisition.Simplify

/-- Whether some known unsatisfiable subset lies in a set. -/
def isRefuted (muses : List IndexSet) (s : IndexSet) : Bool := muses.any (·.subset s)

/-- Whether the set of the given constraints is a known unsatisfiable subset. -/
def isKnown (muses : List IndexSet) (cs : List ConstraintId) : Bool := muses.contains (.ofList cs)

variable (A : Arena) (muses : List IndexSet)

/-- Drops each of the given members that implies one of the others that are left,
as long as more than one is left. -/
def dropImplied : IndexSet → List ConstraintId → Checked IndexSet
  | kept, [] => .ok kept
  | kept, c :: cs => do
    if kept.size = 1 then return kept
    let others ← (kept.toList.filter (· != c)).mapM A.negation
    if isRefuted muses (.ofList (c :: others)) then dropImplied (kept.erase c) cs
    else dropImplied kept cs

/-- The members that a constraint `r` of an unsatisfiable subset stands for, if
they are all in the disjunction and each implies `r`. -/
def renamedBy (disjunction mus : IndexSet) (r : ConstraintId) :
    Checked (Option (IndexSet × ConstraintId)) := do
  let renamed := IndexSet.ofList (← (mus.toList.filter (· != r)).mapM A.negation)
  if !renamed.subset disjunction then return none
  let opposite ← A.negation r
  if renamed.toList.all fun c => isKnown muses [c, opposite] then return some (renamed, r)
  else return none

/-- Some members of a disjunction, two at least, and a constraint equivalent to
their disjunction. -/
def renaming? (disjunction : IndexSet) : Checked (Option (IndexSet × ConstraintId)) :=
  let candidates := (muses.filter (2 < ·.size)).flatMap fun mus => mus.toList.map (mus, ·)
  candidates.findSomeM? fun (mus, r) => renamedBy A muses disjunction mus r

/-- Replaces members by equivalent constraints. Each time two members at least
make room for one, so there are fewer replacements than members, and one more
look finds none. -/
def renameAll : Nat → IndexSet → Checked IndexSet
  | 0, kept => .ok kept
  | fuel + 1, kept => do
    match ← renaming? A muses kept with
    | some (renamed, r) => renameAll fuel ((kept.diff renamed).insert r)
    | none => return kept

/-- The members of a disjunction that the others do not imply, with equivalent
groups of members replaced. -/
def disjunction (members : IndexSet) : Checked IndexSet := do
  let kept ← dropImplied A muses members members.toList
  renameAll A muses (kept.size + 1) kept

/-- A constraint equivalent to `a` and `b` together. -/
def jointName? (a b : ConstraintId) : Checked (Option ConstraintId) :=
  let candidates := muses.filter fun mus => mus.size == 3 && mus.contains a && mus.contains b
  candidates.findSomeM? fun mus => do
    match mus.toList.find? fun m => m != a && m != b with
    | none => return none
    | some other => do
      let r ← A.negation other
      if isKnown muses [← A.negation a, r] && isKnown muses [← A.negation b, r] then
        return some r
      else return none

end Acquisition.Simplify
