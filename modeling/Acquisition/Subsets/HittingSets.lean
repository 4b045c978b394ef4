import Acquisition.IndexSet

/-!
# Minimal hitting sets

A set hits a collection of sets if it shares a member with each of them. The
minimal hitting sets of a collection are computed from those of the collection
less one set: one that hits the new set is kept, any other is extended by each
member of the new set, and only minimal results are kept, each once.
-/
namespace Acquisition.HittingSets

/-- The sets that come of one hitting set when `s` has to be hit too. -/
def extensions (s hitting : IndexSet) : List IndexSet :=
  if hitting.disjoint s then s.toList.map hitting.insert else [hitting]

/-- Whether another set of a list, with its places, makes a set superfluous: a
proper subset of it, or the same set at an earlier place. -/
def isDominated (sets : List (IndexSet × Nat)) (entry : IndexSet × Nat) : Bool :=
  sets.any fun other => other.2 != entry.2 && other.1.subset entry.1 &&
    (other.1 != entry.1 || other.2 < entry.2)

/-- The minimal sets of a list, in order and each once. -/
def minimal (sets : List IndexSet) : List IndexSet :=
  (sets.zipIdx.filter fun entry => !isDominated sets.zipIdx entry).map (·.1)

/-- The minimal hitting sets of a collection with one more set. -/
def extend (hitting : List IndexSet) (s : IndexSet) : List IndexSet :=
  minimal (hitting.flatMap (extensions s))

/-- The minimal hitting sets of a collection. -/
def ofCollection (sets : List IndexSet) : List IndexSet := sets.foldl extend [.empty]

end Acquisition.HittingSets
