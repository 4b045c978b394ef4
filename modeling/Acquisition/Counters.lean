import Acquisition.Failure

/-!
# Counters

What an acquisition has done so far, in numbers.
-/
namespace Acquisition

structure Counters where
  /-- Queries put to the oracle or replayed. -/
  queries : Nat := 0
  /-- Queries accepted. -/
  positive : Nat := 0
  /-- Queries rejected. -/
  negative : Nat := 0
  satCalls : Nat := 0
  cpCalls : Nat := 0
  /-- Conflicts that were made minimal. -/
  explanations : Nat := 0
  /-- Minimal unsatisfiable subsets found by the last enumeration. -/
  muses : Nat := 0
  /-- Contradictions added to the background. -/
  contradictions : Nat := 0
  /-- Whether some constraint was learnt to belong to the target. -/
  firstLearned : Bool := false
deriving DecidableEq, Repr

instance : Inhabited Counters := ⟨{}⟩

end Acquisition
