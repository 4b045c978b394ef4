import Acquisition.Failure

/-!
# Domains

Each variable ranges over an interval of integers, which may be empty.

There is room for less than `2 ^ 63` bytes in a list, where an integer takes 8 of
them and an interval takes 24. It is a fault to list more than that.
-/
namespace Acquisition

-- Powers are those of the core language, also where others are in scope.
attribute [local instance (high)] instPowNat

/-- The integers from `low` to `high`, both included. -/
structure Interval where
  low : Int
  high : Int
deriving DecidableEq, Repr

namespace Interval

def isEmpty (i : Interval) : Bool := i.high < i.low

/-- The values of the interval in increasing order. -/
def values (i : Interval) : List Int :=
  (List.range (i.high + 1 - i.low).toNat).map fun (k : Nat) => i.low + k

theorem mem_values {i : Interval} {x : Int} : x ∈ i.values ↔ i.low ≤ x ∧ x ≤ i.high := by
  simp only [values, List.mem_map, List.mem_range]
  constructor
  · rintro ⟨k, hk, rfl⟩; omega
  · rintro ⟨h, h'⟩; exact ⟨(x - i.low).toNat, by omega, by omega⟩

/-- The values of the interval in increasing order, if there is room for them. -/
def list (i : Interval) : Checked (List Int) :=
  if 8 * (i.high + 1 - i.low) < 2 ^ (63 : Nat) then .ok i.values else .error .noRoom

end Interval

/-- The interval of each variable, from the first variable on. -/
structure Domain where
  intervals : Array Interval := #[]
deriving DecidableEq, Repr

namespace Domain

/-- The domain with given intervals. -/
def ofList (is : List Interval) : Domain := ⟨is.toArray⟩

/-- The same interval for each of the first `count` variables. -/
def uniform (count : Nat) (i : Interval) : Checked Domain :=
  if 24 * count < 2 ^ (63 : Nat) then .ok ⟨Array.replicate count i⟩ else .error .noRoom

def size (D : Domain) : Nat := D.intervals.size

def isEmpty (D : Domain) : Bool := D.intervals.isEmpty

def interval? (D : Domain) (v : Var) : Option Interval := D.intervals[v]?

end Domain

end Acquisition
