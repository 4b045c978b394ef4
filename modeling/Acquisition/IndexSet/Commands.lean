import Acquisition.IndexSet
import Acquisition.IndexSet.Words

/-!
# Commands on sets

Sets of indices are worked on in registers. A command makes a set in a register,
changes the set that is there, or asks something of it, and has an answer. What
a command does is said once for all the ways to keep sets.
-/
namespace Acquisition

/-- What can be done with sets of indices that are kept as values of `α`. -/
structure SetOperations (α : Type) where
  new : α
  withCapacity : Nat → α
  ofList : List Nat → α
  put : α → Nat → Bool × α
  take : α → Nat → Bool × α
  clear : α → α
  extend : α → List Nat → α
  union : α → α → α
  inter : α → α → α
  diff : α → α → α
  contains : α → Nat → Bool
  size : α → Nat
  isEmpty : α → Bool
  first? : α → Option Nat
  subset : α → α → Bool
  disjoint : α → α → Bool
  equal : α → α → Bool
  /-- Whether two sets are the same to a hash function. -/
  alike : α → α → Bool
  toList : α → List Nat
  render : α → String

def Words.operations : SetOperations Words where
  new := Words.new
  withCapacity := Words.withCapacity
  ofList := Words.ofList
  put := Words.put
  take := Words.take
  clear := Words.clear
  extend := Words.extend
  union := Words.union
  inter := Words.inter
  diff := Words.diff
  contains := Words.contains
  size := Words.size
  isEmpty := Words.isEmpty
  first? := Words.first?
  subset := Words.subset
  disjoint := Words.disjoint
  equal s t := s == t
  alike s t := s.significant == t.significant
  toList := Words.toList
  render := Words.render

def IndexSet.operations : SetOperations IndexSet where
  new := IndexSet.empty
  withCapacity _ := IndexSet.empty
  ofList := IndexSet.ofList
  put := IndexSet.put
  take := IndexSet.take
  clear _ := IndexSet.empty
  extend := IndexSet.extend
  union := IndexSet.union
  inter := IndexSet.inter
  diff := IndexSet.diff
  contains := IndexSet.contains
  size := IndexSet.size
  isEmpty := IndexSet.isEmpty
  first? := IndexSet.first?
  subset := IndexSet.subset
  disjoint := IndexSet.disjoint
  equal s t := s == t
  alike s t := s.toList == t.toList
  toList := IndexSet.toList
  render := IndexSet.render

/-- A command on the set in register `r`. Another set is that of register `t`. -/
inductive Command where
  | new (r : Nat)
  | withCapacity (r bits : Nat)
  | ofList (r : Nat) (is : List Nat)
  | clone (r t : Nat)
  | insert (r i : Nat)
  | remove (r i : Nat)
  | clear (r : Nat)
  | extend (r : Nat) (is : List Nat)
  | union (r t : Nat)
  | inter (r t : Nat)
  | diff (r t : Nat)
  | contains (r i : Nat)
  | size (r : Nat)
  | isEmpty (r : Nat)
  | first (r : Nat)
  | subset (r t : Nat)
  | disjoint (r t : Nat)
  | equal (r t : Nat)
  | alike (r t : Nat)
  | list (r : Nat)
  | render (r : Nat)
deriving DecidableEq, Repr

inductive Reply where
  | done
  | truth (b : Bool)
  | count (n : Nat)
  | index (i : Option Nat)
  | indices (is : List Nat)
  | text (s : String)
deriving DecidableEq, Repr

/-- The registers with the set of register `r` replaced. -/
def assign {α : Type} (σ : Nat → α) (r : Nat) (s : α) : Nat → α := fun k => if k = r then s else σ k

namespace SetOperations

variable {α : Type} (O : SetOperations α)

def step (σ : Nat → α) : Command → Reply × (Nat → α)
  | .new r => (.done, assign σ r O.new)
  | .withCapacity r bits => (.done, assign σ r (O.withCapacity bits))
  | .ofList r is => (.done, assign σ r (O.ofList is))
  | .clone r t => (.done, assign σ r (σ t))
  | .insert r i => (.truth (O.put (σ r) i).1, assign σ r (O.put (σ r) i).2)
  | .remove r i => (.truth (O.take (σ r) i).1, assign σ r (O.take (σ r) i).2)
  | .clear r => (.done, assign σ r (O.clear (σ r)))
  | .extend r is => (.done, assign σ r (O.extend (σ r) is))
  | .union r t => (.done, assign σ r (O.union (σ r) (σ t)))
  | .inter r t => (.done, assign σ r (O.inter (σ r) (σ t)))
  | .diff r t => (.done, assign σ r (O.diff (σ r) (σ t)))
  | .contains r i => (.truth (O.contains (σ r) i), σ)
  | .size r => (.count (O.size (σ r)), σ)
  | .isEmpty r => (.truth (O.isEmpty (σ r)), σ)
  | .first r => (.index (O.first? (σ r)), σ)
  | .subset r t => (.truth (O.subset (σ r) (σ t)), σ)
  | .disjoint r t => (.truth (O.disjoint (σ r) (σ t)), σ)
  | .equal r t => (.truth (O.equal (σ r) (σ t)), σ)
  | .alike r t => (.truth (O.alike (σ r) (σ t)), σ)
  | .list r => (.indices (O.toList (σ r)), σ)
  | .render r => (.text (O.render (σ r)), σ)

/-- The replies to commands in order, and the registers after them. -/
def run (σ : Nat → α) : List Command → List Reply × (Nat → α)
  | [] => ([], σ)
  | c :: cs =>
    let (a, σ) := O.step σ c
    let (as, σ) := run σ cs
    (a :: as, σ)

end SetOperations

end Acquisition
