import Acquisition.Random.Stream

/-!
# Shuffles

The last value of a list is exchanged with one drawn from the whole list, the
value before it with one drawn from those up to it, and so on to the second.
A shuffled list holds the same values.
-/
namespace Acquisition.Stream

variable {α : Type}

/-- Exchanges the values at the places from `i` down to the second, each with one
drawn from those up to it. -/
def exchange : Nat → Array α → Stream → Array α × Stream
  | 0, xs, g => (xs, g)
  | i + 1, xs, g =>
    let (j, g) := g.below (i + 2)
    exchange i (xs.swapIfInBounds (i + 1) j) g

/-- The values of a list in an order drawn from the stream. -/
def shuffle (xs : List α) (g : Stream) : List α × Stream :=
  let (ys, g) := exchange (xs.length - 1) xs.toArray g
  (ys.toList, g)

theorem swapIfInBounds_perm (xs : Array α) (i j : Nat) : (xs.swapIfInBounds i j).Perm xs := by
  unfold Array.swapIfInBounds
  split
  · split
    · exact Array.swap_perm ..
    · exact .refl xs
  · exact .refl xs

theorem exchange_perm (i : Nat) (xs : Array α) (g : Stream) : (exchange i xs g).1.Perm xs := by
  induction i generalizing xs g with
  | zero => exact .refl xs
  | succ i ih =>
    unfold exchange
    exact (ih _ _).trans (swapIfInBounds_perm ..)

theorem shuffle_perm (xs : List α) (g : Stream) : (shuffle xs g).1.Perm xs :=
  (exchange_perm _ _ g).toList

end Acquisition.Stream
