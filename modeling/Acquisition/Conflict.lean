import Acquisition.Backend

/-!
# Minimal conflicts

A network that cannot hold together with a background has a minimal subset that
cannot. It is found by halves: first a minimal part of the right half that
conflicts with the background and the whole left half, then a minimal part of
the left half that conflicts with the background and the part just found. The
two parts together are the minimal conflict.

When the background has just grown and conflicts already by itself, nothing of
the constraints at hand is needed.
-/
namespace Acquisition.Conflict

variable {σ : Type} (B : CpBackend σ) (A : Arena) (deadline : Limit)

/-- The network of some constraints over their own variables. -/
def networkOf (cs : List ConstraintId) : Action σ Network :=
  .ofChecked (Network.ofList A .empty cs)

/-- A minimal part of `N` that conflicts with `background`, which is checked for
a conflict of its own if it has `grown`. The first argument is no less than the
count of constraints of `N`. -/
def minimalPart : Nat → Network → Bool → Network → Action σ Network
  | 0, _, _, N => return N
  | fuel + 1, background, grown, N => do
    deadline.poll
    if grown then
      unless ← B.satisfiable A background do return {}
    match N.toList with
    | [] | [_] => return N
    | ids => do
      let left ← networkOf A (ids.take (ids.length / 2))
      let right ← networkOf A (ids.drop (ids.length / 2))
      let fromRight ← minimalPart fuel (background.union left) true right
      let fromLeft ←
        minimalPart fuel (background.union fromRight) (!fromRight.isEmpty) left
      return fromLeft.union fromRight

/-- A conflict that holds together with the background after all is a fault. An
error while this is looked into is passed over. -/
def confirm (background conflict : Network) : Action σ Unit := do
  match ← (B.satisfiable A (background.union conflict)).attempt with
  | .ok true => .fault .consistentConflict
  | .error (.fault f) => .fault f
  | _ => pure ()

/-- A minimal subset of a network that conflicts with a background which is
consistent, where the network as a whole conflicts with it. Nothing is left of a
network without constraints. -/
def explain (background N : Network) : Action σ Network := do
  if N.isEmpty then return {}
  let conflict ← minimalPart B A deadline N.size background false N
  confirm B A background conflict
  return conflict

end Acquisition.Conflict
