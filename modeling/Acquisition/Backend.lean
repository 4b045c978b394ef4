import Acquisition.Effect
import Acquisition.Limit
import Acquisition.Network
import Acquisition.Propositional.Formula

/-!
# Backends

An acquisition calls out to two backends. The propositional one allocates atoms
and finds models of formulas; the constraint one finds witnesses of networks.
Both live in one world, the states of which they change.

What is asked of a backend: a model is found if and only if the formula is
satisfiable, and a witness, which assigns the whole scope, if and only if the
network is. Nothing is asked about which one is found.
-/
namespace Acquisition

/-- The constraints whose atoms are true in a model. -/
abbrev Model := List ConstraintId

structure SatBackend (σ : Type) where
  /-- A new atom for a constraint, under a name, as a positive literal. -/
  allocate : ConstraintId → String → Action σ Literal
  /-- A model of a formula, if there is one. -/
  solve : Formula → Action σ (Option Model)
  setLimit : Limit → Action σ Unit
  /-- Whether the last call ran past the limit. -/
  timedOut : σ → Bool

structure CpBackend (σ : Type) where
  /-- A witness of a network, if there is one. -/
  witness : Arena → Network → Action σ (Option Query)
  setLimit : Limit → Action σ Unit
  /-- Whether the last call ran past the limit. -/
  timedOut : σ → Bool

namespace SatBackend

variable {σ : Type}

/-- A model of a clause store, if there is one. -/
def solveStore (B : SatBackend σ) (S : ClauseStore) : Action σ (Option Model) :=
  B.solve (.ofStore S)

end SatBackend

namespace CpBackend

variable {σ : Type}

def satisfiable (B : CpBackend σ) (A : Arena) (N : Network) : Action σ Bool :=
  Option.isSome <$> B.witness A N

/-- Whether a network has no witness in which the negation of one of the given
constraints holds, tried in order up to the first that has. -/
def impliesAll (B : CpBackend σ) (A : Arena) (N : Network) : List ConstraintId → Action σ Bool
  | [] => pure true
  | c :: cs => do
    let refuted ← Action.ofChecked (do N.add A (← A.negation c))
    if ← B.satisfiable A refuted then return false else B.impliesAll A N cs

/-- Whether two networks have the same solutions among those of `known`: each
has to imply what only the other one has. -/
def equivalent (B : CpBackend σ) (A : Arena) (N M known : Network) : Action σ Bool := do
  let only (P Q : Network) : List ConstraintId := P.toList.filter (!Q.contains ·)
  if ← B.impliesAll A (N.union known) (only M N) then
    B.impliesAll A (M.union known) (only N M)
  else return false

end CpBackend

/-- A call of a backend with its outcome. -/
inductive Call
  | cp (N : Network) (outcome : Except Failure (Option Query))
  | sat (F : Formula) (outcome : Except Failure (Option Model))

variable {σ : Type}

/-- A propositional backend that notes each call in the world. -/
def SatBackend.traced (B : SatBackend σ) (note : Call → σ → σ) : SatBackend σ :=
  { B with
    solve := fun F => .ofStep fun s =>
      let (r, s) := (B.solve F).outcome s
      (r, note (.sat F r) s) }

/-- A constraint backend that notes each call in the world. -/
def CpBackend.traced (B : CpBackend σ) (note : Call → σ → σ) : CpBackend σ :=
  { B with
    witness := fun A N => .ofStep fun s =>
      let (r, s) := (B.witness A N).outcome s
      (r, note (.cp N r) s) }

/-- A constraint backend that answers as long as there are calls left, and then
times out without being reached. -/
def CpBackend.limited (B : CpBackend σ) (left : σ → Option Nat) (spend : σ → σ) : CpBackend σ :=
  { B with
    witness := fun A N => do
      match left (← get) with
      | none => B.witness A N
      | some 0 => .fail .backendTimeout
      | some (_ + 1) => do modify spend; B.witness A N }

end Acquisition
