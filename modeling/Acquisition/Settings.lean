import Acquisition.Limit
import Acquisition.Propositional.ClauseStore

/-!
# Settings

Each setting of an acquisition has a name, a value, and the bounds within which
it may be set. A value out of bounds is refused and leaves the setting as it is.
-/
namespace Acquisition

-- Powers are those of the core language, also where others are in scope.
attribute [local instance (high)] instPowNat

/-- How a satisfiable subset is grown to a maximal one. -/
inductive Growth
  /-- By all that holds on the witness at hand, then by trying the rest. -/
  | witness
  /-- By trying each constraint in turn. -/
  | resolve
deriving DecidableEq, Repr

namespace Growth

def rank : Growth → Nat
  | witness => 0
  | resolve => 1

instance : LE Growth := ⟨fun a b => a.rank ≤ b.rank⟩

instance (a b : Growth) : Decidable (a ≤ b) := Nat.decLe _ _

def name : Growth → String
  | witness => "Witness"
  | resolve => "Resolve"

/-- The word for the value in stored settings. -/
def tag : Growth → String
  | witness => "witness"
  | resolve => "resolve"

def all : List Growth := [witness, resolve]

def ofName? (s : String) : Option Growth := all.find? (·.name == s)

def ofTag? (s : String) : Option Growth := all.find? (·.tag == s)

end Growth

namespace Selection

def rank : Selection → Nat
  | firstUnmarked => 0
  | maxWeight => 1

instance : LE Selection := ⟨fun a b => a.rank ≤ b.rank⟩

instance (a b : Selection) : Decidable (a ≤ b) := Nat.decLe _ _

def name : Selection → String
  | firstUnmarked => "FirstUnmarked"
  | maxWeight => "MaxWeight"

/-- The word for the value in stored settings. -/
def tag : Selection → String
  | firstUnmarked => "first-unmarked"
  | maxWeight => "max-weight"

def all : List Selection := [firstUnmarked, maxWeight]

def ofName? (s : String) : Option Selection := all.find? (·.name == s)

def ofTag? (s : String) : Option Selection := all.find? (·.tag == s)

end Selection

structure Setting (α : Type) where
  name : String
  min : α
  max : α
  value : α

namespace Setting

variable {α : Type}

/-- Sets the value if it is within bounds, and tells whether it is. -/
def set [LE α] [DecidableLE α] (s : Setting α) (x : α) : Bool × Setting α :=
  if s.min ≤ x ∧ x ≤ s.max then (true, { s with value := x }) else (false, s)

def bound (s : Setting α) (min max : α) : Setting α := { s with min, max }

end Setting

structure Settings where
  /-- The limit of a run. -/
  timeLimit : Setting Duration := ⟨"time_limit", .zero, .longest, .zero⟩
  /-- The limit of a single call of a backend. -/
  solverLimit : Setting Duration := ⟨"solver_limit", .zero, .longest, .zero⟩
  /-- How long to look for an informative query by chance. -/
  samplingBudget : Setting Duration := ⟨"sampling_budget", .zero, .longest, ⟨0, 10 ^ (8 : Nat)⟩⟩
  /-- Whether the weights of constraints matter. -/
  weighted : Setting Bool := ⟨"weighted", false, true, false⟩
  clauseSelection : Setting Selection :=
    ⟨"clause_selection", .firstUnmarked, .maxWeight, .firstUnmarked⟩
  grow : Setting Growth := ⟨"grow", .witness, .resolve, .witness⟩
  /-- The seed of everything drawn at random. -/
  seed : Setting Nat := ⟨"seed", 0, 2 ^ (64 : Nat) - 1, 0⟩

instance : Inhabited Settings := ⟨{}⟩

end Acquisition
