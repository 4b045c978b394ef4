import Acquisition.Failure

/-!
# Effects

Backends, oracles and enumerators change a state while they work, and any step
may fail. Such work is an `Action`: it starts in a state and ends in a state
with either a value or a failure. A failure keeps the state reached, so that a
caller sees the part of the work that was done.

A `Procedure` is an action of something with a state of its own, such as a
learner, that calls out to a surrounding world. The two states stay apart: its
own state changes by `update`, the world only by `call`.
-/
namespace Acquisition

/-- Work on states of `σ`. What it did to the state before it failed stays done. -/
abbrev Action (σ α : Type) := ExceptT Failure (StateM σ) α

/-- Work of an owner with states of `τ` in a world with states of `σ`. -/
abbrev Procedure (τ σ α : Type) := Action (τ × σ) α

namespace Action

variable {σ α : Type}

def fail (e : ErrorKind) : Action σ α := throw (.error e)

def fault (f : Fault) : Action σ α := throw (.fault f)

def ofExcept : Except Failure α → Action σ α
  | .ok a => pure a
  | .error f => throw f

/-- A value, or the breach of a promise found while computing it. -/
def ofChecked (r : Checked α) : Action σ α := ofExcept (r.mapError .fault)

/-- A value, or a foreseen error. -/
def ofForeseen (r : Except ErrorKind α) : Action σ α := ofExcept (r.mapError .error)

/-- The outcome of an action started in `s`, with the state it leaves. -/
def outcome (x : Action σ α) (s : σ) : Except Failure α × σ := x.run s

/-- The outcome of an action as a value. Only the state tells that it was run. -/
def attempt (x : Action σ α) : Action σ (Except Failure α) :=
  ExceptT.mk do return .ok (← x.run)

/-- An action given by what it does to each state. -/
def ofStep (step : σ → Except Failure α × σ) : Action σ α := ExceptT.mk step

/-- An action on a part of the state. -/
def zoom {τ : Type} (part : σ → τ) (put : τ → σ → σ) (x : Action τ α) : Action σ α :=
  ofStep fun s => let (r, t) := x.outcome (part s); (r, put t s)

end Action

namespace Procedure

variable {τ σ α : Type}

/-- The state of the owner. -/
def own : Procedure τ σ τ := do return (← get).1

def update (f : τ → τ) : Procedure τ σ Unit := modify fun (t, s) => (f t, s)

/-- An action on the world alone. -/
def call (x : Action σ α) : Procedure τ σ α := Action.zoom (·.2) (fun s p => (p.1, s)) x

/-- The work of a part of the owner. -/
def within {υ : Type} (part : τ → υ) (put : υ → τ → τ) (x : Procedure υ σ α) : Procedure τ σ α :=
  Action.zoom (fun p => (part p.1, p.2)) (fun q p => (put q.1 p.1, q.2)) x

/-- An action on the world that is told the state of the owner. -/
def callWith (x : τ → Action σ α) : Procedure τ σ α := do call (x (← own))

/-- A computation on the state of the owner that may break a promise. -/
def check (f : τ → Checked α) : Procedure τ σ α := do Action.ofChecked (f (← own))

end Procedure

end Acquisition
