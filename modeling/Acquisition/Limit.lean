import Acquisition.Checked
import Acquisition.Effect

/-!
# Limits of time

Time enters an acquisition only through limits that are polled at fixed points.
A limit either leaves all the time that is needed or has passed already when it
is first polled. Limits of less than a microsecond, the time it takes to get to
a poll, are of the second kind, and a limit of zero stands for no limit.
-/
namespace Acquisition

-- Powers are those of the core language, also where others are in scope.
attribute [local instance (high)] instPowNat

/-- A span of time in seconds and nanoseconds, of which there are less than a
second's worth. -/
structure Duration where
  secs : Nat := 0
  nanos : Nat := 0
deriving DecidableEq, Repr

namespace Duration

/-- Whole seconds among the nanoseconds are carried over, as long as the seconds
fit a 64-bit word. -/
def of (secs nanos : Nat) : Checked Duration := do
  return ⟨← Checked.unsigned (secs + nanos / 10 ^ (9 : Nat)), nanos % 10 ^ (9 : Nat)⟩

def zero : Duration := {}

/-- The longest span, as many seconds as fit a 64-bit word and all but a second. -/
def longest : Duration := ⟨2 ^ (64 : Nat) - 1, 10 ^ (9 : Nat) - 1⟩

instance : LE Duration where
  le a b := a.secs < b.secs ∨ a.secs = b.secs ∧ a.nanos ≤ b.nanos

theorem le_def (a b : Duration) :
    a ≤ b ↔ a.secs < b.secs ∨ a.secs = b.secs ∧ a.nanos ≤ b.nanos := Iff.rfl

instance (a b : Duration) : Decidable (a ≤ b) := decidable_of_iff' _ (le_def a b)

end Duration

inductive Limit
  /-- There is all the time that is needed. -/
  | unbounded
  /-- The time is up. -/
  | passed
deriving DecidableEq, Repr

namespace Limit

instance : Inhabited Limit := ⟨unbounded⟩

/-- The limit a span of time from now, where no time stands for no limit. -/
def after (d : Duration) : Limit :=
  if d = .zero then unbounded
  else if d.secs = 0 ∧ d.nanos < 1000 then passed
  else unbounded

def isPassed (l : Limit) : Bool := l == passed

/-- Fails once the time is up. -/
def poll {σ : Type} (l : Limit) : Action σ Unit :=
  if l.isPassed then .fail .timeout else pure ()

end Limit

end Acquisition
