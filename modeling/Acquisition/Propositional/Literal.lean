import Acquisition.Failure

/-!
# Literals

A literal pairs an atom with the constraint that it stands for, and a sign. The
positive literal of a constraint says that the constraint belongs to the target,
the negated one that it does not.

The negated literal of a constraint is not the positive literal of the negated
constraint. The two have atoms of their own, and only clauses relate them.
-/
namespace Acquisition

structure Literal where
  atom : Atom
  constraint : ConstraintId
  negated : Bool := false
deriving DecidableEq, Repr

namespace Literal

/-- Literals are ordered by atom, then by constraint, positive before negated. -/
instance : LT Literal where
  lt a b := a.atom < b.atom ∨ a.atom = b.atom ∧ (a.constraint < b.constraint ∨
    a.constraint = b.constraint ∧ a.negated = false ∧ b.negated = true)

theorem lt_def (a b : Literal) : a < b ↔ a.atom < b.atom ∨ a.atom = b.atom ∧
    (a.constraint < b.constraint ∨
      a.constraint = b.constraint ∧ a.negated = false ∧ b.negated = true) := Iff.rfl

instance (a b : Literal) : Decidable (a < b) := decidable_of_iff' _ (lt_def a b)

protected def compare (a b : Literal) : Ordering :=
  if a < b then .lt else if a = b then .eq else .gt

protected theorem lt_trans {a b c : Literal} (h : a < b) (h' : b < c) : a < c := by
  rw [lt_def] at *; grind

protected theorem lt_of_not_lt {a b : Literal} (h : ¬ a < b) (h' : a ≠ b) : b < a := by
  obtain ⟨i, c, s⟩ := a
  obtain ⟨j, d, t⟩ := b
  rw [lt_def] at *
  cases s <;> cases t <;> grind

/-- The literal with the other sign. -/
def negate (l : Literal) : Literal := { l with negated := !l.negated }

/-- Whether two literals are of one constraint. -/
def sameConstraint (a b : Literal) : Bool := a.constraint == b.constraint

/-- Whether two literals are of one constraint and differ in sign. -/
def isComplement (a b : Literal) : Bool := a.sameConstraint b && a.negated != b.negated

def render (l : Literal) : String := (if l.negated then "-" else "") ++ toString l.atom

end Literal

end Acquisition
