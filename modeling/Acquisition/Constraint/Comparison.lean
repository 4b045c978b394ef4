/-!
# Comparisons

The six comparisons of integers. Each has a complement, the comparison that
holds exactly where it does not.
-/
namespace Acquisition

inductive Comparison
  | eq | ne | lt | le | gt | ge
deriving DecidableEq, Repr

namespace Comparison

def complement : Comparison → Comparison
  | eq => ne
  | ne => eq
  | lt => ge
  | ge => lt
  | gt => le
  | le => gt

def holds : Comparison → Int → Int → Bool
  | eq, a, b => a == b
  | ne, a, b => a != b
  | lt, a, b => decide (a < b)
  | le, a, b => decide (a ≤ b)
  | gt, a, b => decide (b < a)
  | ge, a, b => decide (b ≤ a)

/-- The word by which names of constraints refer to a comparison. -/
def name : Comparison → String
  | eq => "Equal"
  | ne => "Different"
  | lt => "Less"
  | le => "LessEqual"
  | gt => "Greater"
  | ge => "GreaterEqual"

/-- The comparison of two terms as an SMT-LIB term. -/
def smt : Comparison → String → String → String
  | eq, a, b => "(= " ++ a ++ " " ++ b ++ ")"
  | ne, a, b => "(not (= " ++ a ++ " " ++ b ++ "))"
  | lt, a, b => "(< " ++ a ++ " " ++ b ++ ")"
  | le, a, b => "(<= " ++ a ++ " " ++ b ++ ")"
  | gt, a, b => "(> " ++ a ++ " " ++ b ++ ")"
  | ge, a, b => "(>= " ++ a ++ " " ++ b ++ ")"

theorem complement_complement (op : Comparison) : op.complement.complement = op := by
  cases op <;> rfl

theorem complement_ne (op : Comparison) : op.complement ≠ op := by cases op <;> decide

theorem holds_complement (op : Comparison) (a b : Int) :
    op.complement.holds a b = !op.holds a b := by
  rw [Bool.eq_iff_iff]
  cases op <;> simp [complement, holds]

end Comparison

end Acquisition
