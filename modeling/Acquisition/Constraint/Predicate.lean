import Acquisition.Checked
import Acquisition.Constraint.Comparison

/-!
# Atomic constraints

An atomic constraint compares a variable with a constant, two variables, or the
sum of some variables with a bound. It lists its variables in the order in which
it expects their values.

Weights rank constraints when models of a theory are compared. They are no part
of a constraint's identity: two constraints with the same comparison on the same
variables are one, whatever their weights.
-/
namespace Acquisition

inductive Predicate
  /-- A variable compared with a constant. -/
  | unary (var : Var) (op : Comparison) (constant : Value) (weight : Nat)
  /-- Two variables compared. -/
  | binary (left right : Var) (op : Comparison) (weight : Nat)
  /-- The sum of the variables compared with a bound. -/
  | sum (vars : List Var) (op : Comparison) (bound : Value)
deriving DecidableEq, Repr

namespace Predicate

def vars : Predicate → List Var
  | unary v _ _ _ => [v]
  | binary x y _ _ => [x, y]
  | sum vs _ _ => vs

def weight : Predicate → Nat
  | unary _ _ _ w => w
  | binary _ _ _ w => w
  | sum _ _ _ => 1

def negate : Predicate → Predicate
  | unary v op k w => unary v op.complement k w
  | binary x y op w => binary x y op.complement w
  | sum vs op b => sum vs op.complement b

/-- What identifies a constraint: all of it but the weight. -/
def shape : Predicate → Predicate
  | unary v op k _ => unary v op k 1
  | binary x y op _ => binary x y op 1
  | p => p

/-- Whether two constraints have the same shape. -/
def same : Predicate → Predicate → Bool
  | unary v op k _, unary v' op' k' _ => v == v' && k == k' && op == op'
  | binary x y op _, binary x' y' op' _ => x == x' && y == y' && op == op'
  | sum vs op b, sum vs' op' b' => vs == vs' && b == b' && op == op'
  | _, _ => false

/-- Whether the constraint holds on values given in the order of its variables.
Further values are passed over by comparisons of one or two variables, while a
sum takes in every value it is given. -/
def holds : Predicate → List Value → Checked Bool
  | unary _ op k _, a :: _ => .ok (op.holds a k)
  | binary _ _ op _, a :: b :: _ => .ok (op.holds a b)
  | sum _ op bound, values => do return op.holds (← Checked.sumSigned values) bound
  | _, _ => .error .tooFewValues

/-- The name of the constraint, without its variables. -/
def name : Predicate → String
  | unary _ op k _ => op.name ++ "XCst" ++ toString k
  | binary _ _ op _ => op.name ++ "XY"
  | sum _ op b => "Sum" ++ op.name ++ toString b

/-- The name of the constraint followed by its variables. -/
def fullName (p : Predicate) : String :=
  p.name ++ "[" ++ ", ".intercalate (p.vars.map toString) ++ "]"

/-- The text of a variable. -/
def varName (v : Var) : String := "x" ++ toString v

/-- The constraint as an SMT-LIB term. -/
def smt : Predicate → String
  | unary v op k _ => op.smt (varName v) (toString k)
  | binary x y op _ => op.smt (varName x) (varName y)
  | sum vs op b =>
    "(" ++ op.name ++ " (+ " ++ " ".intercalate (vs.map varName) ++ ") " ++ toString b ++ ")"

theorem negate_negate (p : Predicate) : p.negate.negate = p := by
  cases p <;> simp [negate, Comparison.complement_complement]

theorem shape_negate (p : Predicate) : p.negate.shape = p.shape.negate := by cases p <;> rfl

theorem same_iff (p q : Predicate) : p.same q = true ↔ p.shape = q.shape := by
  cases p <;> cases q <;> simp [same, shape, and_assoc, and_comm, and_left_comm]

theorem vars_negate (p : Predicate) : p.negate.vars = p.vars := by cases p <;> rfl

end Predicate

end Acquisition
