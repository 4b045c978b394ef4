import Acquisition.IndexSet.Members
import Acquisition.Constraint.Predicate

/-!
# Terms over atomic constraints

A term is an atomic constraint, a disjunction, or a conjunction of terms.
Members of a disjunction or conjunction are in order, and are looked at in that
order.

A term is evaluated on a partial assignment. Its value is open when it hangs on
a variable without a value: an atomic constraint is open as soon as one of its
variables is, a disjunction is settled by one member that holds, a conjunction
by one that fails. Members after the one that settles a term are not looked at.
-/
namespace Acquisition

inductive Term
  | atomic (p : Predicate)
  /-- Holds when some member holds. -/
  | any (members : List Term)
  /-- Holds when every member holds. -/
  | all (members : List Term)
deriving Repr

namespace Term

/-- The value of an atomic constraint on a partial assignment, open when some
variable is. -/
def evalPredicate (f : Var → Option Value) (p : Predicate) : Checked (Option Bool) :=
  match p.vars.mapM f with
  | none => .ok none
  | some values => some <$> p.holds values

mutual

def eval (f : Var → Option Value) : Term → Checked (Option Bool)
  | atomic p => evalPredicate f p
  | any ts => evalAny f ts
  | all ts => evalAll f ts

def evalAny (f : Var → Option Value) : List Term → Checked (Option Bool)
  | [] => .ok (some false)
  | t :: ts => do
    match ← t.eval f with
    | some true => return some true
    | some false => evalAny f ts
    | none => return if (← evalAny f ts) == some true then some true else none

def evalAll (f : Var → Option Value) : List Term → Checked (Option Bool)
  | [] => .ok (some true)
  | t :: ts => do
    match ← t.eval f with
    | some false => return some false
    | some true => evalAll f ts
    | none => return if (← evalAll f ts) == some false then some false else none

end

mutual

/-- The complement of a term, with disjunctions and conjunctions exchanged. -/
def negate : Term → Term
  | atomic p => atomic p.negate
  | any ts => all (negateAll ts)
  | all ts => any (negateAll ts)

def negateAll : List Term → List Term
  | [] => []
  | t :: ts => t.negate :: negateAll ts

end

mutual

/-- The weight of a term, the sum of the weights of its members. -/
def weight : Term → Checked Nat
  | atomic p => .ok p.weight
  | any ts => sumWeights 0 ts
  | all ts => sumWeights 0 ts

def sumWeights (total : Nat) : List Term → Checked Nat
  | [] => .ok total
  | t :: ts => do sumWeights (← Checked.unsigned (total + (← t.weight))) ts

end

mutual

/-- The variables of the atomic constraints of a term. -/
def scope : Term → IndexSet
  | atomic p => .ofList p.vars
  | any ts => scopes ts
  | all ts => scopes ts

def scopes : List Term → IndexSet
  | [] => .empty
  | t :: ts => t.scope.union (scopes ts)

end

/-- The variables of a term: in its own order for an atomic constraint, and
increasing otherwise. -/
def vars : Term → List Var
  | atomic p => p.vars
  | any ts => (scopes ts).toList
  | all ts => (scopes ts).toList

theorem contains_scope (t : Term) (v : Var) : t.scope.contains v = decide (v ∈ t.vars) := by
  cases t with
  | atomic p => rw [scope, vars, IndexSet.contains_ofList]
  | any ts => simp [scope, vars, IndexSet.mem_toList]
  | all ts => simp [scope, vars, IndexSet.mem_toList]

mutual

def name : Term → String
  | atomic p => p.fullName
  | any ts => "or(" ++ ", ".intercalate (names ts) ++ ")"
  | all ts => "and(" ++ ", ".intercalate (names ts) ++ ")"

def names : List Term → List String
  | [] => []
  | t :: ts => t.name :: names ts

end

mutual

/-- The term in SMT-LIB. -/
def smt : Term → String
  | atomic p => p.smt
  | any ts => "(or " ++ " ".intercalate (smts ts) ++ ")"
  | all ts => "(and " ++ " ".intercalate (smts ts) ++ ")"

def smts : List Term → List String
  | [] => []
  | t :: ts => t.smt :: smts ts

end

end Term

end Acquisition
