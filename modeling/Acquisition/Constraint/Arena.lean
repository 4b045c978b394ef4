import Acquisition.Query
import Acquisition.Constraint.Term

/-!
# The arena of constraints

Constraints are registered once and are referred to by their place in the
arena. A constraint is registered together with its negation, at adjacent
places, of which the even one comes first. So the negation of a constraint is a
matter of its last binary digit, and negation is an involution.

Disjunctions and conjunctions have constraints of the arena as members. A
constraint that is registered a second time is found instead of being stored
again, and the disjunction or conjunction of a single constraint is that
constraint.
-/
namespace Acquisition

/-- What is stored at a place: an atomic constraint, or the members of a
disjunction or of a conjunction. -/
inductive Entry
  | atomic (p : Predicate)
  | disjunction (members : IndexSet)
  | conjunction (members : IndexSet)
deriving DecidableEq, Repr

/-- The entry up to weight, which is what identifies it. -/
def Entry.shape : Entry → Entry
  | .atomic p => .atomic p.shape
  | e => e

/-- Whether two entries have the same shape. -/
def Entry.same : Entry → Entry → Bool
  | .atomic p, .atomic q => p.same q
  | .disjunction s, .disjunction t => s == t
  | .conjunction s, .conjunction t => s == t
  | _, _ => false

theorem Entry.same_iff (e f : Entry) : e.same f = true ↔ e.shape = f.shape := by
  cases e <;> cases f <;> simp [same, shape, Predicate.same_iff]

def Entry.members? : Entry → Option IndexSet
  | .atomic _ => none
  | .disjunction members => some members
  | .conjunction members => some members

/-- An entry with its meaning, in which every member is written out. A term may
mention one member many times over, so its variables are kept beside it. -/
structure Registration where
  entry : Entry
  term : Term
  /-- The variables of the constraint, in its own order for an atomic one and
  increasing otherwise. -/
  vars : List Var
  vars_eq : vars = term.vars

namespace Registration

def atomic (p : Predicate) : Registration := ⟨.atomic p, .atomic p, p.vars, rfl⟩

/-- The variables of some registrations. -/
def scopes : List Registration → IndexSet
  | [] => .empty
  | r :: rs => (scopes rs).extend r.vars

theorem scopes_eq (rs : List Registration) : scopes rs = Term.scopes (rs.map (·.term)) := by
  induction rs with
  | nil => rw [scopes, List.map_nil, Term.scopes]
  | cons r rs ih =>
    refine IndexSet.ext_contains fun i => ?_
    rw [scopes, List.map_cons, Term.scopes, ih, r.vars_eq, IndexSet.contains_extend,
      IndexSet.contains_union, Term.contains_scope, Bool.or_comm]

/-- The disjunction of a set of members, given their registrations in order. -/
def disjunction (members : IndexSet) (rs : List Registration) : Registration :=
  ⟨.disjunction members, .any (rs.map (·.term)), (scopes rs).toList, by
    rw [scopes_eq, Term.vars]⟩

/-- The conjunction of a set of members, given their registrations in order. -/
def conjunction (members : IndexSet) (rs : List Registration) : Registration :=
  ⟨.conjunction members, .all (rs.map (·.term)), (scopes rs).toList, by
    rw [scopes_eq, Term.vars]⟩

def scope (r : Registration) : IndexSet := .ofList r.vars

theorem scope_eq (r : Registration) : r.scope = r.term.scope :=
  IndexSet.ext_contains fun i => by
    rw [scope, r.vars_eq, IndexSet.contains_ofList, Term.contains_scope]

end Registration

structure Arena where
  places : Array Registration := #[]

namespace Arena

def empty : Arena := {}

instance : Inhabited Arena := ⟨empty⟩

/-- The count of registered constraints, with their negations. -/
def size (A : Arena) : Nat := A.places.size

def place (A : Arena) (c : ConstraintId) : Checked Registration :=
  match A.places[c]? with
  | some r => .ok r
  | none => .error (.unregistered c)

def entry (A : Arena) (c : ConstraintId) : Checked Entry := (·.entry) <$> A.place c

def term (A : Arena) (c : ConstraintId) : Checked Term := (·.term) <$> A.place c

/-- The place next to `c`: the odd one after an even place, and the other way around. -/
def twin (c : Nat) : Nat := if c % 2 = 0 then c + 1 else c - 1

def negation (A : Arena) (c : ConstraintId) : Checked ConstraintId :=
  (fun _ => twin c) <$> A.place c

/-- The negations of the members of a set. -/
def negations (A : Arena) (members : IndexSet) : Checked IndexSet :=
  IndexSet.ofList <$> members.toList.mapM A.negation

/-- The place of an entry of the same shape. -/
def find? (A : Arena) (e : Entry) : Option ConstraintId :=
  A.places.findIdx? (·.entry.same e)

def lookup? (A : Arena) (p : Predicate) : Option ConstraintId := A.find? (.atomic p)

/-- Stores an entry and its negation, and tells the place of the entry. -/
def register (A : Arena) (r negated : Registration) : ConstraintId × Arena :=
  (A.size, ⟨(A.places.push r).push negated⟩)

/-- The place of an atomic constraint, registered if need be. -/
def add (A : Arena) (p : Predicate) : ConstraintId × Arena :=
  match A.lookup? p with
  | some c => (c, A)
  | none =>
    A.register (.atomic p) (.atomic p.negate)

/-- The only member of a set of one. -/
def only? (members : IndexSet) : Option ConstraintId :=
  match members.toList with
  | [c] => some c
  | _ => none

/-- The place of a disjunction, registered if need be. -/
def disjunction (A : Arena) (members : IndexSet) : Checked (ConstraintId × Arena) :=
  match only? members, A.find? (.disjunction members) with
  | some c, _ => .ok (c, A)
  | none, some c => .ok (c, A)
  | none, none => do
    let dual ← A.negations members
    return A.register (.disjunction members (← members.toList.mapM A.place))
      (.conjunction dual (← dual.toList.mapM A.place))

/-- The place of a conjunction, registered if need be. -/
def conjunction (A : Arena) (members : IndexSet) : Checked (ConstraintId × Arena) :=
  match only? members, A.find? (.conjunction members) with
  | some c, _ => .ok (c, A)
  | none, some c => .ok (c, A)
  | none, none => do
    let dual ← A.negations members
    return A.register (.conjunction members (← members.toList.mapM A.place))
      (.disjunction dual (← dual.toList.mapM A.place))

/-- The members of a disjunction or conjunction. -/
def members? (A : Arena) (c : ConstraintId) : Checked (Option IndexSet) :=
  (·.members?) <$> A.entry c

/-- The members of a disjunction. -/
def disjuncts? (A : Arena) (c : ConstraintId) : Checked (Option IndexSet) := do
  match ← A.entry c with
  | .disjunction members => return some members
  | _ => return none

/-- The members of a conjunction. -/
def conjuncts? (A : Arena) (c : ConstraintId) : Checked (Option IndexSet) := do
  match ← A.entry c with
  | .conjunction members => return some members
  | _ => return none

/-- The variables of a constraint in the order in which it lists them. -/
def vars (A : Arena) (c : ConstraintId) : Checked (List Var) := (·.vars) <$> A.place c

def scope (A : Arena) (c : ConstraintId) : Checked IndexSet := (·.scope) <$> A.place c

def weight (A : Arena) (c : ConstraintId) : Checked Nat := do (← A.term c).weight

def name (A : Arena) (c : ConstraintId) : Checked String := (·.name) <$> A.term c

def smt (A : Arena) (c : ConstraintId) : Checked String := (·.smt) <$> A.term c

/-- The value of a constraint on a partial assignment. -/
def eval (A : Arena) (f : Var → Option Value) (c : ConstraintId) : Checked (Option Bool) := do
  (← A.term c).eval f

/-- Whether a constraint holds on a query, where one that stays open does. -/
def check (A : Arena) (q : Query) (c : ConstraintId) : Checked Bool :=
  (·.getD true) <$> A.eval q.valueOf c

theorem twin_twin (c : Nat) : twin (twin c) = c := by
  unfold twin; split <;> split <;> omega

theorem twin_ne (c : Nat) : twin c ≠ c := by unfold twin; split <;> omega

end Arena

end Acquisition
