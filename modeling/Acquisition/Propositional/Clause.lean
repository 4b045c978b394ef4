import Acquisition.Constraint.Arena
import Acquisition.Propositional.Literal

/-!
# Clauses

A clause is a disjunction of literals, kept in increasing order and each once,
so that clauses with the same literals have the same list.

A clause also remembers the query whose answer gave rise to it, and whether it
has been chosen for splitting. Neither says anything about its meaning.
-/
namespace Acquisition

structure Clause where
  literals : List Literal := []
  increasing : literals.Pairwise (· < ·) := by exact .nil
  /-- Whether the clause has been chosen for splitting. -/
  marked : Bool := false
  /-- The query whose answer gave rise to the clause. -/
  origin : Option Query := none

namespace Clause

/-- Puts a literal in its place, unless it is there. -/
def place (l : Literal) : List Literal → List Literal
  | [] => [l]
  | m :: rest => if l < m then l :: m :: rest else if l = m then m :: rest else m :: place l rest

theorem mem_place {l m : Literal} {ls : List Literal} : m ∈ place l ls ↔ m = l ∨ m ∈ ls := by
  induction ls with
  | nil => simp [place]
  | cons k rest ih =>
    unfold place
    split
    · simp
    · split
      · next h => subst h; simp
      · simp only [List.mem_cons, ih]; grind

theorem increasing_place (l : Literal) {ls : List Literal} (h : ls.Pairwise (· < ·)) :
    (place l ls).Pairwise (· < ·) := by
  induction ls with
  | nil => simp [place]
  | cons k rest ih =>
    obtain ⟨hk, hrest⟩ := List.pairwise_cons.1 h
    unfold place
    split
    · next hl =>
      refine List.pairwise_cons.2 ⟨fun m hm => ?_, h⟩
      rcases List.mem_cons.1 hm with rfl | hm
      · exact hl
      · exact Literal.lt_trans hl (hk m hm)
    · next hl =>
      split
      · exact h
      · next hne =>
        refine List.pairwise_cons.2 ⟨fun m hm => ?_, ih hrest⟩
        rcases mem_place.1 hm with rfl | hm
        · exact Literal.lt_of_not_lt hl hne
        · exact hk m hm

def empty : Clause := {}

instance : Inhabited Clause := ⟨empty⟩

def ofLiteral (l : Literal) : Clause := { literals := [l], increasing := List.pairwise_singleton _ l }

def withOrigin (c : Clause) (origin : Option Query) : Clause := { c with origin }

def insert (c : Clause) (l : Literal) : Clause :=
  { c with literals := place l c.literals, increasing := increasing_place l c.increasing }

def ofList (ls : List Literal) : Clause := ls.foldl insert empty

def size (c : Clause) : Nat := c.literals.length

def isEmpty (c : Clause) : Bool := c.literals.isEmpty

def contains (c : Clause) (l : Literal) : Bool := c.literals.contains l

/-- Whether the literal is new to the clause, and the clause with it. -/
def put (c : Clause) (l : Literal) : Bool × Clause := (!c.contains l, c.insert l)

/-- Whether some literal of the clause, of either sign, is of the constraint. -/
def containsConstraint (c : Clause) (k : ConstraintId) : Bool :=
  c.literals.any (·.constraint == k)

/-- The clause without the literals of which `p` holds. -/
def without (c : Clause) (p : Literal → Bool) : Clause :=
  { c with
    literals := c.literals.filter (!p ·)
    increasing := c.increasing.sublist List.filter_sublist }

/-- Whether `p` holds of some literal, and the clause without the literals of
which it does. -/
def drop (c : Clause) (p : Literal → Bool) : Bool × Clause := (c.literals.any p, c.without p)

def mark (c : Clause) : Clause := { c with marked := true }

def unmark (c : Clause) : Clause := { c with marked := false }

/-- The sum of the weights of the constraints of the literals. -/
def weight (A : Arena) (c : Clause) : Checked Nat :=
  c.literals.foldlM (fun total l => do Checked.unsigned (total + (← A.weight l.constraint))) 0

/-- Whether two clauses have the same literals. -/
def same (c d : Clause) : Bool := c.literals == d.literals

/-- Whether each literal of `c` is one of `d`, so that `d` follows from `c`. -/
def subsumes (c d : Clause) : Bool := c.literals.all d.contains

/-- The literals, as in `(0 or -2)`, with a raised plus sign if marked. -/
def render (c : Clause) : String :=
  "(" ++ " or ".intercalate (c.literals.map Literal.render) ++ ")" ++
    (if c.marked then "⁺" else "")

end Clause

end Acquisition
