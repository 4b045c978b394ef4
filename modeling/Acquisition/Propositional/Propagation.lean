import Acquisition.Propositional.ClauseStore

/-!
# Unit propagation

A literal known to hold simplifies the clauses of more than one literal. A
clause with the literal is satisfied and removed. A clause with its complement
loses the complement, and with it its mark; if a single literal is left, that
literal is propagated in turn. A clause that becomes equal to another one is
removed.

Literals are propagated in the order in which they were found. Clauses of one
literal are never touched, so a literal and its complement may both stand.
-/
namespace Acquisition.ClauseStore

/-- What a propagation did. -/
structure Report where
  /-- Clauses removed because they hold. -/
  satisfied : Nat := 0
  /-- Clauses shortened to a single literal. -/
  forced : Nat := 0
  /-- Whether a positive literal was forced. -/
  learnedPositive : Bool := false
deriving DecidableEq, Repr

/-- A store in the course of a propagation, with the literals still to be
propagated. -/
structure Wave where
  store : ClauseStore
  queue : List Literal
  report : Report := {}

namespace Wave

/-- Notes a clause that was shortened, and puts its literal in line if it has
only one left. -/
def noteShortened (w : Wave) (c : Clause) : Wave :=
  match c.literals with
  | [l] =>
    { w with
      queue := w.queue ++ [l]
      report := { w.report with
        forced := w.report.forced + 1
        learnedPositive := w.report.learnedPositive || !l.negated } }
  | _ => w

/-- Whether some clause but that of `k` has the literals of `c`. -/
def hasOther (S : ClauseStore) (k : ClauseKey) (c : Clause) : Bool :=
  S.entries.any fun e => e.1 != k && e.2.same c

/-- Simplifies one clause by a literal that holds. -/
def visit (l : Literal) (w : Wave) (k : ClauseKey) : Wave :=
  match w.store.get? k with
  | none => w
  | some c =>
    if c.contains l then
      { w with
        store := w.store.erase k
        report := { w.report with satisfied := w.report.satisfied + 1 } }
    else if c.literals.any (·.isComplement l) then
      let d := (c.without (·.isComplement l)).unmark
      let w := w.noteShortened d
      if hasOther w.store k d then { w with store := w.store.erase k }
      else { w with store := w.store.modify k fun _ => d }
    else w

/-- Simplifies every clause of more than one literal. -/
def pass (w : Wave) (l : Literal) : Wave :=
  ((w.store.entries.filter fun e => isLong e.2).map (·.1)).foldl (visit l) w

/-- Propagates the literals in line. Each pass takes one literal off the line,
and puts a literal in line only with a clause that has become one literal long,
so there are no more passes than literals in line and long clauses. -/
def run : Nat → Wave → Wave
  | 0, w => w
  | fuel + 1, w => match w.queue with
    | [] => w
    | l :: rest => run fuel ({ w with queue := rest }.pass l)

end Wave

/-- Propagates a literal that holds. -/
def propagate (S : ClauseStore) (l : Literal) : Checked (Report × ClauseStore) := do
  if ← S.isMonomial then return ({}, S)
  let w := Wave.run (S.size + 1) { store := S, queue := [l] }
  return (w.report, w.store)

end Acquisition.ClauseStore
