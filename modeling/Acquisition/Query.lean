import Acquisition.IndexSet

/-!
# Membership queries

A query gives values to the variables of a scope, and may carry the verdict of
an oracle. It is kept as a list of variables with their values, in increasing
order of variable, so that two queries are equal as soon as they give the same
values to the same variables and carry the same verdict.

A verdict is final: a query with a verdict takes no other.
-/
namespace Acquisition

/-- Variables with values, each variable once and in increasing order. -/
def Increasing (pairs : List (Var × Value)) : Prop := pairs.Pairwise (·.1 < ·.1)

structure Query where
  pairs : List (Var × Value)
  increasing : Increasing pairs
  /-- Whether an oracle accepted the query, once it was asked. -/
  verdict : Option Bool := none
deriving DecidableEq

namespace Query

/-- Gives `v` the value `x`, in place of the value it had. -/
def place (v : Var) (x : Value) : List (Var × Value) → List (Var × Value)
  | [] => [(v, x)]
  | (w, y) :: rest =>
    if v < w then (v, x) :: (w, y) :: rest
    else if v = w then (v, x) :: rest
    else (w, y) :: place v x rest

theorem fst_mem_place {v : Var} {x : Value} {pairs : List (Var × Value)} {p : Var × Value}
    (h : p ∈ place v x pairs) : p = (v, x) ∨ p ∈ pairs := by
  induction pairs with
  | nil => simp_all [place]
  | cons q rest ih =>
    unfold place at h
    split at h
    · simpa using h
    · split at h
      · rcases List.mem_cons.1 h with h | h
        · exact .inl h
        · exact .inr (List.mem_cons_of_mem _ h)
      · rcases List.mem_cons.1 h with h | h
        · exact .inr (h ▸ List.mem_cons_self)
        · exact (ih h).imp id (List.mem_cons_of_mem _)

theorem increasing_place (v : Var) (x : Value) {pairs : List (Var × Value)}
    (h : Increasing pairs) : Increasing (place v x pairs) := by
  induction pairs with
  | nil => simp [place, Increasing]
  | cons q rest ih =>
    obtain ⟨w, y⟩ := q
    obtain ⟨hq, hrest⟩ := List.pairwise_cons.1 h
    unfold place
    split
    · next hv =>
      refine List.pairwise_cons.2 ⟨fun p hp => ?_, h⟩
      rcases List.mem_cons.1 hp with rfl | hp
      · exact hv
      · exact Nat.lt_trans hv (hq p hp)
    · next hv =>
      split
      · next hw => subst hw; exact List.pairwise_cons.2 ⟨hq, hrest⟩
      · next hw =>
        refine List.pairwise_cons.2 ⟨fun p hp => ?_, ih hrest⟩
        rcases fst_mem_place hp with rfl | hp
        · exact Nat.lt_of_le_of_ne (Nat.not_lt.1 hv) (Ne.symm hw)
        · exact hq p hp

theorem increasing_foldl (given : List (Var × Value)) {pairs : List (Var × Value)}
    (h : Increasing pairs) : Increasing (given.foldl (fun ps p => place p.1 p.2 ps) pairs) := by
  induction given generalizing pairs with
  | nil => exact h
  | cons p rest ih => exact ih (increasing_place _ _ h)

/-- The query that gives each variable the last value given for it. -/
def ofPairs (given : List (Var × Value)) : Query where
  pairs := given.foldl (fun ps p => place p.1 p.2 ps) []
  increasing := increasing_foldl given .nil

/-- The query over `scope` with the given values in increasing order of variable. -/
def ofValues (scope : IndexSet) (values : List Value) : Except ErrorKind Query :=
  if scope.size = values.length then .ok (ofPairs (scope.toList.zip values))
  else .error .misaligned

def vars (q : Query) : List Var := q.pairs.map (·.1)

/-- The values in increasing order of variable. -/
def values (q : Query) : List Value := q.pairs.map (·.2)

def scope (q : Query) : IndexSet := .ofList q.vars

def valueOf (q : Query) (v : Var) : Option Value := q.pairs.lookup v

/-- The values of some variables in the order asked, if each is in scope. -/
def valuesFor (q : Query) (vs : List Var) : Option (List Value) := vs.mapM q.valueOf

def isClassified (q : Query) : Bool := q.verdict.isSome

def isPositive (q : Query) : Bool := q.verdict == some true

def isNegative (q : Query) : Bool := q.verdict == some false

def classify (q : Query) (accepted : Bool) : Except ErrorKind Query :=
  if q.isClassified then .error .alreadyClassified else .ok { q with verdict := some accepted }

/-- The values by variable, followed by a sign for the verdict, as in
`[x0=1, x2=-3]-`. -/
def render (q : Query) : String :=
  let value := fun (p : Var × Value) => "x" ++ toString p.1 ++ "=" ++ toString p.2
  let sign := match q.verdict with
    | some true => "+"
    | some false => "-"
    | none => ""
  "[" ++ ", ".intercalate (q.pairs.map value) ++ "]" ++ sign

end Query

/-- The variables of a scope, as in `[x0, x2]`. -/
def renderScope (scope : IndexSet) : String :=
  "[" ++ ", ".intercalate (scope.toList.map fun v => "x" ++ toString v) ++ "]"

end Acquisition
