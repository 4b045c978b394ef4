import Acquisition.Propositional.Clause

/-!
# Clause stores

A clause store is a conjunction of clauses in numbered slots. Clauses are listed
by slot. A clause that is removed leaves its slot free, and the slot freed last
is the first to be taken again; otherwise a new slot is added at the end.

A key names a clause by its slot and by how often the slot was freed before. So
a key stays good while other clauses come and go, and after its clause has been
removed it never finds the clause that took the slot.
-/
namespace Acquisition

structure Slot where
  /-- How often the slot was freed. -/
  generation : Nat := 0
  clause? : Option Clause

structure ClauseKey where
  slot : Nat
  generation : Nat
deriving DecidableEq, Repr

structure ClauseStore where
  slots : List Slot := []
  /-- The free slots, the one freed last first. -/
  free : List Nat := []

/-- How a clause is chosen for splitting. -/
inductive Selection
  /-- The first one in the order of slots. -/
  | firstUnmarked
  /-- The first one of greatest weight. -/
  | maxWeight
deriving DecidableEq, Repr

namespace ClauseStore

def empty : ClauseStore := {}

instance : Inhabited ClauseStore := ⟨empty⟩

/-- The clauses with their keys, by slot. -/
def entries (S : ClauseStore) : List (ClauseKey × Clause) :=
  S.slots.zipIdx.filterMap fun (s, i) => s.clause?.map fun c => (⟨i, s.generation⟩, c)

/-- The clauses by slot. -/
def clauses (S : ClauseStore) : List Clause := S.slots.filterMap (·.clause?)

def size (S : ClauseStore) : Nat := S.clauses.length

def isEmpty (S : ClauseStore) : Bool := S.clauses.isEmpty

def get? (S : ClauseStore) (k : ClauseKey) : Option Clause := do
  let s ← S.slots[k.slot]?
  if s.generation = k.generation then s.clause? else none

/-- The key of a clause with the literals of `c`. -/
def find? (S : ClauseStore) (c : Clause) : Option ClauseKey :=
  (S.entries.find? fun e => e.2.same c).map (·.1)

def contains (S : ClauseStore) (c : Clause) : Bool := (S.find? c).isSome

/-- Stores a clause in the slot freed last, or in a new one. -/
def insert (S : ClauseStore) (c : Clause) : ClauseKey × ClauseStore :=
  match S.free with
  | i :: rest =>
    let generation := (S.slots[i]?.map (·.generation)).getD 0
    (⟨i, generation⟩, ⟨S.slots.modify i ({ · with clause? := some c }), rest⟩)
  | [] => (⟨S.slots.length, 0⟩, ⟨S.slots ++ [{ clause? := some c }], []⟩)

/-- Stores a clause, unless there is one with the same literals. -/
def add (S : ClauseStore) (c : Clause) : Option ClauseKey × ClauseStore :=
  match S.find? c with
  | some _ => (none, S)
  | none => let (k, S') := S.insert c; (some k, S')

/-- The store with a clause, unless there is one with the same literals. -/
def adding (S : ClauseStore) (c : Clause) : ClauseStore := (S.add c).2

/-- Frees the slot of a clause. -/
def erase (S : ClauseStore) (k : ClauseKey) : ClauseStore :=
  if (S.get? k).isSome then
    ⟨S.slots.modify k.slot fun s => ⟨s.generation + 1, none⟩, k.slot :: S.free⟩
  else S

/-- The clause of a key, if it is there, and the store without it. -/
def take (S : ClauseStore) (k : ClauseKey) : Option Clause × ClauseStore := (S.get? k, S.erase k)

/-- Changes the clause of a key, if it is there. -/
def modify (S : ClauseStore) (k : ClauseKey) (f : Clause → Clause) : ClauseStore :=
  if (S.get? k).isSome then
    { S with slots := S.slots.modify k.slot fun s => { s with clause? := s.clause?.map f } }
  else S

/-- Removes the clauses of which `p` does not hold, by increasing slot. -/
def retain (S : ClauseStore) (p : Clause → Bool) : ClauseStore :=
  S.entries.foldl (fun T e => if p e.2 then T else T.erase e.1) S

/-- Stores a clause unless some clause subsumes it, in place of the clauses that
it subsumes. Tells whether the clause was stored. -/
def addReduced (S : ClauseStore) (c : Clause) : Bool × ClauseStore :=
  if S.clauses.any (·.subsumes c) then (false, S)
  else (true, ((S.retain (!c.subsumes ·)).insert c).2)

/-- Removes the clause with the literals of `c`, and tells whether there was one. -/
def discard (S : ClauseStore) (c : Clause) : Bool × ClauseStore :=
  match S.find? c with
  | some k => (true, S.erase k)
  | none => (false, S)

/-- Adds each clause of another store. -/
def concat (S T : ClauseStore) : ClauseStore := T.clauses.foldl adding S

/-- Whether every clause is of one literal. Clauses are looked at up to the first
that is longer, and a clause without literals among them is a fault. -/
def isMonomial (S : ClauseStore) : Checked Bool := go S.clauses
where
  go : List Clause → Checked Bool
    | [] => .ok true
    | c :: cs =>
      if c.isEmpty then .error .emptyClause else if c.size ≤ 1 then go cs else .ok false

def mark (S : ClauseStore) (k : ClauseKey) : ClauseStore := S.modify k .mark

def unmarkAll (S : ClauseStore) : ClauseStore :=
  { S with slots := S.slots.map fun s => { s with clause? := s.clause?.map .unmark } }

/-- Whether a clause has more than one literal. -/
def isLong (c : Clause) : Bool := 1 < c.size

/-- Whether every clause of more than one literal is marked. -/
def allMarked (S : ClauseStore) : Bool := (S.clauses.filter isLong).all (·.marked)

/-- The first of the entries of greatest weight, of those given and `best`. -/
def heaviest (A : Arena) : Option (ClauseKey × Nat) → List (ClauseKey × Clause) →
    Checked (Option ClauseKey)
  | best, [] => .ok (best.map (·.1))
  | best, (k, c) :: rest => do
    let w ← c.weight A
    let kept := match best with
      | some (k', most) => if w ≤ most then (k', most) else (k, w)
      | none => (k, w)
    heaviest A (some kept) rest

/-- A clause of more than one literal that is not marked. -/
def selectUnmarked (A : Arena) (how : Selection) (S : ClauseStore) : Checked (Option ClauseKey) :=
  let candidates := S.entries.filter fun e => !e.2.marked && isLong e.2
  match how with
  | .firstUnmarked => .ok (candidates.head?.map (·.1))
  | .maxWeight => heaviest A none candidates

/-- A clause of more than one literal that is not marked. If all are marked, the
marks are cleared and the choice is made again. -/
def select (A : Arena) (how : Selection) (S : ClauseStore) :
    Checked (Option ClauseKey × ClauseStore) := do
  match ← selectUnmarked A how S with
  | some k => return (some k, S)
  | none =>
    if S.allMarked then return (← selectUnmarked A how S.unmarkAll, S.unmarkAll)
    else return (none, S)

/-- The literals of the clauses of one literal. -/
def units (S : ClauseStore) : List Literal :=
  S.clauses.filterMap fun c => match c.literals with
    | [l] => some l
    | _ => none

/-- A fault unless every clause is of one literal. -/
def requireMonomial (S : ClauseStore) : Checked Unit := do
  unless ← S.isMonomial do throw .notMonomial

/-- The constraints of the positive literals of a monomial store. -/
def positives (S : ClauseStore) : Checked (List ConstraintId) := do
  S.requireMonomial
  return (S.units.filter (!·.negated)).map (·.constraint)

/-- The constraints of the negated literals of a monomial store. -/
def negatives (S : ClauseStore) : Checked (List ConstraintId) := do
  S.requireMonomial
  return (S.units.filter (·.negated)).map (·.constraint)

/-- In a monomial store, the first origin of a positive literal whose complement
is there too. -/
def inconsistency (S : ClauseStore) : Checked (Option Query) := do
  S.requireMonomial
  return S.clauses.findSome? fun c => match c.literals with
    | [l] => if !l.negated && S.units.any (·.isComplement l) then c.origin else none
    | _ => none

def render (S : ClauseStore) : String := " and ".intercalate (S.clauses.map Clause.render)

end ClauseStore

end Acquisition
