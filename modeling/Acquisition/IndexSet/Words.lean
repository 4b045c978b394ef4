/-!
# Vectors of words

A set of indices laid out as a growing vector of words of 64 digits: the index
`i` is a member when digit `i % 64` of word `i / 64` is set. A vector is as long
as the operations it went through have made it. Words without digits may stand at
its end and say nothing, so that one set has many vectors.

A cursor visits the members in increasing order. It stands in a word with the
digits of that word which are still to come.
-/
namespace Acquisition

abbrev Word := BitVec 64

/-- The word with the one digit that stands for `i`. -/
def Word.mark (i : Nat) : Word := .twoPow 64 (i % 64)

structure Words where
  blocks : Array Word
deriving Repr

namespace Words

open Word (mark)

def new : Words := ⟨#[]⟩

instance : Inhabited Words := ⟨new⟩

/-- The set without members, with room for `bits` indices, which is not part of the value. -/
def withCapacity (_bits : Nat) : Words := new

/-- No words are left, however many there were. -/
def clear (_s : Words) : Words := new

/-- The word in place `k`, which is 0 past the end of the vector. -/
def word (s : Words) (k : Nat) : Word := s.blocks.getD k 0

/-- The words with as many more as there are less than `n`. -/
def resized (s : Words) (n : Nat) : Array Word := s.blocks ++ .replicate (n - s.blocks.size) 0

/-- Whether `i` is new to the set, and the set with `i`. -/
def put (s : Words) (i : Nat) : Bool × Words :=
  let bs := s.resized (i / 64 + 1)
  let w := bs.getD (i / 64) 0
  (w &&& mark i == 0, ⟨bs.setIfInBounds (i / 64) (w ||| mark i)⟩)

/-- Whether `i` was a member, and the set without `i`. -/
def take (s : Words) (i : Nat) : Bool × Words :=
  match s.blocks[i / 64]? with
  | some w =>
    if w &&& mark i ≠ 0 then (true, ⟨s.blocks.setIfInBounds (i / 64) (w &&& ~~~mark i)⟩)
    else (false, s)
  | none => (false, s)

def contains (s : Words) (i : Nat) : Bool := (s.blocks[i / 64]?).any fun w => w &&& mark i != 0

def size (s : Words) : Nat := s.blocks.foldl (fun n w => n + w.cpop.toNat) 0

def isEmpty (s : Words) : Bool := s.blocks.all (· == 0)

def extend (s : Words) (is : List Nat) : Words := is.foldl (fun s i => (s.put i).2) s

def ofList (is : List Nat) : Words := new.extend is

/-- The words of one vector, each joined by `f` with the one in its place in the
other where there is one. -/
def zipped (f : Word → Word → Word) (bs cs : Array Word) : Words :=
  ⟨bs.mapIdx fun k w => (cs[k]?).elim w (f w)⟩

def union (s t : Words) : Words := zipped (· ||| ·) (s.resized t.blocks.size) t.blocks

def inter (s t : Words) : Words := ⟨s.blocks.mapIdx fun k w => w &&& t.word k⟩

def diff (s t : Words) : Words := zipped (fun w v => w &&& ~~~v) s.blocks t.blocks

def subset (s t : Words) : Bool := (s.blocks.mapIdx fun k w => w &&& ~~~t.word k == 0).all id

def disjoint (s t : Words) : Bool :=
  (Array.zipWith (fun w v => w &&& v == 0) s.blocks t.blocks).all id

/-- The count of the first `n` words up to the last one with a digit. -/
def reach (s : Words) : Nat → Nat
  | 0 => 0
  | n + 1 => if s.word n ≠ 0 then n + 1 else s.reach n

/-- The words up to the last one with a digit. -/
def significant (s : Words) : Array Word := s.blocks.extract 0 (s.reach s.blocks.size)

instance : BEq Words := ⟨fun s t => s.significant == t.significant⟩

instance : Hashable Words := ⟨fun s => hash s.significant⟩

/-- The place of a word and those of its digits that were not visited. -/
structure Cursor where
  index : Nat
  current : Word

def start (s : Words) : Cursor := ⟨0, s.word 0⟩

/-- The next member and the cursor after it. The lowest digit of a word is cleared by
what the word has in common with its predecessor. -/
def next? (s : Words) (c : Cursor) : Option (Nat × Cursor) :=
  if c.current ≠ 0 then
    some (c.index * 64 + c.current.ctz.toNat, { c with current := c.current &&& (c.current - 1) })
  else match _h : s.blocks[c.index + 1]? with
    | some w => s.next? ⟨c.index + 1, w⟩
    | none => none
termination_by s.blocks.size - c.index
decreasing_by
  have := (Array.getElem?_eq_some_iff.1 _h).1
  omega

/-- A cursor goes on to fewer digits of its word, or to a later word. -/
theorem next?_advances {s : Words} {c d : Cursor} {i : Nat} (h : s.next? c = some (i, d)) :
    (d.index = c.index ∧ d.current.toNat < c.current.toNat) ∨
      (c.index < d.index ∧ d.index < s.blocks.size) := by
  fun_induction next? s c with
  | case1 c hc =>
    cases h
    have hpos : c.current.toNat ≠ 0 := fun h0 => hc (BitVec.eq_of_toNat_eq h0)
    have hpred : (c.current - 1).toNat = c.current.toNat - 1 := by
      have := c.current.isLt
      rw [BitVec.toNat_sub]
      simp
      omega
    have hle := Nat.and_le_right (n := c.current.toNat) (m := (c.current - 1).toNat)
    rw [← BitVec.toNat_and] at hle
    exact .inl ⟨rfl, by dsimp only; omega⟩
  | case2 c hc w hw ih =>
    have hlt := (Array.getElem?_eq_some_iff.1 hw).1
    have := ih h
    dsimp only at this
    omega
  | case3 => cases h

/-- The members from a cursor on. -/
def drain (s : Words) (c : Cursor) : List Nat :=
  match _h : s.next? c with
  | some (i, d) => i :: s.drain d
  | none => []
termination_by (s.blocks.size - c.index, c.current.toNat)
decreasing_by
  rcases next?_advances _h with ⟨hi, hlt⟩ | ⟨hlt, hsize⟩
  · rw [hi]
    exact .right _ hlt
  · exact .left _ _ (by omega)

def toList (s : Words) : List Nat := s.drain s.start

def first? (s : Words) : Option Nat := (s.next? s.start).map (·.1)

/-- The members in braces, as in `\x7b0, 63\x7d`. -/
def render (s : Words) : String := "\x7b" ++ ", ".intercalate (s.toList.map toString) ++ "\x7d"

end Words

end Acquisition
