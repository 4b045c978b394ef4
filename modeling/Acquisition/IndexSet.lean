import Acquisition.Failure
import Acquisition.IndexSet.Block

/-!
# Finite sets of indices

A set of natural numbers is kept as a proper list of blocks. The representation
is canonical: two sets with the same members are the same value, however they
came about. It takes room for the blocks that have members, so that a few large
indices do no harm.

Members are listed in increasing order.
-/
namespace Acquisition

-- Powers are those of the core language, also where others are in scope.
attribute [local instance (high)] instPowNat

open Block (width)

structure IndexSet where
  blocks : List Block
  proper : Block.Proper blocks
deriving DecidableEq, Repr

namespace IndexSet

def empty : IndexSet := ⟨[], .nil⟩

instance : Inhabited IndexSet := ⟨empty⟩

instance : EmptyCollection IndexSet := ⟨empty⟩

/-- The digits of the block of key `k`. -/
def digits (s : IndexSet) (k : Nat) : Nat := Block.digitsAt k s.blocks

theorem digits_lt (s : IndexSet) (k : Nat) : s.digits k < 2 ^ width :=
  Block.digitsAt_lt s.proper.digits_lt

def contains (s : IndexSet) (i : Nat) : Bool := (s.digits (i / width)).testBit (i % width)

/-- The number with one digit, which is that of `i` in its block. -/
def mark (i : Nat) : Nat := 1 <<< (i % width)

theorem mark_lt (i : Nat) : mark i < 2 ^ width := by
  rw [mark, Nat.one_shiftLeft]
  exact Nat.pow_lt_pow_right (by decide) (Nat.mod_lt _ Block.width_pos)

def insert (s : IndexSet) (i : Nat) : IndexSet :=
  ⟨Block.set (i / width) (s.digits (i / width) ||| mark i) s.blocks,
    s.proper.set (Nat.or_lt_two_pow (s.digits_lt _) (mark_lt i))⟩

def erase (s : IndexSet) (i : Nat) : IndexSet :=
  if s.contains i then
    ⟨Block.set (i / width) (s.digits (i / width) ^^^ mark i) s.blocks,
      s.proper.set (Nat.xor_lt_two_pow (s.digits_lt _) (mark_lt i))⟩
  else s

/-- Whether `i` is new to the set, and the set with `i`. -/
def put (s : IndexSet) (i : Nat) : Bool × IndexSet := (!s.contains i, s.insert i)

/-- Whether `i` was a member, and the set without `i`. -/
def take (s : IndexSet) (i : Nat) : Bool × IndexSet := (s.contains i, s.erase i)

def isEmpty (s : IndexSet) : Bool := s.blocks.isEmpty

def union (s t : IndexSet) : IndexSet :=
  ⟨Block.join s.blocks t.blocks, s.proper.join t.proper.digits_lt⟩

def inter (s t : IndexSet) : IndexSet :=
  ⟨Block.mapDigits (fun k w => w &&& t.digits k) s.blocks,
    s.proper.mapDigits fun _ _ h => Nat.lt_of_le_of_lt Nat.and_le_left h⟩

/-- The members of `s` that are not members of `t`. -/
def diff (s t : IndexSet) : IndexSet :=
  ⟨Block.mapDigits (fun k w => w ^^^ (w &&& t.digits k)) s.blocks,
    s.proper.mapDigits fun _ _ h => Nat.xor_lt_two_pow h (Nat.lt_of_le_of_lt Nat.and_le_left h)⟩

def subset (s t : IndexSet) : Bool := s.inter t == s

def disjoint (s t : IndexSet) : Bool := (s.inter t).isEmpty

def extend (s : IndexSet) (is : List Nat) : IndexSet := is.foldl insert s

def ofList (is : List Nat) : IndexSet := empty.extend is

def singleton (i : Nat) : IndexSet := empty.insert i

/-- The lowest `w` digits of a number: what is left once the others are moved away
and back and struck out. -/
def lowDigits (w b : Nat) : Nat := b ^^^ b >>> w <<< w

/-- The members of the set that `b` stands for, which is less than `2 ^ 2 ^ d`,
each moved up by `o`, before those of `rest`. They are found by halves, and
nothing is looked for in an empty half. -/
def listFrom : Nat → Nat → Nat → List Nat → List Nat
  | 0, o, b, rest => if b = 0 then rest else o :: rest
  | d + 1, o, b, rest =>
    if b = 0 then rest
    else listFrom d o (lowDigits (2 ^ d) b) (listFrom d (o + 2 ^ d) (b >>> 2 ^ d) rest)

/-- The indices of a block before those of `rest`. -/
def listBlock (b : Block) (rest : List Nat) : List Nat :=
  listFrom (b.digits.log2.log2 + 1) (b.key * width) b.digits rest

/-- The members in increasing order. -/
def toList (s : IndexSet) : List Nat := s.blocks.foldr listBlock []

/-- Sets are hashed by the list of their members, so that equal sets hash alike. -/
instance : Hashable IndexSet := ⟨fun s => hash s.toList⟩

def size (s : IndexSet) : Nat := s.toList.length

/-- The least member. -/
def first? (s : IndexSet) : Option Nat := s.toList.head?

def filter (p : Nat → Bool) (s : IndexSet) : IndexSet := ofList (s.toList.filter p)

/-- The members in braces, as in `\x7b0, 63\x7d`. -/
def render (s : IndexSet) : String :=
  "\x7b" ++ ", ".intercalate (s.toList.map toString) ++ "\x7d"

/-- The first `n` indices. -/
def below (n : Nat) : IndexSet := ⟨Block.upTo n, .upTo n⟩

/-- The count of members of the set that are less than `i`, if `i` is a member. -/
def position? (s : IndexSet) (i : Nat) : Option Nat :=
  if s.contains i then some (s.toList.takeWhile (· < i)).length else none

theorem contains_block (s : IndexSet) (k j : Nat) (hj : j < width) :
    s.contains (k * width + j) = (s.digits k).testBit j := by
  rw [contains, Nat.mul_comm, Nat.mul_add_div Block.width_pos, Nat.mul_add_mod,
    Nat.div_eq_of_lt hj, Nat.mod_eq_of_lt hj, Nat.add_zero]

theorem ext_contains {s t : IndexSet} (h : ∀ i, s.contains i = t.contains i) : s = t := by
  have hb : s.blocks = t.blocks := s.proper.ext t.proper fun k => Nat.eq_of_testBit_eq fun j => by
    change (s.digits k).testBit j = (t.digits k).testBit j
    by_cases hj : j < width
    · rw [← contains_block s k j hj, ← contains_block t k j hj, h]
    · have hp : 2 ^ width ≤ 2 ^ j := Nat.pow_le_pow_right (by decide) (Nat.not_lt.1 hj)
      rw [Nat.testBit_lt_two_pow (Nat.lt_of_lt_of_le (s.digits_lt k) hp),
        Nat.testBit_lt_two_pow (Nat.lt_of_lt_of_le (t.digits_lt k) hp)]
  cases s; cases t; congr

theorem digits_union (s t : IndexSet) (k : Nat) :
    (s.union t).digits k = s.digits k ||| t.digits k := Block.digitsAt_join s.proper t.proper k

theorem digits_inter (s t : IndexSet) (k : Nat) :
    (s.inter t).digits k = s.digits k &&& t.digits k :=
  Block.digitsAt_mapDigits s.proper.increasing k (Nat.zero_and _)

theorem digits_diff (s t : IndexSet) (k : Nat) :
    (s.diff t).digits k = s.digits k ^^^ (s.digits k &&& t.digits k) :=
  Block.digitsAt_mapDigits s.proper.increasing k (by rw [Nat.zero_and, Nat.xor_self])

/-- An index is known by its block and its place in it. -/
theorem index_eq_iff (i j : Nat) : i = j ↔ i / width = j / width ∧ i % width = j % width := by
  refine ⟨fun h => h ▸ ⟨rfl, rfl⟩, fun ⟨hd, hm⟩ => ?_⟩
  rw [← Nat.div_add_mod i width, hd, hm, Nat.div_add_mod]

theorem testBit_mark (i j : Nat) :
    (mark i).testBit (j % width) = decide (i % width = j % width) := by
  rw [mark, Nat.one_shiftLeft, Nat.testBit_two_pow]

theorem contains_empty (i : Nat) : empty.contains i = false := Nat.zero_testBit _

theorem contains_insert (s : IndexSet) (i j : Nat) :
    (s.insert i).contains j = (s.contains j || decide (i = j)) := by
  have h : (s.insert i).digits (j / width) =
      if j / width = i / width then s.digits (i / width) ||| mark i else s.digits (j / width) :=
    Block.digitsAt_set s.proper.increasing ..
  rw [contains, h, contains]
  by_cases hk : j / width = i / width
  · rw [if_pos hk, Nat.testBit_or, testBit_mark, hk,
      decide_eq_decide.2 ((index_eq_iff i j).trans (and_iff_right hk.symm))]
  · rw [if_neg hk, decide_eq_false (mt (index_eq_iff i j).1 fun e => hk e.1.symm), Bool.or_false]

theorem contains_erase (s : IndexSet) (i j : Nat) :
    (s.erase i).contains j = (s.contains j && !decide (i = j)) := by
  by_cases hc : s.contains i
  · have h : (s.erase i).digits (j / width) =
        if j / width = i / width then s.digits (i / width) ^^^ mark i
        else s.digits (j / width) := by
      rw [erase, if_pos hc]
      exact Block.digitsAt_set s.proper.increasing ..
    rw [contains, h]
    by_cases hij : i = j
    · subst hij
      rw [if_pos rfl, Nat.testBit_xor, testBit_mark]
      rw [contains] at hc
      simp [hc]
    · by_cases hk : j / width = i / width
      · have hm : i % width ≠ j % width := fun e => hij ((index_eq_iff i j).2 ⟨hk.symm, e⟩)
        rw [if_pos hk, Nat.testBit_xor, testBit_mark, contains, hk]
        simp [hm, hij]
      · rw [if_neg hk, contains]
        simp [hij]
  · rw [erase, if_neg hc]
    by_cases hij : i = j
    · subst hij; simp_all
    · simp [hij]

theorem contains_union (s t : IndexSet) (i : Nat) :
    (s.union t).contains i = (s.contains i || t.contains i) := by
  rw [contains, digits_union, Nat.testBit_or]; rfl

theorem contains_inter (s t : IndexSet) (i : Nat) :
    (s.inter t).contains i = (s.contains i && t.contains i) := by
  rw [contains, digits_inter, Nat.testBit_and]; rfl

theorem contains_diff (s t : IndexSet) (i : Nat) :
    (s.diff t).contains i = (s.contains i && !t.contains i) := by
  rw [contains, digits_diff, Nat.testBit_xor, Nat.testBit_and, contains, contains]
  cases (s.digits (i / width)).testBit (i % width) <;>
    cases (t.digits (i / width)).testBit (i % width) <;> rfl

end IndexSet

end Acquisition
