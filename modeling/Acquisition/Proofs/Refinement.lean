import Acquisition.IndexSet.Commands
import Acquisition.Proofs.Words
import Mathlib.Data.Finset.Sort

/-!
# Commands on sets as commands on finite sets

The operations on sets that are kept in some way are lawful when each is described
by the members it leaves or tests. Then every command does to the finite sets of
members what it does to the sets that are kept, and its reply is the mathematical
one, and so it is for commands in any number and order. Vectors of words have
lawful operations, whatever their lengths, and so have index sets.
-/
namespace Acquisition

/-- The members in braces. -/
def braced (is : List Nat) : String := "\x7b" ++ ", ".intercalate (is.map toString) ++ "\x7d"

/-- Finite sets as mathematics has them. To put or take a member replies whether that
changed the set, and the members are listed in order. -/
def finsetOperations : SetOperations (Finset Nat) where
  new := ∅
  withCapacity _ := ∅
  ofList is := is.toFinset
  put s i := (decide (insert i s ≠ s), insert i s)
  take s i := (decide (s.erase i ≠ s), s.erase i)
  clear _ := ∅
  extend s is := s ∪ is.toFinset
  union s t := s ∪ t
  inter s t := s ∩ t
  diff s t := s \ t
  contains s i := decide (i ∈ s)
  size s := s.card
  isEmpty s := decide (s = ∅)
  first? s := if h : s.Nonempty then some (s.min' h) else none
  subset s t := decide (s ⊆ t)
  disjoint s t := decide (Disjoint s t)
  equal s t := decide (s = t)
  alike s t := decide (s = t)
  toList s := s.sort
  render s := braced s.sort

namespace SetOperations

variable {α : Type}

/-- Each operation as what it does to membership, which is tested by `contains`. -/
structure Lawful (O : SetOperations α) : Prop where
  new (i : Nat) : O.contains O.new i = false
  withCapacity (n : Nat) : O.withCapacity n = O.new
  ofList (is : List Nat) (i : Nat) : O.contains (O.ofList is) i = true ↔ i ∈ is
  put_fst (s : α) (i : Nat) : (O.put s i).1 = !O.contains s i
  put (s : α) (i j : Nat) : O.contains (O.put s i).2 j = true ↔ j = i ∨ O.contains s j = true
  take_fst (s : α) (i : Nat) : (O.take s i).1 = O.contains s i
  take (s : α) (i j : Nat) : O.contains (O.take s i).2 j = true ↔ O.contains s j = true ∧ j ≠ i
  clear (s : α) : O.clear s = O.new
  extend (s : α) (is : List Nat) (i : Nat) :
    O.contains (O.extend s is) i = true ↔ O.contains s i = true ∨ i ∈ is
  union (s t : α) (i : Nat) :
    O.contains (O.union s t) i = true ↔ O.contains s i = true ∨ O.contains t i = true
  inter (s t : α) (i : Nat) :
    O.contains (O.inter s t) i = true ↔ O.contains s i = true ∧ O.contains t i = true
  diff (s t : α) (i : Nat) :
    O.contains (O.diff s t) i = true ↔ O.contains s i = true ∧ ¬ O.contains t i = true
  size (s : α) : O.size s = (O.toList s).length
  isEmpty (s : α) : O.isEmpty s = true ↔ ∀ i, ¬ O.contains s i = true
  first? (s : α) : O.first? s = (O.toList s).head?
  subset (s t : α) : O.subset s t = true ↔ ∀ i, O.contains s i = true → O.contains t i = true
  disjoint (s t : α) : O.disjoint s t = true ↔ ∀ i, O.contains s i = true → ¬ O.contains t i = true
  equal (s t : α) : O.equal s t = true ↔ ∀ i, O.contains s i = true ↔ O.contains t i = true
  alike (s t : α) : O.alike s t = true ↔ ∀ i, O.contains s i = true ↔ O.contains t i = true
  mem_toList (s : α) (i : Nat) : i ∈ O.toList s ↔ O.contains s i = true
  increasing (s : α) : (O.toList s).Pairwise (· < ·)
  render (s : α) : O.render s = braced (O.toList s)

/-- The members as a finite set. -/
def toFinset (O : SetOperations α) (s : α) : Finset Nat := (O.toList s).toFinset

/-- The finite sets of what is in the registers. -/
def registers (O : SetOperations α) (σ : Nat → α) (r : Nat) : Finset Nat := O.toFinset (σ r)

theorem registers_assign (O : SetOperations α) (σ : Nat → α) (r : Nat) (s : α) :
    O.registers (assign σ r s) = assign (O.registers σ) r (O.toFinset s) := by
  funext k
  rw [registers, assign, assign]
  split <;> rfl

namespace Lawful

variable {O : SetOperations α} (h : O.Lawful)
include h

theorem mem_toFinset {s : α} {i : Nat} : i ∈ O.toFinset s ↔ O.contains s i = true := by
  rw [SetOperations.toFinset, List.mem_toFinset, h.mem_toList]

theorem toFinset_eq_iff {s t : α} :
    O.toFinset s = O.toFinset t ↔ ∀ i, O.contains s i = true ↔ O.contains t i = true := by
  simp only [Finset.ext_iff, h.mem_toFinset]

section Changes

theorem toFinset_new : O.toFinset O.new = ∅ := by
  apply Finset.eq_empty_of_forall_notMem
  intro i
  rw [h.mem_toFinset, h.new]
  exact Bool.false_ne_true

theorem toFinset_ofList (is : List Nat) : O.toFinset (O.ofList is) = is.toFinset := by
  apply Finset.ext
  intro i
  rw [h.mem_toFinset, h.ofList, List.mem_toFinset]

theorem toFinset_put (s : α) (i : Nat) : O.toFinset (O.put s i).2 = insert i (O.toFinset s) := by
  apply Finset.ext
  intro j
  rw [h.mem_toFinset, h.put, Finset.mem_insert, h.mem_toFinset]

theorem toFinset_take (s : α) (i : Nat) : O.toFinset (O.take s i).2 = (O.toFinset s).erase i := by
  apply Finset.ext
  intro j
  rw [h.mem_toFinset, h.take, Finset.mem_erase, h.mem_toFinset, and_comm]

theorem toFinset_extend (s : α) (is : List Nat) :
    O.toFinset (O.extend s is) = O.toFinset s ∪ is.toFinset := by
  apply Finset.ext
  intro i
  rw [h.mem_toFinset, h.extend, Finset.mem_union, h.mem_toFinset, List.mem_toFinset]

theorem toFinset_union (s t : α) : O.toFinset (O.union s t) = O.toFinset s ∪ O.toFinset t := by
  apply Finset.ext
  intro i
  rw [h.mem_toFinset, h.union, Finset.mem_union, h.mem_toFinset, h.mem_toFinset]

theorem toFinset_inter (s t : α) : O.toFinset (O.inter s t) = O.toFinset s ∩ O.toFinset t := by
  apply Finset.ext
  intro i
  rw [h.mem_toFinset, h.inter, Finset.mem_inter, h.mem_toFinset, h.mem_toFinset]

theorem toFinset_diff (s t : α) : O.toFinset (O.diff s t) = O.toFinset s \ O.toFinset t := by
  apply Finset.ext
  intro i
  rw [h.mem_toFinset, h.diff, Finset.mem_sdiff, h.mem_toFinset, h.mem_toFinset]

end Changes

section Tests

variable (s t : α) (i : Nat)

theorem contains_eq : O.contains s i = decide (i ∈ O.toFinset s) := by
  rw [Bool.eq_iff_iff, decide_eq_true_iff, h.mem_toFinset]

/-- To put a member in changes the set when it is new. -/
theorem put_fst_eq : (O.put s i).1 = decide (insert i (O.toFinset s) ≠ O.toFinset s) := by
  rw [h.put_fst, h.contains_eq, ← decide_not, decide_eq_decide, Ne, Finset.insert_eq_self]

/-- To take a member out changes the set when it was there. -/
theorem take_fst_eq : (O.take s i).1 = decide ((O.toFinset s).erase i ≠ O.toFinset s) := by
  rw [h.take_fst, h.contains_eq, decide_eq_decide, Finset.erase_ne_self]

theorem size_eq : O.size s = (O.toFinset s).card := by
  rw [h.size, SetOperations.toFinset,
    List.toFinset_card_of_nodup ((h.increasing s).imp Nat.ne_of_lt)]

theorem isEmpty_eq : O.isEmpty s = decide (O.toFinset s = ∅) := by
  rw [Bool.eq_iff_iff, h.isEmpty, decide_eq_true_iff, Finset.eq_empty_iff_forall_notMem]
  simp only [h.mem_toFinset]

theorem first?_eq : O.first? s = finsetOperations.first? (O.toFinset s) := by
  rw [h.first?, finsetOperations]
  dsimp only
  have hmem (i : Nat) : i ∈ O.toFinset s ↔ i ∈ O.toList s := List.mem_toFinset
  have hinc := h.increasing s
  cases hs : O.toList s with
  | nil =>
    have hne : ¬ (O.toFinset s).Nonempty := by
      rintro ⟨i, hi⟩
      rw [hmem, hs] at hi
      cases hi
    rw [dif_neg hne, List.head?_nil]
  | cons i is =>
    rw [hs] at hinc
    have hi : i ∈ O.toFinset s := by rw [hmem, hs]; exact List.mem_cons_self
    have hleast : ∀ j ∈ O.toFinset s, i ≤ j := by
      intro j hj
      rw [hmem, hs, List.mem_cons] at hj
      rcases hj with rfl | hj
      · exact Nat.le_refl j
      · exact Nat.le_of_lt (List.rel_of_pairwise_cons hinc hj)
    rw [dif_pos ⟨i, hi⟩, List.head?_cons, Option.some_inj, eq_comm]
    exact (Finset.min'_eq_iff _ _ _).2 ⟨hi, hleast⟩

theorem subset_eq : O.subset s t = decide (O.toFinset s ⊆ O.toFinset t) := by
  rw [Bool.eq_iff_iff, h.subset, decide_eq_true_iff, Finset.subset_iff]
  simp only [h.mem_toFinset]

theorem disjoint_eq : O.disjoint s t = decide (Disjoint (O.toFinset s) (O.toFinset t)) := by
  rw [Bool.eq_iff_iff, h.disjoint, decide_eq_true_iff, Finset.disjoint_left]
  simp only [h.mem_toFinset]

theorem equal_eq : O.equal s t = decide (O.toFinset s = O.toFinset t) := by
  rw [Bool.eq_iff_iff, h.equal, decide_eq_true_iff, h.toFinset_eq_iff]

theorem alike_eq : O.alike s t = decide (O.toFinset s = O.toFinset t) := by
  rw [Bool.eq_iff_iff, h.alike, decide_eq_true_iff, h.toFinset_eq_iff]

/-- A list in increasing order is the list of the finite set of its members. -/
theorem toList_eq : O.toList s = (O.toFinset s).sort := by
  refine List.Perm.eq_of_pairwise (fun _ _ _ _ h h' => absurd h (Nat.lt_asymm h'))
    (h.increasing s) (Finset.sortedLT_sort _).pairwise ?_
  rw [List.perm_ext_iff_of_nodup ((h.increasing s).imp Nat.ne_of_lt) (Finset.sort_nodup _ _)]
  intro i
  rw [Finset.mem_sort, h.mem_toFinset, h.mem_toList]

end Tests

theorem step_eq (σ : Nat → α) (c : Command) :
    finsetOperations.step (O.registers σ) c = ((O.step σ c).1, O.registers (O.step σ c).2) := by
  cases c with
  | new r => simp only [step, registers_assign, h.toFinset_new, finsetOperations]
  | withCapacity r bits =>
    simp only [step, registers_assign, h.withCapacity, h.toFinset_new, finsetOperations]
  | ofList r is => simp only [step, registers_assign, h.toFinset_ofList, finsetOperations]
  | clone r t => simp only [step, registers_assign, registers]
  | insert r i =>
    simp only [step, registers_assign, h.toFinset_put, h.put_fst_eq, registers, finsetOperations]
  | remove r i =>
    simp only [step, registers_assign, h.toFinset_take, h.take_fst_eq, registers, finsetOperations]
  | clear r => simp only [step, registers_assign, h.clear, h.toFinset_new, finsetOperations]
  | extend r is =>
    simp only [step, registers_assign, h.toFinset_extend, registers, finsetOperations]
  | union r t => simp only [step, registers_assign, h.toFinset_union, registers, finsetOperations]
  | inter r t => simp only [step, registers_assign, h.toFinset_inter, registers, finsetOperations]
  | diff r t => simp only [step, registers_assign, h.toFinset_diff, registers, finsetOperations]
  | contains r i => simp only [step, h.contains_eq, registers, finsetOperations]
  | size r => simp only [step, h.size_eq, registers, finsetOperations]
  | isEmpty r => simp only [step, h.isEmpty_eq, registers, finsetOperations]
  | first r => simp only [step, h.first?_eq, registers]
  | subset r t => simp only [step, h.subset_eq, registers, finsetOperations]
  | disjoint r t => simp only [step, h.disjoint_eq, registers, finsetOperations]
  | equal r t => simp only [step, h.equal_eq, registers, finsetOperations]
  | alike r t => simp only [step, h.alike_eq, registers, finsetOperations]
  | list r => simp only [step, h.toList_eq, registers, finsetOperations]
  | render r => simp only [step, h.render, h.toList_eq, registers, finsetOperations]

theorem run_eq (σ : Nat → α) (cs : List Command) :
    finsetOperations.run (O.registers σ) cs = ((O.run σ cs).1, O.registers (O.run σ cs).2) := by
  induction cs generalizing σ with
  | nil => rfl
  | cons c cs ih => simp only [run, h.step_eq, ih]

end Lawful

end SetOperations

theorem Words.lawful : Words.operations.Lawful where
  new _ := rfl
  withCapacity _ := rfl
  ofList _ _ := Words.mem_ofList
  put_fst := Words.put_fst
  put s _ _ := Words.mem_put s
  take_fst := Words.take_fst
  take s _ _ := Words.mem_take s
  clear _ := rfl
  extend s _ _ := Words.mem_extend s
  union s t _ := Words.mem_union s t
  inter s t _ := Words.mem_inter s t
  diff s t _ := Words.mem_diff s t
  size _ := Words.size_eq
  isEmpty _ := Words.isEmpty_eq_true
  first? _ := Words.first?_eq
  subset _ _ := Words.subset_eq_true
  disjoint _ _ := Words.disjoint_eq_true
  equal _ _ := Words.beq_eq_true
  alike _ _ := beq_iff_eq.trans Words.significant_eq_iff
  mem_toList _ _ := Words.mem_toList
  increasing _ := Words.increasing_toList
  render _ := rfl

theorem IndexSet.lawful : IndexSet.operations.Lawful where
  new := IndexSet.contains_empty
  withCapacity _ := rfl
  ofList _ _ := IndexSet.mem_ofList
  put_fst _ _ := rfl
  put _ _ _ := IndexSet.mem_insert
  take_fst _ _ := rfl
  take _ _ _ := IndexSet.mem_erase
  clear _ := rfl
  extend _ _ _ := IndexSet.mem_extend
  union _ _ _ := IndexSet.mem_union
  inter _ _ _ := IndexSet.mem_inter
  diff _ _ _ := IndexSet.mem_diff
  size _ := rfl
  isEmpty _ := IndexSet.isEmpty_eq_true
  first? _ := rfl
  subset _ _ := IndexSet.subset_eq_true
  disjoint _ _ := IndexSet.disjoint_eq_true
  equal _ _ := beq_iff_eq.trans IndexSet.ext_mem_iff
  alike _ _ := beq_iff_eq.trans IndexSet.toList_eq_iff
  mem_toList _ _ := IndexSet.mem_toList'
  increasing := IndexSet.increasing_toList
  render _ := rfl

/-- Commands in any number and order, on vectors of words of any lengths or on index
sets, have the replies that mathematics gives, and leave the finite sets it leaves. -/
theorem run_refines_finsets (cs : List Command) :
    (∀ σ : Nat → Words, finsetOperations.run (Words.operations.registers σ) cs =
      ((Words.operations.run σ cs).1, Words.operations.registers (Words.operations.run σ cs).2)) ∧
    (∀ σ : Nat → IndexSet, finsetOperations.run (IndexSet.operations.registers σ) cs =
      ((IndexSet.operations.run σ cs).1,
        IndexSet.operations.registers (IndexSet.operations.run σ cs).2)) :=
  ⟨fun σ => Words.lawful.run_eq σ cs, fun σ => IndexSet.lawful.run_eq σ cs⟩

end Acquisition
