import Acquisition.IndexSet.Members
import Mathlib.Data.Finset.Powerset

/-!
# Index sets as sets

Membership and inclusion are written `i ∈ s` and `s ⊆ t`. Each operation on index
sets is described by its members, and an index set is tied to the finite set of
its members, so that subsets can be counted.
-/
namespace Acquisition.IndexSet

instance : Membership Nat IndexSet := ⟨fun s i => s.contains i = true⟩

instance (i : Nat) (s : IndexSet) : Decidable (i ∈ s) := inferInstanceAs (Decidable (_ = true))

instance : HasSubset IndexSet := ⟨fun s t => ∀ i, i ∈ s → i ∈ t⟩

theorem contains_iff {s : IndexSet} {i : Nat} : s.contains i = true ↔ i ∈ s := Iff.rfl

theorem not_contains_iff {s : IndexSet} {i : Nat} : s.contains i = false ↔ i ∉ s := by
  rw [← contains_iff, Bool.not_eq_true]

@[ext] theorem ext_mem {s t : IndexSet} (h : ∀ i, i ∈ s ↔ i ∈ t) : s = t :=
  ext_contains fun i => Bool.eq_iff_iff.2 (h i)

theorem Subset.refl (s : IndexSet) : s ⊆ s := fun _ h => h

theorem Subset.trans {s t u : IndexSet} (h : s ⊆ t) (h' : t ⊆ u) : s ⊆ u :=
  fun i hi => h' i (h i hi)

theorem Subset.antisymm {s t : IndexSet} (h : s ⊆ t) (h' : t ⊆ s) : s = t :=
  ext_mem fun i => ⟨h i, h' i⟩

@[simp] theorem mem_empty (i : Nat) : i ∉ (∅ : IndexSet) := by
  rw [← not_contains_iff]
  exact contains_empty i

@[simp] theorem mem_empty' (i : Nat) : i ∉ IndexSet.empty := mem_empty i

theorem empty_subset (s : IndexSet) : (∅ : IndexSet) ⊆ s := fun i h => absurd h (mem_empty i)

@[simp] theorem mem_insert {s : IndexSet} {i j : Nat} : j ∈ s.insert i ↔ j = i ∨ j ∈ s := by
  rw [← contains_iff, contains_insert, Bool.or_eq_true, decide_eq_true_iff, contains_iff,
    or_comm, eq_comm]

@[simp] theorem mem_erase {s : IndexSet} {i j : Nat} : j ∈ s.erase i ↔ j ∈ s ∧ j ≠ i := by
  rw [← contains_iff, contains_erase, Bool.and_eq_true, contains_iff, Bool.not_eq_true',
    decide_eq_false_iff_not, ne_comm]

@[simp] theorem mem_union {s t : IndexSet} {i : Nat} : i ∈ s.union t ↔ i ∈ s ∨ i ∈ t := by
  rw [← contains_iff, contains_union, Bool.or_eq_true, contains_iff, contains_iff]

@[simp] theorem mem_inter {s t : IndexSet} {i : Nat} : i ∈ s.inter t ↔ i ∈ s ∧ i ∈ t := by
  rw [← contains_iff, contains_inter, Bool.and_eq_true, contains_iff, contains_iff]

@[simp] theorem mem_diff {s t : IndexSet} {i : Nat} : i ∈ s.diff t ↔ i ∈ s ∧ i ∉ t := by
  rw [← contains_iff, contains_diff, Bool.and_eq_true, contains_iff, Bool.not_eq_true',
    not_contains_iff]

@[simp] theorem mem_extend {s : IndexSet} {is : List Nat} {i : Nat} :
    i ∈ s.extend is ↔ i ∈ s ∨ i ∈ is := by
  rw [← contains_iff, contains_extend, Bool.or_eq_true, contains_iff, decide_eq_true_iff]

@[simp] theorem mem_ofList {is : List Nat} {i : Nat} : i ∈ ofList is ↔ i ∈ is := by
  rw [← contains_iff, contains_ofList, decide_eq_true_iff]

@[simp] theorem mem_singleton {i j : Nat} : j ∈ singleton i ↔ j = i := by
  rw [← contains_iff, contains_singleton, decide_eq_true_iff, eq_comm]

@[simp] theorem mem_toList' {s : IndexSet} {i : Nat} : i ∈ s.toList ↔ i ∈ s := mem_toList s i

theorem insert_subset {s t : IndexSet} {i : Nat} (hs : s ⊆ t) (hi : i ∈ t) :
    s.insert i ⊆ t := fun j hj => by
  rcases mem_insert.1 hj with rfl | hj
  · exact hi
  · exact hs j hj

theorem subset_eq_true {s t : IndexSet} : s.subset t = true ↔ s ⊆ t := subset_iff s t

instance (s t : IndexSet) : Decidable (s ⊆ t) := decidable_of_iff _ subset_eq_true

instance (s : IndexSet) (P : Nat → Prop) [DecidablePred P] : Decidable (∀ i ∈ s, P i) :=
  decidable_of_iff (∀ i ∈ s.toList, P i) (by simp only [mem_toList'])

theorem isEmpty_eq_true {s : IndexSet} : s.isEmpty = true ↔ ∀ i, i ∉ s := by
  simp only [isEmpty_iff, not_contains_iff]

theorem isEmpty_eq_false {s : IndexSet} : s.isEmpty = false ↔ ∃ i, i ∈ s := by
  rw [← Bool.not_eq_true, isEmpty_eq_true]
  simp

theorem disjoint_eq_true {s t : IndexSet} : s.disjoint t = true ↔ ∀ i, i ∈ s → i ∉ t := by
  simp only [disjoint_iff, not_contains_iff, contains_iff]

theorem toList_eq_iff {s t : IndexSet} : s.toList = t.toList ↔ ∀ i, i ∈ s ↔ i ∈ t := by
  constructor
  · intro h i
    rw [← mem_toList', h, mem_toList']
  · intro h
    rw [ext_mem h]

theorem nodup_toList (s : IndexSet) : s.toList.Nodup :=
  (increasing_toList s).imp Nat.ne_of_lt

/-- A list in increasing order is the list of the set of its members. -/
theorem toList_ofList {is : List Nat} (h : is.Pairwise (· < ·)) : (ofList is).toList = is :=
  List.Perm.eq_of_pairwise (fun _ _ _ _ h h' => absurd h (Nat.lt_asymm h')) (increasing_toList _) h
    ((List.perm_ext_iff_of_nodup (nodup_toList _) (h.imp Nat.ne_of_lt)).2 fun i => by simp)

/-- The members as a finite set. -/
def toFinset (s : IndexSet) : Finset Nat := s.toList.toFinset

@[simp] theorem mem_toFinset {s : IndexSet} {i : Nat} : i ∈ s.toFinset ↔ i ∈ s := by
  simp [toFinset]

theorem toFinset_injective : Function.Injective toFinset := fun s t h =>
  ext_mem fun i => by rw [← mem_toFinset, h, mem_toFinset]

theorem card_toFinset (s : IndexSet) : s.toFinset.card = s.size :=
  List.toFinset_card_of_nodup (nodup_toList s)

theorem size_le_of_subset {s t : IndexSet} (h : s ⊆ t) : s.size ≤ t.size := by
  rw [← card_toFinset, ← card_toFinset]
  exact Finset.card_le_card fun i hi => mem_toFinset.2 (h i (mem_toFinset.1 hi))

theorem size_lt_of_ssubset {s t : IndexSet} (h : s ⊆ t) (hne : s ≠ t) : s.size < t.size := by
  rw [← card_toFinset, ← card_toFinset]
  refine Finset.card_lt_card (Finset.ssubset_iff_subset_ne.2 ⟨?_, fun e => ?_⟩)
  · exact fun i hi => mem_toFinset.2 (h i (mem_toFinset.1 hi))
  · exact hne (toFinset_injective e)

theorem toFinset_insert (s : IndexSet) (i : Nat) :
    (s.insert i).toFinset = Insert.insert i s.toFinset := by
  apply Finset.ext
  intro j
  rw [mem_toFinset, mem_insert, Finset.mem_insert, mem_toFinset]

theorem toFinset_diff (s t : IndexSet) : (s.diff t).toFinset = s.toFinset \ t.toFinset := by
  apply Finset.ext
  intro j
  rw [mem_toFinset, mem_diff, Finset.mem_sdiff, mem_toFinset, mem_toFinset]

theorem toFinset_erase (s : IndexSet) (i : Nat) : (s.erase i).toFinset = s.toFinset.erase i := by
  apply Finset.ext
  intro j
  rw [mem_toFinset, mem_erase, Finset.mem_erase, mem_toFinset, and_comm]

theorem size_insert {s : IndexSet} {i : Nat} (h : i ∉ s) : (s.insert i).size = s.size + 1 := by
  rw [← card_toFinset, ← card_toFinset, toFinset_insert, Finset.card_insert_of_notMem]
  rwa [mem_toFinset]

theorem size_insert_le (s : IndexSet) (i : Nat) : (s.insert i).size ≤ s.size + 1 := by
  rw [← card_toFinset, ← card_toFinset, toFinset_insert]
  exact Finset.card_insert_le i _

theorem size_erase {s : IndexSet} {i : Nat} (h : i ∈ s) : (s.erase i).size + 1 = s.size := by
  rw [← card_toFinset, ← card_toFinset, toFinset_erase, Finset.card_erase_add_one]
  rwa [mem_toFinset]

theorem insert_erase {s : IndexSet} {i : Nat} (h : i ∈ s) : (s.erase i).insert i = s := by
  apply ext_mem
  intro j
  rw [mem_insert, mem_erase]
  by_cases hj : j = i
  · simp [hj, h]
  · simp [hj]

/-- A part of two at least that makes room for one member leaves fewer. -/
theorem size_diff_insert_lt {s t : IndexSet} (hsub : t ⊆ s) (ht : 2 ≤ t.size) (i : Nat) :
    ((s.diff t).insert i).size < s.size := by
  have hdiff : (s.toFinset \ t.toFinset).card = s.toFinset.card - t.toFinset.card :=
    Finset.card_sdiff_of_subset fun j hj => mem_toFinset.2 (hsub j (mem_toFinset.1 hj))
  rw [← toFinset_diff, card_toFinset, card_toFinset, card_toFinset] at hdiff
  have hle := size_le_of_subset hsub
  have hinsert := size_insert_le (s.diff t) i
  omega

/-- Different subsets of a set of `n` members are `2 ^ n` at most. -/
theorem length_le_two_pow {s : IndexSet} {ts : List IndexSet} (hnd : ts.Nodup)
    (hsub : ∀ t ∈ ts, t ⊆ s) : ts.length ≤ 2 ^ s.size := by
  have hnd' : (ts.map toFinset).Nodup := hnd.map toFinset_injective
  rw [← card_toFinset, ← Finset.card_powerset, ← List.length_map toFinset,
    ← List.toFinset_card_of_nodup hnd']
  refine Finset.card_le_card fun u hu => ?_
  obtain ⟨t, ht, rfl⟩ := List.mem_map.1 (List.mem_toFinset.1 hu)
  exact Finset.mem_powerset.2 fun i hi => mem_toFinset.2 (hsub t ht i (mem_toFinset.1 hi))

end Acquisition.IndexSet
