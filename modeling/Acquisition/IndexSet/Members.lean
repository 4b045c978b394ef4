import Acquisition.IndexSet

/-!
# Members of index sets

A set is known by its members. Here each operation on sets is described by what
it does to membership: the tests of inclusion, of disjointness and of emptiness
decide the relations they are named for, and the list of a set holds its members,
each once and in increasing order.
-/
namespace Acquisition.IndexSet

-- Powers are those of the core language, also where others are in scope.
attribute [local instance (high)] instPowNat

theorem contains_extend (s : IndexSet) (is : List Nat) (j : Nat) :
    (s.extend is).contains j = (s.contains j || decide (j ∈ is)) := by
  induction is generalizing s with
  | nil => simp [extend]
  | cons i is ih =>
    have h := ih (s.insert i)
    simp only [extend, List.foldl_cons] at h ⊢
    rw [h, contains_insert]
    by_cases hij : i = j
    · simp [hij]
    · simp [hij, Ne.symm hij]

theorem contains_ofList (is : List Nat) (j : Nat) : (ofList is).contains j = decide (j ∈ is) := by
  simp [ofList, contains_extend, contains_empty]

theorem contains_singleton (i j : Nat) : (singleton i).contains j = decide (i = j) := by
  simp [singleton, contains_insert, contains_empty]

theorem digits_below (n k : Nat) :
    (below n).digits k =
      if k < n / Block.width then 2 ^ Block.width - 1
      else if k = n / Block.width then 2 ^ (n % Block.width) - 1 else 0 := by
  have hinc := (Block.Proper.upTo n).increasing
  change Block.digitsAt k (Block.upTo n) = _
  by_cases hk : k < n / Block.width
  · rw [if_pos hk]
    exact Block.digitsAt_of_mem hinc (b := ⟨k, _⟩) (Block.mem_upTo.2 (.inl ⟨hk, rfl⟩))
  · rw [if_neg hk]
    by_cases hw : k = n / Block.width ∧ 2 ^ (n % Block.width) - 1 ≠ 0
    · obtain ⟨rfl, hw⟩ := hw
      rw [if_pos rfl]
      exact Block.digitsAt_of_mem hinc (Block.mem_upTo.2 (.inr ⟨rfl, hw⟩))
    · rw [Block.digitsAt_of_ne fun b hb he => ?_]
      · split
        · next he => exact (Decidable.of_not_not fun h0 => hw ⟨he, h0⟩).symm
        · rfl
      · rcases Block.mem_upTo.1 hb with ⟨hb, _⟩ | ⟨rfl, h0⟩
        · exact hk (he ▸ hb)
        · exact hw ⟨he.symm, h0⟩

theorem contains_below (n i : Nat) : (below n).contains i = decide (i < n) := by
  have hi := Nat.div_add_mod i Block.width
  have hn := Nat.div_add_mod n Block.width
  have hr := Nat.mod_lt i Block.width_pos
  have hs := Nat.mod_lt n Block.width_pos
  rw [contains, digits_below]
  by_cases hk : i / Block.width < n / Block.width
  · have hlt : i < n := Nat.lt_of_not_le fun hle =>
      Nat.not_lt.2 (Nat.div_le_div_right hle) hk
    rw [if_pos hk, Nat.testBit_two_pow_sub_one, decide_eq_true hr, decide_eq_true hlt]
  · rw [if_neg hk]
    by_cases he : i / Block.width = n / Block.width
    · rw [if_pos he, Nat.testBit_two_pow_sub_one, decide_eq_decide]
      rw [he] at hi
      omega
    · have hnlt : ¬ i < n := fun hlt => by
        have := Nat.div_le_div_right (c := Block.width) (Nat.le_of_lt hlt)
        omega
      rw [if_neg he, Nat.zero_testBit, decide_eq_false hnlt]

theorem subset_iff (s t : IndexSet) :
    s.subset t = true ↔ ∀ i, s.contains i = true → t.contains i = true := by
  rw [subset, beq_iff_eq]
  refine ⟨fun h i hi => ?_, fun h => ext_contains fun i => ?_⟩
  · rw [← h, contains_inter] at hi
    exact (Bool.and_eq_true_iff.1 hi).2
  · rw [contains_inter]
    cases hi : s.contains i
    · rfl
    · exact h i hi

theorem isEmpty_iff (s : IndexSet) : s.isEmpty = true ↔ ∀ i, s.contains i = false := by
  rw [isEmpty, List.isEmpty_iff]
  refine ⟨fun h i => ?_, fun h => ?_⟩
  · rw [contains, digits, h]
    exact Nat.zero_testBit _
  · have he : s = empty := ext_contains fun i => by rw [h, contains_empty]
    rw [he]; rfl

theorem disjoint_iff (s t : IndexSet) :
    s.disjoint t = true ↔ ∀ i, s.contains i = true → t.contains i = false := by
  have h : s.disjoint t = (s.inter t).isEmpty := rfl
  rw [h, isEmpty_iff]
  refine forall_congr' fun i => ?_
  rw [contains_inter]
  cases s.contains i <;> simp

theorem lowDigits_eq (w b : Nat) : lowDigits w b = b % 2 ^ w := by
  refine Nat.eq_of_testBit_eq fun i => ?_
  rw [lowDigits, Nat.testBit_xor, Nat.testBit_shiftLeft, Nat.testBit_mod_two_pow]
  by_cases h : w ≤ i
  · have hn : ¬ i < w := Nat.not_lt.2 h
    simp [h, hn, Nat.testBit_shiftRight]
  · simp [h, Nat.lt_of_not_le h]

theorem mem_listFrom {d o b i : Nat} (hb : b < 2 ^ (2 ^ d : Nat)) (rest : List Nat) :
    i ∈ listFrom d o b rest ↔ (o ≤ i ∧ b.testBit (i - o) = true) ∨ i ∈ rest := by
  induction d generalizing o b rest with
  | zero =>
    have hb : b = 0 ∨ b = 1 := by omega
    rcases hb with rfl | rfl
    · simp [listFrom]
    · simp only [listFrom, Nat.one_ne_zero, if_false, List.mem_cons,
        Nat.testBit_one_eq_true_iff_self_eq_zero]
      exact or_congr ⟨fun h => by omega, fun h => by omega⟩ Iff.rfl
  | succ d ih =>
    unfold listFrom
    by_cases h0 : b = 0
    · simp [h0]
    · have hlow : b % 2 ^ (2 ^ d : Nat) < 2 ^ (2 ^ d : Nat) := Nat.mod_lt _ (Nat.two_pow_pos _)
      have hhigh : b >>> 2 ^ d < 2 ^ (2 ^ d : Nat) := by
        rw [Nat.shiftRight_eq_div_pow]
        refine Nat.div_lt_of_lt_mul ?_
        rw [← Nat.pow_add, ← Nat.two_mul, ← Nat.pow_succ']
        exact hb
      have hpos := Nat.two_pow_pos d
      rw [if_neg h0, lowDigits_eq, ih hlow, ih hhigh, ← or_assoc]
      refine or_congr ?_ Iff.rfl
      rw [Nat.testBit_mod_two_pow, Nat.testBit_shiftRight]
      by_cases hi : o + 2 ^ d ≤ i
      · have hn : ¬ i - o < 2 ^ d := by omega
        have he : 2 ^ d + (i - (o + 2 ^ d)) = i - o := by omega
        have ho : o ≤ i := by omega
        simp [hi, hn, he, ho]
      · by_cases ho : o ≤ i
        · have hl : i - o < 2 ^ d := by omega
          simp [hi, ho, hl]
        · simp [hi, ho]

/-- The depth from which the indices of a block are listed is enough. -/
theorem digits_lt_depth (w : Nat) : w < 2 ^ (2 ^ (w.log2.log2 + 1) : Nat) :=
  Nat.lt_of_lt_of_le Nat.lt_log2_self
    (Nat.pow_le_pow_right (by decide) (Nat.succ_le_of_lt Nat.lt_log2_self))

/-- The depth from which the indices of a block are listed stays within the block. -/
theorem two_pow_depth_le {w : Nat} (h : w < 2 ^ Block.width) :
    2 ^ (w.log2.log2 + 1) ≤ Block.width := by
  have hl : w.log2 < Block.width := by
    by_cases h0 : w = 0
    · rw [h0, Nat.log2_zero]; exact Block.width_pos
    · exact (Nat.log2_lt h0).2 h
  have hd : w.log2.log2 < 12 := by
    by_cases h0 : w.log2 = 0
    · rw [h0, Nat.log2_zero]; decide
    · exact (Nat.log2_lt h0).2 hl
  exact Nat.pow_le_pow_right (by decide) hd

theorem mem_listBlock (b : Block) (rest : List Nat) (i : Nat) :
    i ∈ listBlock b rest ↔
      (b.key * Block.width ≤ i ∧ b.digits.testBit (i - b.key * Block.width) = true) ∨ i ∈ rest :=
  mem_listFrom (digits_lt_depth _) rest

theorem mem_listBlocks {bs : List Block} (h : Block.Proper bs) (i : Nat) :
    i ∈ bs.foldr listBlock [] ↔
      (Block.digitsAt (i / Block.width) bs).testBit (i % Block.width) = true := by
  induction bs with
  | nil => simp [Block.digitsAt]
  | cons b bs ih =>
    rw [List.foldr_cons, mem_listBlock, ih h.tail, Block.digitsAt]
    have hlt := h.digits_lt b List.mem_cons_self
    have hm := Nat.div_add_mod i Block.width
    have hr := Nat.mod_lt i Block.width_pos
    by_cases hk : b.key = i / Block.width
    · rw [if_pos hk, Block.digitsAt_eq_zero fun c hc => hk ▸ h.head_lt hc]
      have he : i - b.key * Block.width = i % Block.width := by
        rw [hk, Nat.mul_comm]; omega
      have ho : b.key * Block.width ≤ i := by rw [hk, Nat.mul_comm]; omega
      simp [he, ho]
    · rw [if_neg hk]
      refine ⟨fun hi => hi.resolve_left fun hthis => hk ?_, .inr⟩
      obtain ⟨ho, ht⟩ := hthis
      have hb : i - b.key * Block.width < Block.width := Nat.lt_of_not_le fun hle => by
        rw [Nat.testBit_lt_two_pow (Nat.lt_of_lt_of_le hlt
          (Nat.pow_le_pow_right (by decide) hle))] at ht
        cases ht
      refine (Nat.div_eq_of_lt_le ho ?_).symm
      rw [Nat.succ_mul]
      omega

theorem mem_toList (s : IndexSet) (i : Nat) : i ∈ s.toList ↔ s.contains i = true :=
  mem_listBlocks s.proper i

theorem increasing_listFrom {d o b : Nat} (hb : b < 2 ^ (2 ^ d : Nat)) {rest : List Nat}
    (hrest : rest.Pairwise (· < ·)) (hover : ∀ i ∈ rest, o + 2 ^ d ≤ i) :
    (listFrom d o b rest).Pairwise (· < ·) := by
  induction d generalizing o b rest with
  | zero =>
    unfold listFrom
    split
    · exact hrest
    · exact List.pairwise_cons.2 ⟨fun i hi => by have := hover i hi; omega, hrest⟩
  | succ d ih =>
    unfold listFrom
    split
    · exact hrest
    · have hlow : b % 2 ^ (2 ^ d : Nat) < 2 ^ (2 ^ d : Nat) := Nat.mod_lt _ (Nat.two_pow_pos _)
      have hhigh : b >>> 2 ^ d < 2 ^ (2 ^ d : Nat) := by
        rw [Nat.shiftRight_eq_div_pow]
        refine Nat.div_lt_of_lt_mul ?_
        rw [← Nat.pow_add, ← Nat.two_mul, ← Nat.pow_succ']
        exact hb
      have hpos := Nat.two_pow_pos d
      have hp : 2 ^ (d + 1) = 2 ^ d + 2 ^ d := by omega
      rw [lowDigits_eq]
      refine ih hlow (ih hhigh hrest fun i hi => ?_) fun i hi => ?_
      · have := hover i hi; omega
      · rcases (mem_listFrom hhigh _).1 hi with h | h
        · exact h.1
        · have := hover i h; omega

theorem increasing_listBlocks {bs : List Block} (h : Block.Proper bs) :
    (bs.foldr listBlock []).Pairwise (· < ·) := by
  induction bs with
  | nil => exact .nil
  | cons b bs ih =>
    refine increasing_listFrom (digits_lt_depth _) (ih h.tail) fun i hi => ?_
    rw [mem_listBlocks h.tail] at hi
    have hd := two_pow_depth_le (h.digits_lt b List.mem_cons_self)
    have hk : b.key < i / Block.width := Nat.lt_of_not_le fun hle => by
      rw [Block.digitsAt_eq_zero fun c hc => Nat.lt_of_le_of_lt hle (h.head_lt hc)] at hi
      simp at hi
    have hm : (b.key + 1) * Block.width ≤ i :=
      (Nat.le_div_iff_mul_le Block.width_pos).1 hk
    rw [Nat.succ_mul] at hm
    omega

theorem increasing_toList (s : IndexSet) : s.toList.Pairwise (· < ·) :=
  increasing_listBlocks s.proper

end Acquisition.IndexSet
