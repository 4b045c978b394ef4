import Acquisition.IndexSet.Words
import Acquisition.Proofs.Sets

/-!
# Vectors of words as sets

What an operation does to a vector is told by the word it leaves in each place,
where a place past the end holds the word 0. So vectors of different lengths need
no cases, and words without digits at the end do not matter.
-/
namespace Acquisition.Words

open Word (mark)

instance : Membership Nat Words := ⟨fun s i => s.contains i = true⟩

theorem contains_iff {s : Words} {i : Nat} : s.contains i = true ↔ i ∈ s := Iff.rfl

theorem index_eq_iff (i j : Nat) : i = j ↔ i / 64 = j / 64 ∧ i % 64 = j % 64 := by omega

theorem getLsbD_mark (i j : Nat) : (mark i).getLsbD (j % 64) = decide (i % 64 = j % 64) := by
  have hi : i % 64 < 64 := Nat.mod_lt _ (by decide)
  rw [mark, BitVec.getLsbD_twoPow, decide_eq_true hi, Bool.true_and]

theorem and_mark_eq_zero (w : Word) (i : Nat) : w &&& mark i = 0 ↔ w.getLsbD (i % 64) = false := by
  have hne : BitVec.twoPow 64 (i % 64) ≠ 0#64 := fun h => by
    have := getLsbD_mark i i
    rw [mark, h] at this
    simp at this
  rw [mark, BitVec.and_twoPow]
  cases w.getLsbD (i % 64) <;> simp [hne]

theorem word_eq (s : Words) (k : Nat) : s.word k = (s.blocks[k]?).getD 0 :=
  Array.getD_eq_getD_getElem?

theorem mem_iff {s : Words} {i : Nat} : i ∈ s ↔ (s.word (i / 64)).getLsbD (i % 64) = true := by
  rw [← contains_iff, contains, word_eq]
  cases s.blocks[i / 64]? with
  | none => simp
  | some w =>
    rw [Option.any_some, Option.getD_some, bne_iff_ne, Ne, and_mark_eq_zero, Bool.not_eq_false]

theorem block_lt {s : Words} {i : Nat} (h : i ∈ s) : i / 64 < s.blocks.size := by
  by_contra hle
  rw [mem_iff, word_eq, Array.getElem?_eq_none (Nat.not_lt.1 hle)] at h
  simp at h

/-- Two vectors hold the same set when they have the same word in each place. -/
theorem word_eq_iff {s t : Words} : (∀ k, s.word k = t.word k) ↔ ∀ i, i ∈ s ↔ i ∈ t := by
  constructor
  · intro h i
    rw [mem_iff, mem_iff, h]
  · intro h k
    apply BitVec.eq_of_getLsbD_eq
    intro j hj
    have hmem := h (k * 64 + j)
    have hdiv : (k * 64 + j) / 64 = k := by omega
    have hmod : (k * 64 + j) % 64 = j := by omega
    rwa [mem_iff, mem_iff, hdiv, hmod, ← Bool.eq_iff_iff] at hmem

section Changes

variable (s t : Words)

theorem getD_resized (n k : Nat) : (s.resized n).getD k 0 = s.word k := by
  rw [resized, Array.getD_eq_getD_getElem?, word_eq, Array.getElem?_append]
  split
  · rfl
  · next h =>
    rw [Array.getElem?_replicate, Array.getElem?_eq_none (Nat.not_lt.1 h)]
    split <;> rfl

theorem size_resized (n : Nat) : (s.resized n).size = max s.blocks.size n := by
  rw [resized, Array.size_append, Array.size_replicate]
  omega

theorem word_set {bs : Array Word} {k : Nat} (hk : k < bs.size) (w : Word) (j : Nat) :
    (Words.mk (bs.setIfInBounds k w)).word j = if k = j then w else bs.getD j 0 := by
  rw [word_eq, Array.getD_eq_getD_getElem?, Array.getElem?_setIfInBounds, if_pos hk]
  split <;> rfl

theorem put_fst (i : Nat) : (s.put i).1 = !s.contains i := by
  have hmem := contains_iff (s := s) (i := i)
  rw [mem_iff, ← Bool.eq_iff_iff] at hmem
  rw [hmem, put, getD_resized, Bool.eq_iff_iff, beq_iff_eq, and_mark_eq_zero, Bool.not_eq_true']

theorem mem_put {i j : Nat} : j ∈ (s.put i).2 ↔ j = i ∨ j ∈ s := by
  have hlt : i / 64 < (s.resized (i / 64 + 1)).size := by rw [size_resized]; omega
  rw [mem_iff, put, word_set hlt, getD_resized, getD_resized, mem_iff, index_eq_iff j i]
  by_cases hk : i / 64 = j / 64
  · rw [if_pos hk, BitVec.getLsbD_or, getLsbD_mark, hk]
    simp only [Bool.or_eq_true, decide_eq_true_iff, true_and]
    rw [or_comm, eq_comm (a := i % 64)]
  · rw [if_neg hk]
    simp [Ne.symm hk]

theorem take_of_mem {i : Nat} (h : i ∈ s) :
    s.take i = (true, ⟨s.blocks.setIfInBounds (i / 64) (s.word (i / 64) &&& ~~~mark i)⟩) := by
  have hget : s.blocks[i / 64]? = some (s.word (i / 64)) := by
    rw [word_eq, Array.getElem?_eq_getElem (block_lt h), Option.getD_some]
  have hne : s.word (i / 64) &&& mark i ≠ 0 := by
    rw [Ne, and_mark_eq_zero, mem_iff.1 h]
    exact Bool.true_eq_false.mp
  rw [take, hget]
  simp only [if_pos hne]

theorem take_of_not_mem {i : Nat} (h : i ∉ s) : s.take i = (false, s) := by
  rw [take]
  split
  · next w hget =>
    rw [mem_iff, word_eq, hget, Option.getD_some, Bool.not_eq_true, ← and_mark_eq_zero] at h
    rw [if_neg (not_not_intro h)]
  · rfl

theorem take_fst (i : Nat) : (s.take i).1 = s.contains i := by
  cases h : s.contains i with
  | true => rw [take_of_mem s (contains_iff.1 h)]
  | false => rw [take_of_not_mem s (by rw [← contains_iff, h]; exact Bool.false_ne_true)]

theorem mem_take {i j : Nat} : j ∈ (s.take i).2 ↔ j ∈ s ∧ j ≠ i := by
  by_cases hi : i ∈ s
  · have hj : j % 64 < 64 := Nat.mod_lt _ (by decide)
    rw [take_of_mem s hi, mem_iff, word_set (block_lt hi), mem_iff, Ne, index_eq_iff j i, ← word]
    by_cases hk : i / 64 = j / 64
    · rw [if_pos hk, BitVec.getLsbD_and, BitVec.getLsbD_not, getLsbD_mark, hk]
      simp only [hj, decide_true, Bool.true_and, Bool.and_eq_true, Bool.not_eq_true',
        decide_eq_false_iff_not, true_and]
      rw [eq_comm (a := i % 64)]
    · simp [hk, Ne.symm hk]
  · rw [take_of_not_mem s hi]
    simp only [iff_self_and]
    intro hj he
    exact hi (he ▸ hj)

theorem word_zipped (f : Word → Word → Word) (bs cs : Array Word) (k : Nat) :
    (zipped f bs cs).word k = (bs[k]?).elim 0 fun w => (cs[k]?).elim w (f w) := by
  rw [word_eq, zipped, Array.getElem?_mapIdx]
  cases bs[k]? <;> rfl

theorem word_union (k : Nat) : (s.union t).word k = s.word k ||| t.word k := by
  have hs : ((s.resized t.blocks.size)[k]?).getD 0 = s.word k := by
    rw [← getD_resized s t.blocks.size, Array.getD_eq_getD_getElem?]
  rw [union, word_zipped, ← hs, word_eq t]
  cases hw : (s.resized t.blocks.size)[k]? with
  | none =>
    -- The vector was resized to the other one, which has no word there either.
    have hle := Array.getElem?_eq_none_iff.1 hw
    rw [size_resized] at hle
    rw [Array.getElem?_eq_none (by omega : t.blocks.size ≤ k)]
    simp
  | some w => cases t.blocks[k]? <;> simp

theorem word_inter (k : Nat) : (s.inter t).word k = s.word k &&& t.word k := by
  rw [inter, word_eq, Array.getElem?_mapIdx, word_eq s]
  cases s.blocks[k]? <;> simp

theorem word_diff (k : Nat) : (s.diff t).word k = s.word k &&& ~~~t.word k := by
  rw [diff, word_zipped, word_eq s, word_eq t]
  cases s.blocks[k]? <;> cases t.blocks[k]? <;> simp [-BitVec.reduceAllOnes]

theorem mem_union {i : Nat} : i ∈ s.union t ↔ i ∈ s ∨ i ∈ t := by
  rw [mem_iff, word_union, BitVec.getLsbD_or, Bool.or_eq_true, mem_iff, mem_iff]

theorem mem_inter {i : Nat} : i ∈ s.inter t ↔ i ∈ s ∧ i ∈ t := by
  rw [mem_iff, word_inter, BitVec.getLsbD_and, Bool.and_eq_true, mem_iff, mem_iff]

theorem mem_diff {i : Nat} : i ∈ s.diff t ↔ i ∈ s ∧ i ∉ t := by
  have hi : i % 64 < 64 := Nat.mod_lt _ (by decide)
  rw [mem_iff, word_diff, BitVec.getLsbD_and, BitVec.getLsbD_not, decide_eq_true hi, Bool.true_and,
    Bool.and_eq_true, Bool.not_eq_true', ← Bool.not_eq_true, mem_iff, mem_iff]

theorem not_mem_new (i : Nat) : i ∉ new := Bool.false_ne_true

theorem mem_extend {is : List Nat} {i : Nat} : i ∈ s.extend is ↔ i ∈ s ∨ i ∈ is := by
  induction is generalizing s with
  | nil => simp [extend]
  | cons j is ih =>
    have h := ih (s.put j).2
    rw [mem_put] at h
    rw [extend, List.foldl_cons]
    apply h.trans
    rw [List.mem_cons, ← or_assoc, or_comm (a := i = j)]

theorem mem_ofList {is : List Nat} {i : Nat} : i ∈ ofList is ↔ i ∈ is := by
  rw [ofList, mem_extend, or_iff_right (not_mem_new i)]

end Changes

section Tests

variable {s t : Words}

theorem word_of_lt {k : Nat} (h : k < s.blocks.size) : s.word k = s.blocks[k] := by
  rw [word_eq, Array.getElem?_eq_getElem h, Option.getD_some]

theorem word_of_le {k : Nat} (h : s.blocks.size ≤ k) : s.word k = 0 := by
  rw [word_eq, Array.getElem?_eq_none h, Option.getD_none]

/-- What holds of the word 0 has to be tested for the words of the vector only. -/
theorem forall_word {p : Nat → Word → Prop} (h0 : ∀ k, p k 0) :
    (∀ k, p k (s.word k)) ↔ ∀ k, (h : k < s.blocks.size) → p k s.blocks[k] := by
  constructor
  · intro h k hk
    rw [← word_of_lt hk]
    exact h k
  · intro h k
    by_cases hk : k < s.blocks.size
    · rw [word_of_lt hk]
      exact h k hk
    · rw [word_of_le (Nat.not_lt.1 hk)]
      exact h0 k

theorem word_eq_zero_iff : (∀ k, s.word k = 0) ↔ ∀ i, i ∉ s := by
  have h := word_eq_iff (s := s) (t := new)
  simp only [not_mem_new, iff_false] at h
  exact h

theorem isEmpty_eq_true : s.isEmpty = true ↔ ∀ i, i ∉ s := by
  rw [isEmpty, Array.all_eq_true, ← word_eq_zero_iff, forall_word (p := fun _ w => w = 0) (fun _ => rfl)]
  simp only [beq_iff_eq]

theorem subset_eq_true : s.subset t = true ↔ ∀ i, i ∈ s → i ∈ t := by
  have hwords : s.subset t = true ↔ ∀ k, (s.diff t).word k = 0 := by
    simp only [word_diff]
    rw [subset, Array.all_eq_true,
      forall_word (p := fun k w => w &&& ~~~t.word k = 0) (fun _ => BitVec.zero_and)]
    simp
  rw [hwords, word_eq_zero_iff]
  simp only [mem_diff, not_and, not_not]

theorem disjoint_eq_true : s.disjoint t = true ↔ ∀ i, i ∈ s → i ∉ t := by
  have hwords : s.disjoint t = true ↔ ∀ k, (s.inter t).word k = 0 := by
    simp only [word_inter]
    rw [disjoint, Array.all_eq_true]
    simp only [Array.size_zipWith, Array.getElem_zipWith, id, beq_iff_eq, Nat.lt_min]
    constructor
    · intro h k
      by_cases hk : k < s.blocks.size ∧ k < t.blocks.size
      · rw [word_of_lt hk.1, word_of_lt hk.2]
        exact h k hk
      · rcases not_and_or.1 hk with hk | hk
        · rw [word_of_le (Nat.not_lt.1 hk)]
          exact BitVec.zero_and
        · rw [word_of_le (s := t) (Nat.not_lt.1 hk)]
          exact BitVec.and_zero
    · intro h k hk
      rw [← word_of_lt hk.1, ← word_of_lt hk.2]
      exact h k
  rw [hwords, word_eq_zero_iff]
  simp only [mem_inter, not_and]

theorem reach_le (n : Nat) : s.reach n ≤ n := by
  induction n with
  | zero => exact Nat.le_refl 0
  | succ n ih =>
    rw [reach]
    split <;> omega

theorem word_of_reach_le {n k : Nat} (hr : s.reach n ≤ k) (hk : k < n) : s.word k = 0 := by
  induction n with
  | zero => omega
  | succ n ih =>
    rw [reach] at hr
    split at hr
    · omega
    · next hn =>
      rcases Nat.lt_succ_iff_lt_or_eq.1 hk with hk | rfl
      · exact ih hr hk
      · exact not_not.1 hn

theorem word_reach_ne {n : Nat} (h : s.reach n ≠ 0) : s.word (s.reach n - 1) ≠ 0 := by
  induction n with
  | zero => exact absurd rfl h
  | succ n ih =>
    rw [reach] at h ⊢
    split at h
    · next hn => rwa [if_pos hn]
    · next hn =>
      rw [if_neg hn]
      exact ih h

theorem size_significant : s.significant.size = s.reach s.blocks.size := by
  have := s.reach_le s.blocks.size
  rw [significant, Array.size_extract]
  omega

theorem getD_significant (k : Nat) : s.significant.getD k 0 = s.word k := by
  have hle := s.reach_le s.blocks.size
  rw [significant, Array.getD_eq_getD_getElem?, Array.getElem?_extract]
  split
  · rw [Nat.zero_add, word_eq]
  · next hk =>
    by_cases hlt : k < s.blocks.size
    · rw [word_of_reach_le (n := s.blocks.size) (by omega) hlt, Option.getD_none]
    · rw [word_of_le (Nat.not_lt.1 hlt), Option.getD_none]

/-- The last significant word has a digit, so that the other vector needs a word there. -/
theorem size_significant_le (h : ∀ k, s.word k = t.word k) :
    s.significant.size ≤ t.significant.size := by
  by_contra hlt
  have hlast := s.word_reach_ne (n := s.blocks.size)
  rw [← size_significant] at hlast
  apply hlast (by omega)
  rw [h, ← getD_significant, Array.getD_eq_getD_getElem?, Array.getElem?_eq_none (by omega),
    Option.getD_none]

theorem significant_eq_iff : s.significant = t.significant ↔ ∀ i, i ∈ s ↔ i ∈ t := by
  rw [← word_eq_iff]
  constructor
  · intro h k
    rw [← getD_significant, h, getD_significant]
  · intro h
    apply Array.ext
    · exact Nat.le_antisymm (size_significant_le h) (size_significant_le fun k => (h k).symm)
    · intro k hs ht
      have hk := h k
      rwa [← getD_significant, ← getD_significant, Array.getD_eq_getD_getElem?,
        Array.getD_eq_getD_getElem?, Array.getElem?_eq_getElem hs, Array.getElem?_eq_getElem ht] at hk

theorem beq_eq_true : (s == t) = true ↔ ∀ i, i ∈ s ↔ i ∈ t := by
  change (s.significant == t.significant) = true ↔ _
  rw [beq_iff_eq, significant_eq_iff]

/-- Equal sets hash alike. -/
instance : LawfulHashable Words where
  hash_eq s t h := by
    change hash s.significant = hash t.significant
    rw [significant_eq_iff.2 (beq_eq_true.1 h)]

end Tests

section Visits

variable {s : Words}

/-- With its predecessor a number has the digits in common that are above its lowest. -/
theorem testBit_and_pred {n k : Nat} (hk : n.testBit k = true) (hlow : ∀ i < k, n.testBit i = false)
    (j : Nat) : (n.testBit j = true ∧ (n - 1).testBit j = true) ↔ n.testBit j = true ∧ k < j := by
  induction k generalizing n j with
  | zero =>
    rw [Nat.testBit_zero, decide_eq_true_iff] at hk
    have hhalf : (n - 1) / 2 = n / 2 := by omega
    cases j with
    | zero =>
      rw [Nat.testBit_zero, Nat.testBit_zero, decide_eq_true_iff, decide_eq_true_iff]
      omega
    | succ j => simp [Nat.testBit_succ, hhalf]
  | succ k ih =>
    have heven := hlow 0 (Nat.succ_pos k)
    rw [Nat.testBit_zero, decide_eq_false_iff_not] at heven
    rw [Nat.testBit_succ] at hk
    have hpos : n / 2 ≠ 0 := fun h0 => by
      rw [h0, Nat.zero_testBit] at hk
      cases hk
    have hhalf : (n - 1) / 2 = n / 2 - 1 := by omega
    cases j with
    | zero => simp [Nat.testBit_zero, heven]
    | succ j =>
      rw [Nat.testBit_succ, Nat.testBit_succ, hhalf, Nat.succ_lt_succ_iff]
      apply ih hk
      intro i hi
      rw [← Nat.testBit_succ]
      exact hlow (i + 1) (Nat.succ_lt_succ hi)

theorem getLsbD_cleared {w : Word} (hw : w ≠ 0) (j : Nat) :
    (w &&& (w - 1)).getLsbD j = true ↔ w.getLsbD j = true ∧ w.ctz.toNat < j := by
  have hpos : w.toNat ≠ 0 := fun h0 => hw (BitVec.eq_of_toNat_eq h0)
  have hpred : (w - 1).toNat = w.toNat - 1 := by
    have := w.isLt
    rw [BitVec.toNat_sub]
    simp
    omega
  rw [BitVec.getLsbD_and, Bool.and_eq_true, BitVec.getLsbD, BitVec.getLsbD, hpred]
  apply testBit_and_pred (BitVec.getLsbD_true_ctz_of_ne_zero hw)
  exact fun i hi => BitVec.getLsbD_false_of_lt_ctz hi

/-- A word has no digit below its lowest. -/
theorem ctz_le {w : Word} {j : Nat} (h : w.getLsbD j = true) : w.ctz.toNat ≤ j := by
  by_contra hlt
  rw [BitVec.getLsbD_false_of_lt_ctz (Nat.not_le.1 hlt)] at h
  cases h

/-- The members that a cursor has still to visit. -/
def Ahead (s : Words) (c : Cursor) (i : Nat) : Prop :=
  (i / 64 = c.index ∧ c.current.getLsbD (i % 64) = true) ∨ (c.index < i / 64 ∧ i ∈ s)

theorem ahead_start {i : Nat} : s.Ahead s.start i ↔ i ∈ s := by
  rw [Ahead, start, mem_iff]
  dsimp only
  by_cases hi : i / 64 = 0
  · simp [hi]
  · simp [hi, Nat.pos_iff_ne_zero]

/-- The first digit of the next word is as good as the words after this one. -/
theorem ahead_next {c : Cursor} (hc : c.current = 0) {w : Word}
    (hw : s.blocks[c.index + 1]? = some w) {i : Nat} :
    s.Ahead c i ↔ s.Ahead ⟨c.index + 1, w⟩ i := by
  have hword : s.word (c.index + 1) = w := by rw [word_eq, hw, Option.getD_some]
  rw [Ahead, Ahead, hc]
  dsimp only
  by_cases hi : i / 64 = c.index + 1
  · rw [mem_iff, hi, hword]
    simp
  · simp [hi]
    omega

theorem next?_none {c : Cursor} (h : s.next? c = none) (i : Nat) : ¬ s.Ahead c i := by
  fun_induction next? s c with
  | case1 => cases h
  | case2 c hc w hw ih =>
    rw [ahead_next (not_not.1 hc) hw]
    exact ih h
  | case3 c hc hw =>
    have hsize := Array.getElem?_eq_none_iff.1 hw
    rw [Ahead, not_not.1 hc]
    rintro (⟨_, hi⟩ | ⟨hi, hmem⟩)
    · simp at hi
    · have := block_lt hmem
      omega

theorem next?_some {c d : Cursor} {i : Nat} (h : s.next? c = some (i, d)) (j : Nat) :
    (s.Ahead c j ↔ j = i ∨ s.Ahead d j) ∧ (s.Ahead d j → i < j) := by
  fun_induction next? s c with
  | case1 c hc =>
    cases h
    have hlt : c.current.ctz.toNat < 64 := BitVec.ctz_lt_iff_ne_zero.2 hc
    have hlow : j % 64 = c.current.ctz.toNat → c.current.getLsbD (j % 64) = true := fun h =>
      h ▸ BitVec.getLsbD_true_ctz_of_ne_zero hc
    have hle : c.current.getLsbD (j % 64) = true → c.current.ctz.toNat ≤ j % 64 := ctz_le
    rw [Ahead, Ahead]
    dsimp only
    rw [getLsbD_cleared hc]
    grind
  | case2 c hc w hw ih =>
    rw [ahead_next (not_not.1 hc) hw]
    exact ih h
  | case3 => cases h

theorem mem_drain (c : Cursor) (i : Nat) : i ∈ s.drain c ↔ s.Ahead c i := by
  fun_induction drain s c with
  | case1 c j d h ih => rw [List.mem_cons, ih, (next?_some h i).1]
  | case2 c h => simp [next?_none h i]

theorem increasing_drain (c : Cursor) : (s.drain c).Pairwise (· < ·) := by
  fun_induction drain s c with
  | case1 c j d h ih =>
    rw [List.pairwise_cons]
    exact ⟨fun i hi => (next?_some h i).2 ((mem_drain d i).1 hi), ih⟩
  | case2 => exact .nil

theorem mem_toList {i : Nat} : i ∈ s.toList ↔ i ∈ s := by rw [toList, mem_drain, ahead_start]

theorem increasing_toList : s.toList.Pairwise (· < ·) := increasing_drain s.start

theorem first?_eq : s.first? = s.toList.head? := by
  rw [first?, toList, drain]
  cases s.next? s.start with
  | none => rfl
  | some p => rfl

theorem cpopNatRec_eq (w : Word) (n : Nat) : w.cpopNatRec n 0 = (List.range n).countP w.getLsbD := by
  induction n with
  | zero => rfl
  | succ n ih =>
    rw [BitVec.cpopNatRec_succ, BitVec.cpopNatRec_add, ih, List.range_succ, List.countP_append]
    cases h : w.getLsbD n <;> simp [h]

theorem foldl_cpop (ws : List Word) (n : Nat) :
    ws.foldl (fun n w => n + w.cpop.toNat) n = n + (List.range (64 * ws.length)).countP
      fun i => (ws.getD (i / 64) 0).getLsbD (i % 64) := by
  induction ws generalizing n with
  | nil => rfl
  | cons w ws ih =>
    have hlen : 64 * (w :: ws).length = 64 + 64 * ws.length := by rw [List.length_cons]; omega
    have hhead : (List.range 64).countP (fun i => ((w :: ws).getD (i / 64) 0).getLsbD (i % 64)) =
        w.cpop.toNat := by
      rw [BitVec.toNat_cpop, cpopNatRec_eq]
      apply List.countP_congr
      intro i hi
      have hi := List.mem_range.1 hi
      rw [Nat.div_eq_of_lt hi, Nat.mod_eq_of_lt hi, List.getD_cons_zero]
    have htail (i : Nat) : ((w :: ws).getD ((64 + i) / 64) 0).getLsbD ((64 + i) % 64) =
        (ws.getD (i / 64) 0).getLsbD (i % 64) := by
      have hdiv : (64 + i) / 64 = i / 64 + 1 := by omega
      rw [hdiv, Nat.add_mod_left, List.getD_cons_succ]
    rw [List.foldl_cons, ih, hlen, List.range_add, List.countP_append, hhead, List.countP_map,
      Nat.add_assoc]
    simp only [Function.comp_def, htail]

theorem size_eq : s.size = s.toList.length := by
  have hfold : s.size = ((List.range (64 * s.blocks.size)).filter s.contains).length := by
    rw [size, ← Array.foldl_toList, foldl_cpop, Nat.zero_add, Array.length_toList,
      ← List.countP_eq_length_filter]
    apply List.countP_congr
    intro i _
    rw [contains_iff, mem_iff, word, List.getD_eq_getElem?_getD, Array.getElem?_toList,
      Array.getD_eq_getD_getElem?]
  rw [hfold]
  apply List.Perm.length_eq
  rw [List.perm_ext_iff_of_nodup (List.nodup_range.filter _) (increasing_toList.imp Nat.ne_of_lt)]
  intro i
  rw [List.mem_filter, contains_iff, mem_toList, List.mem_range]
  constructor
  · exact And.right
  · intro hi
    have := block_lt hi
    exact ⟨by omega, hi⟩

end Visits

end Acquisition.Words
