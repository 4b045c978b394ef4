/-!
# Blocks of indices

Indices are grouped into blocks of neighbours. A block has a key, which is its
number among all blocks, and the binary digits of one number say which of its
indices are meant. A proper list of blocks has increasing keys and no block
without indices, so that it is known by the digits at each key.
-/
namespace Acquisition

-- Powers are those of the core language, also where others are in scope.
attribute [local instance (high)] instPowNat

structure Block where
  key : Nat
  digits : Nat
deriving DecidableEq, Repr

namespace Block

/-- The count of indices of a block, `2 ^ 12`. -/
def width : Nat := 4096

theorem width_pos : 0 < width := by decide

structure Proper (bs : List Block) : Prop where
  increasing : bs.Pairwise (·.key < ·.key)
  digits_ne_zero : ∀ b ∈ bs, b.digits ≠ 0
  digits_lt : ∀ b ∈ bs, b.digits < 2 ^ width

/-- The digits at a key, which are 0 when no block has it. -/
def digitsAt (k : Nat) : List Block → Nat
  | [] => 0
  | b :: bs => if b.key = k then b.digits else digitsAt k bs

/-- The block of given key and digits before others, unless it has no indices. -/
def attach (k w : Nat) (bs : List Block) : List Block := if w = 0 then bs else ⟨k, w⟩ :: bs

/-- The blocks with the digits at `k` set to `w`. -/
def set (k w : Nat) : List Block → List Block
  | [] => attach k w []
  | b :: bs =>
    if k < b.key then attach k w (b :: bs)
    else if k = b.key then attach k w bs
    else b :: set k w bs

/-- The blocks with the digits `w` at each key `k` set to `f k w`. -/
def mapDigits (f : Nat → Nat → Nat) : List Block → List Block
  | [] => []
  | b :: bs => attach b.key (f b.key b.digits) (mapDigits f bs)

/-- The digits at each key in one list or in the other. -/
def join (bs cs : List Block) : List Block :=
  cs.foldr (fun c acc => set c.key (digitsAt c.key acc ||| c.digits) acc) bs

/-- The blocks of the first `n` indices. -/
def upTo (n : Nat) : List Block :=
  (List.range (n / width)).map (⟨·, 2 ^ width - 1⟩) ++ attach (n / width) (2 ^ (n % width) - 1) []

theorem mem_attach {k w : Nat} {bs : List Block} {b : Block} :
    b ∈ attach k w bs ↔ (b = ⟨k, w⟩ ∧ w ≠ 0) ∨ b ∈ bs := by
  unfold attach
  split <;> simp [*]

theorem digitsAt_attach (k w j : Nat) (bs : List Block) :
    digitsAt j (attach k w bs) =
      if j = k then (if w = 0 then digitsAt k bs else w) else digitsAt j bs := by
  unfold attach
  by_cases hw : w = 0
  · by_cases h : j = k <;> simp [hw, h]
  · by_cases h : j = k
    · simp [hw, h, digitsAt]
    · simp [hw, h, digitsAt, Ne.symm h]

theorem digitsAt_of_ne {k : Nat} {bs : List Block} (h : ∀ b ∈ bs, b.key ≠ k) :
    digitsAt k bs = 0 := by
  induction bs with
  | nil => rfl
  | cons b bs ih =>
    rw [digitsAt, if_neg (h b List.mem_cons_self), ih fun c hc => h c (List.mem_cons_of_mem _ hc)]

theorem digitsAt_eq_zero {k : Nat} {bs : List Block} (h : ∀ b ∈ bs, k < b.key) :
    digitsAt k bs = 0 := digitsAt_of_ne fun b hb => Nat.ne_of_gt (h b hb)

theorem digitsAt_lt {k : Nat} {bs : List Block} (h : ∀ b ∈ bs, b.digits < 2 ^ width) :
    digitsAt k bs < 2 ^ width := by
  induction bs with
  | nil => exact Nat.two_pow_pos _
  | cons b bs ih =>
    rw [digitsAt]
    split
    · exact h b List.mem_cons_self
    · exact ih fun c hc => h c (List.mem_cons_of_mem _ hc)

theorem digitsAt_of_mem {bs : List Block} (h : bs.Pairwise (·.key < ·.key)) {b : Block}
    (hb : b ∈ bs) : digitsAt b.key bs = b.digits := by
  induction bs with
  | nil => cases hb
  | cons c bs ih =>
    obtain ⟨hc, hbs⟩ := List.pairwise_cons.1 h
    rw [digitsAt]
    rcases List.mem_cons.1 hb with rfl | hb
    · rw [if_pos rfl]
    · have := hc b hb
      rw [if_neg (by omega), ih hbs hb]

theorem mem_upTo {n : Nat} {b : Block} :
    b ∈ upTo n ↔ (b.key < n / width ∧ b.digits = 2 ^ width - 1) ∨
      (b = ⟨n / width, 2 ^ (n % width) - 1⟩ ∧ 2 ^ (n % width) - 1 ≠ 0) := by
  rw [upTo, List.mem_append, mem_attach, List.mem_map]
  refine or_congr ⟨?_, fun h => ⟨b.key, List.mem_range.2 h.1, by rw [← h.2]⟩⟩
    (or_iff_left List.not_mem_nil)
  rintro ⟨k, hk, rfl⟩
  exact ⟨List.mem_range.1 hk, rfl⟩

theorem mem_set {k w : Nat} {bs : List Block} {b : Block} (h : b ∈ set k w bs) :
    (b = ⟨k, w⟩ ∧ w ≠ 0) ∨ b ∈ bs := by
  induction bs with
  | nil => exact mem_attach.1 h
  | cons c bs ih =>
    unfold set at h
    split at h
    · exact mem_attach.1 h
    · split at h
      · exact (mem_attach.1 h).imp_right (List.mem_cons_of_mem _)
      · rcases List.mem_cons.1 h with rfl | h
        · exact .inr List.mem_cons_self
        · exact (ih h).imp_right (List.mem_cons_of_mem _)

theorem digitsAt_set {bs : List Block} (h : bs.Pairwise (·.key < ·.key)) (k w j : Nat) :
    digitsAt j (set k w bs) = if j = k then w else digitsAt j bs := by
  induction bs with
  | nil =>
    rw [set, digitsAt_attach]
    by_cases hw : w = 0 <;> simp [hw, digitsAt]
  | cons b bs ih =>
    obtain ⟨hb, hbs⟩ := List.pairwise_cons.1 h
    unfold set
    by_cases hlt : k < b.key
    · have h0 : digitsAt k (b :: bs) = 0 := digitsAt_eq_zero fun c hc => by
        rcases List.mem_cons.1 hc with rfl | hc
        · exact hlt
        · exact Nat.lt_trans hlt (hb c hc)
      rw [if_pos hlt, digitsAt_attach, h0]
      by_cases hw : w = 0 <;> simp [hw]
    · rw [if_neg hlt]
      by_cases hk : k = b.key
      · have h0 : digitsAt k bs = 0 := digitsAt_eq_zero fun c hc => hk ▸ hb c hc
        rw [if_pos hk, digitsAt_attach, h0, digitsAt]
        by_cases hj : j = k
        · by_cases hw : w = 0 <;> simp [hj, hw]
        · rw [if_neg hj, if_neg hj, if_neg fun e => hj (by rw [hk, e])]
      · rw [if_neg hk, digitsAt, ih hbs]
        by_cases hj : j = k
        · rw [if_pos hj, if_pos hj, if_neg fun e => hk (by rw [← hj, e])]
        · rw [if_neg hj, if_neg hj, digitsAt]

theorem mem_mapDigits {f : Nat → Nat → Nat} {bs : List Block} {b : Block}
    (h : b ∈ mapDigits f bs) : ∃ c ∈ bs, b = ⟨c.key, f c.key c.digits⟩ ∧ b.digits ≠ 0 := by
  induction bs with
  | nil => cases h
  | cons c bs ih =>
    rcases mem_attach.1 h with ⟨rfl, hw⟩ | h
    · exact ⟨c, List.mem_cons_self, rfl, hw⟩
    · obtain ⟨d, hd, he⟩ := ih h
      exact ⟨d, List.mem_cons_of_mem _ hd, he⟩

theorem digitsAt_mapDigits {f : Nat → Nat → Nat} {bs : List Block}
    (h : bs.Pairwise (·.key < ·.key)) (k : Nat) (hf : f k 0 = 0) :
    digitsAt k (mapDigits f bs) = f k (digitsAt k bs) := by
  induction bs with
  | nil => exact hf.symm
  | cons b bs ih =>
    obtain ⟨hb, hbs⟩ := List.pairwise_cons.1 h
    rw [mapDigits, digitsAt_attach, digitsAt, ih hbs]
    by_cases hk : k = b.key
    · have h0 : digitsAt b.key (mapDigits f bs) = 0 := digitsAt_eq_zero fun c hc => by
        obtain ⟨d, hd, rfl, _⟩ := mem_mapDigits hc
        exact hb d hd
      rw [if_pos hk, if_pos hk.symm, h0, hk]
      split
      · next h => exact h.symm
      · rfl
    · rw [if_neg hk, if_neg (Ne.symm hk)]

namespace Proper

theorem nil : Proper [] := ⟨.nil, by simp, by simp⟩

theorem attach {k w : Nat} {bs : List Block} (h : Proper bs) (hk : ∀ b ∈ bs, k < b.key)
    (hw : w < 2 ^ width) : Proper (attach k w bs) := by
  unfold Block.attach
  split
  · exact h
  · next h0 =>
    refine ⟨List.pairwise_cons.2 ⟨hk, h.increasing⟩, fun b hb => ?_, fun b hb => ?_⟩
    · rcases List.mem_cons.1 hb with rfl | hb
      · exact h0
      · exact h.digits_ne_zero b hb
    · rcases List.mem_cons.1 hb with rfl | hb
      · exact hw
      · exact h.digits_lt b hb

theorem tail {b : Block} {bs : List Block} (h : Proper (b :: bs)) : Proper bs :=
  ⟨(List.pairwise_cons.1 h.increasing).2,
    fun c hc => h.digits_ne_zero c (List.mem_cons_of_mem _ hc),
    fun c hc => h.digits_lt c (List.mem_cons_of_mem _ hc)⟩

theorem head_lt {b c : Block} {bs : List Block} (h : Proper (b :: bs)) (hc : c ∈ bs) :
    b.key < c.key := (List.pairwise_cons.1 h.increasing).1 c hc

theorem set {k w : Nat} {bs : List Block} (h : Proper bs) (hw : w < 2 ^ width) :
    Proper (set k w bs) := by
  induction bs with
  | nil => exact nil.attach (by simp) hw
  | cons b bs ih =>
    unfold Block.set
    split
    · next hlt =>
      refine h.attach (fun c hc => ?_) hw
      rcases List.mem_cons.1 hc with rfl | hc
      · exact hlt
      · exact Nat.lt_trans hlt (h.head_lt hc)
    · next hlt =>
      split
      · next hk => exact h.tail.attach (fun c hc => hk ▸ h.head_lt hc) hw
      · next hk =>
        have ht := ih h.tail
        refine ⟨List.pairwise_cons.2 ⟨fun c hc => ?_, ht.increasing⟩, fun c hc => ?_, fun c hc => ?_⟩
        · rcases mem_set hc with ⟨rfl, _⟩ | hc
          · exact Nat.lt_of_le_of_ne (Nat.not_lt.1 hlt) (Ne.symm hk)
          · exact h.head_lt hc
        · rcases List.mem_cons.1 hc with rfl | hc
          · exact h.digits_ne_zero c List.mem_cons_self
          · exact ht.digits_ne_zero c hc
        · rcases List.mem_cons.1 hc with rfl | hc
          · exact h.digits_lt c List.mem_cons_self
          · exact ht.digits_lt c hc

theorem mapDigits {f : Nat → Nat → Nat} {bs : List Block} (h : Proper bs)
    (hf : ∀ k w, w < 2 ^ width → f k w < 2 ^ width) : Proper (mapDigits f bs) := by
  induction bs with
  | nil => exact nil
  | cons b bs ih =>
    refine (ih h.tail).attach (fun c hc => ?_) (hf _ _ (h.digits_lt b List.mem_cons_self))
    obtain ⟨d, hd, rfl, _⟩ := mem_mapDigits hc
    exact (h.head_lt hd : b.key < d.key)

theorem join {bs cs : List Block} (hb : Proper bs) (hc : ∀ c ∈ cs, c.digits < 2 ^ width) :
    Proper (join bs cs) := by
  induction cs with
  | nil => exact hb
  | cons c cs ih =>
    have h := ih fun d hd => hc d (List.mem_cons_of_mem _ hd)
    exact h.set (Nat.or_lt_two_pow (digitsAt_lt h.digits_lt) (hc c List.mem_cons_self))

theorem upTo (n : Nat) : Proper (upTo n) := by
  have hw : 2 ^ width - 1 ≠ 0 := by
    have := Nat.one_lt_two_pow (Nat.ne_of_gt width_pos); omega
  have ht : Proper (Block.attach (n / width) (2 ^ (n % width) - 1) []) :=
    nil.attach (by simp) (Nat.lt_of_le_of_lt (Nat.sub_le ..)
      (Nat.pow_lt_pow_right (by decide) (Nat.mod_lt _ width_pos)))
  refine ⟨List.pairwise_append.2 ⟨?_, ht.increasing, fun b hb c hc => ?_⟩, fun b hb => ?_,
    fun b hb => ?_⟩
  · exact List.pairwise_map.2 List.pairwise_lt_range
  · obtain ⟨k, hk, rfl⟩ := List.mem_map.1 hb
    rcases mem_attach.1 hc with ⟨rfl, _⟩ | hc
    · exact List.mem_range.1 hk
    · cases hc
  · rcases List.mem_append.1 hb with hb | hb
    · obtain ⟨k, _, rfl⟩ := List.mem_map.1 hb
      exact hw
    · exact ht.digits_ne_zero b hb
  · rcases List.mem_append.1 hb with hb | hb
    · obtain ⟨k, _, rfl⟩ := List.mem_map.1 hb
      exact Nat.sub_lt (Nat.two_pow_pos _) Nat.one_pos
    · exact ht.digits_lt b hb

/-- Two proper lists with the same digits at each key are the same list. -/
theorem ext {bs cs : List Block} (hb : Proper bs) (hc : Proper cs)
    (h : ∀ k, digitsAt k bs = digitsAt k cs) : bs = cs := by
  induction bs generalizing cs with
  | nil =>
    cases cs with
    | nil => rfl
    | cons c cs =>
      have := h c.key
      rw [digitsAt_of_mem hc.increasing List.mem_cons_self] at this
      exact absurd this.symm (hc.digits_ne_zero c List.mem_cons_self)
  | cons b bs ih =>
    cases cs with
    | nil =>
      have := h b.key
      rw [digitsAt_of_mem hb.increasing List.mem_cons_self] at this
      exact absurd this (hb.digits_ne_zero b List.mem_cons_self)
    | cons c cs =>
      have hbk := hb.digits_ne_zero b List.mem_cons_self
      have hck := hc.digits_ne_zero c List.mem_cons_self
      have hnb : ¬ c.key < b.key := fun hlt => by
        have h0 : digitsAt c.key (b :: bs) = 0 := digitsAt_eq_zero fun d hd => by
          rcases List.mem_cons.1 hd with rfl | hd
          · exact hlt
          · exact Nat.lt_trans hlt (hb.head_lt hd)
        rw [h, digitsAt_of_mem hc.increasing List.mem_cons_self] at h0
        exact hck h0
      have hnc : ¬ b.key < c.key := fun hlt => by
        have h0 : digitsAt b.key (c :: cs) = 0 := digitsAt_eq_zero fun d hd => by
          rcases List.mem_cons.1 hd with rfl | hd
          · exact hlt
          · exact Nat.lt_trans hlt (hc.head_lt hd)
        rw [← h, digitsAt_of_mem hb.increasing List.mem_cons_self] at h0
        exact hbk h0
      have hk : b.key = c.key := by omega
      have hd : b.digits = c.digits := by
        have := h b.key
        rwa [digitsAt_of_mem hb.increasing List.mem_cons_self, hk,
          digitsAt_of_mem hc.increasing List.mem_cons_self] at this
      have hbc : b = c := by
        cases b; cases c; simp_all
      refine congr (congrArg _ hbc) (ih hb.tail hc.tail fun k => ?_)
      by_cases he : b.key = k
      · rw [digitsAt_eq_zero fun d hd => he ▸ hb.head_lt hd,
          digitsAt_eq_zero fun d hd => he ▸ hk ▸ hc.head_lt hd]
      · have := h k
        rwa [digitsAt, digitsAt, if_neg he, if_neg (hk ▸ he)] at this

end Proper

theorem digitsAt_join {bs cs : List Block} (hb : Proper bs)
    (hc : Proper cs) (k : Nat) :
    digitsAt k (join bs cs) = digitsAt k bs ||| digitsAt k cs := by
  induction cs with
  | nil => exact (Nat.or_zero _).symm
  | cons c cs ih =>
    have h := hb.join hc.tail.digits_lt
    have hstep : join bs (c :: cs) =
        set c.key (digitsAt c.key (join bs cs) ||| c.digits) (join bs cs) := rfl
    rw [hstep, digitsAt_set h.increasing, digitsAt]
    by_cases hk : k = c.key
    · subst hk
      rw [if_pos rfl, if_pos rfl, ih hc.tail, digitsAt_eq_zero fun d hd => hc.head_lt hd,
        Nat.or_zero]
    · rw [if_neg hk, if_neg (Ne.symm hk), ih hc.tail]

end Block

end Acquisition
