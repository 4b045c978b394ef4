import Acquisition.Proofs.Tally
import Acquisition.Proofs.Weights

/-!
# Fair choice of a pivot

Of the clauses of several literals that are not marked, the choice takes the first one of
greatest score. It fails only if a weight is not told, and finds nothing only if there is no
clause of several literals. When all of them are marked, the marks are cleared first.

A turn chooses a clause and marks it. Each turn takes one of the clauses that wait for theirs,
until none is left and all of them wait again. So the turns between two clearings of the marks
take each clause of several literals once.
-/
namespace Acquisition

open Checked

/-- What a clause counts in a choice. Where the first one is chosen, all are equal. -/
def Selection.score (A : Arena) : Selection → Clause → Checked Nat
  | .firstUnmarked, _ => .ok 0
  | .maxWeight, c => c.weight A

theorem Selection.score_congr (A : Arena) (how : Selection) {c d : Clause}
    (h : c.literals = d.literals) : how.score A c = how.score A d := by
  cases how with
  | firstUnmarked => rfl
  | maxWeight => rw [score, score, Clause.weight, h, ← Clause.weight]

namespace ClauseStore

variable {A : Arena} {how : Selection} {S T : ClauseStore} {k k' : ClauseKey} {c : Clause}
  {es seen : List (ClauseKey × Clause)} {e : ClauseKey × Clause} {r r' : Nat}

/-! ### One choice -/

/-- The clauses of several literals that are not marked, by slot. -/
def candidates (S : ClauseStore) : List (ClauseKey × Clause) :=
  S.entries.filter fun e => !e.2.marked && isLong e.2

theorem mem_candidates :
    (k, c) ∈ S.candidates ↔ S.get? k = some c ∧ c.marked = false ∧ isLong c = true := by
  simp only [candidates, List.mem_filter, mem_entries, Bool.and_eq_true, Bool.not_eq_true']

/-- The score of each clause of several literals is told. -/
def Scored (A : Arena) (how : Selection) (S : ClauseStore) : Prop :=
  ∀ c ∈ S.clauses, isLong c = true → ∃ r, how.score A c = .ok r

theorem Scored.congr (hS : Scored A how S) (h : S.SameLiterals T) : Scored A how T := by
  intro c hc hlong
  obtain ⟨d, hd, hsame⟩ := h.mem hc
  obtain ⟨r, hr⟩ := hS d hd (isLong_congr hsame ▸ hlong)
  exact ⟨r, how.score_congr A hsame ▸ hr⟩

theorem Scored.candidate (hS : Scored A how S) (he : e ∈ S.candidates) :
    ∃ r, how.score A e.2 = .ok r := by
  obtain ⟨hget, -, hlong⟩ := mem_candidates.1 he
  exact hS e.2 (get?_mem hget) hlong

/-- The key is that of the first of the entries of greatest score, which is `r`. -/
def Foremost (A : Arena) (how : Selection) (es : List (ClauseKey × Clause)) (k : ClauseKey)
    (r : Nat) : Prop :=
  ∃ before c after, es = before ++ (k, c) :: after ∧ how.score A c = .ok r ∧
    (∀ e ∈ before, ∃ r', how.score A e.2 = .ok r' ∧ r' < r) ∧
    ∀ e ∈ after, ∃ r', how.score A e.2 = .ok r' ∧ r' ≤ r

theorem Foremost.mem (h : Foremost A how es k r) : ∃ c, (k, c) ∈ es := by
  obtain ⟨before, c, after, rfl, -⟩ := h
  exact ⟨c, List.mem_append_right _ List.mem_cons_self⟩

theorem Foremost.singleton (hc : how.score A c = .ok r) : Foremost A how [(k, c)] k r :=
  ⟨[], c, [], rfl, hc, nofun, nofun⟩

/-- An entry of no greater score comes too late. -/
theorem Foremost.keep (h : Foremost A how seen k r) (he : how.score A e.2 = .ok r')
    (hle : r' ≤ r) : Foremost A how (seen ++ [e]) k r := by
  obtain ⟨before, c, after, rfl, hc, hbefore, hafter⟩ := h
  refine ⟨before, c, after ++ [e], by simp, hc, hbefore, fun e' he' => ?_⟩
  rcases List.mem_append.1 he' with he' | he'
  · exact hafter e' he'
  · rw [List.mem_singleton.1 he']
    exact ⟨r', he, hle⟩

/-- An entry of greater score comes before all that were seen. -/
theorem Foremost.replace (h : Foremost A how seen k r) (hc : how.score A c = .ok r')
    (hlt : r < r') : Foremost A how (seen ++ [(k', c)]) k' r' := by
  obtain ⟨before, d, after, rfl, hd, hbefore, hafter⟩ := h
  refine ⟨_, c, [], rfl, hc, fun e he => ?_, nofun⟩
  rcases List.mem_append.1 he with he | he
  · obtain ⟨s, hs, hsr⟩ := hbefore e he
    exact ⟨s, hs, hsr.trans hlt⟩
  · rcases List.mem_cons.1 he with rfl | he
    · exact ⟨r, hd, hlt⟩
    · obtain ⟨s, hs, hsr⟩ := hafter e he
      exact ⟨s, hs, hsr.trans_lt hlt⟩

theorem exists_heaviest (hseen : Foremost A .maxWeight seen k r)
    (hes : ∀ e ∈ es, ∃ r, Selection.maxWeight.score A e.2 = .ok r) :
    ∃ k' r', heaviest A (some (k, r)) es = .ok (some k') ∧
      Foremost A .maxWeight (seen ++ es) k' r' := by
  induction es generalizing seen k r with
  | nil => exact ⟨k, r, rfl, by rwa [List.append_nil]⟩
  | cons e es ih =>
    obtain ⟨k₁, c⟩ := e
    obtain ⟨r₁, hr₁⟩ := hes _ List.mem_cons_self
    have hes' := fun e he => hes e (List.mem_cons_of_mem _ he)
    rw [heaviest, List.append_cons]
    by_cases hle : r₁ ≤ r
    · obtain ⟨k', r', hk', h⟩ := ih (hseen.keep hr₁ hle) hes'
      refine ⟨k', r', bind_eq_ok.2 ⟨r₁, hr₁, ?_⟩, h⟩
      simp only [if_pos hle, hk']
    · obtain ⟨k', r', hk', h⟩ := ih (hseen.replace hr₁ (Nat.lt_of_not_le hle)) hes'
      refine ⟨k', r', bind_eq_ok.2 ⟨r₁, hr₁, ?_⟩, h⟩
      simp only [if_neg hle, hk']

theorem exists_selectUnmarked (hS : Scored A how S) :
    ∃ k?, S.selectUnmarked A how = .ok k? ∧ (k? = none → S.candidates = []) ∧
      ∀ k, k? = some k → ∃ r, Foremost A how S.candidates k r := by
  have hscores : ∀ e ∈ S.candidates, ∃ r, how.score A e.2 = .ok r := fun e he => hS.candidate he
  cases how with
  | firstUnmarked =>
    refine ⟨_, rfl, fun hk => ?_, fun k hk => ?_⟩
    · exact List.head?_eq_none_iff.1 (Option.map_eq_none_iff.1 hk)
    · obtain ⟨⟨k', c⟩, he, hk'⟩ := Option.map_eq_some_iff.1 hk
      cases hk'
      obtain ⟨after, hes⟩ := List.head?_eq_some_iff.1 he
      exact ⟨0, [], c, after, hes, rfl, nofun, fun e _ => ⟨0, rfl, Nat.le_refl 0⟩⟩
  | maxWeight =>
    change ∃ k?, heaviest A none S.candidates = .ok k? ∧ _
    cases hes : S.candidates with
    | nil => exact ⟨none, rfl, fun _ => rfl, nofun⟩
    | cons e es =>
      obtain ⟨k, c⟩ := e
      rw [hes] at hscores
      obtain ⟨r, hr⟩ := hscores _ List.mem_cons_self
      obtain ⟨k', r', hk', h⟩ := exists_heaviest (Foremost.singleton (k := k) hr)
        fun e he => hscores e (List.mem_cons_of_mem _ he)
      refine ⟨some k', ?_, nofun, fun k'' hk'' => ?_⟩
      · rw [heaviest]
        exact bind_eq_ok.2 ⟨r, hr, hk'⟩
      · cases hk''
        exact ⟨r', h⟩

theorem allMarked_iff : S.allMarked = true ↔ S.candidates = [] := by
  simp only [allMarked, List.all_eq_true, List.mem_filter, and_imp, List.eq_nil_iff_forall_not_mem,
    Prod.forall, mem_candidates, mem_clauses, not_and, forall_exists_index]
  constructor
  · intro h k c hc hmarked hlong
    rw [h c k hc hlong] at hmarked
    cases hmarked
  · intro h c k hc hlong
    cases hmarked : c.marked with
    | true => rfl
    | false => exact absurd hlong (h k c hc hmarked)

/-- The store that a choice is made from: the marks are cleared if all are set. -/
def refreshed (S : ClauseStore) : ClauseStore := if S.allMarked then S.unmarkAll else S

theorem sameLiterals_refreshed (S : ClauseStore) : S.SameLiterals S.refreshed := by
  rw [refreshed]
  split
  · exact sameLiterals_unmarkAll S
  · exact .refl S

theorem candidates_unmarkAll_eq_nil (h : S.unmarkAll.candidates = []) :
    ∀ c ∈ S.clauses, isLong c = false := by
  intro c hc
  obtain ⟨k, hk⟩ := mem_clauses.1 hc
  cases hlong : isLong c with
  | false => rfl
  | true =>
    have hmem : (k, c.unmark) ∈ S.unmarkAll.candidates :=
      mem_candidates.2 ⟨by rw [get?_unmarkAll, hk]; rfl, rfl, hlong⟩
    rw [h] at hmem
    cases hmem

theorem exists_select (hS : Scored A how S) :
    ∃ k?, S.select A how = .ok (k?, S.refreshed) ∧
      (k? = none ↔ ∀ c ∈ S.clauses, isLong c = false) ∧
      ∀ k, k? = some k → ∃ r, Foremost A how S.refreshed.candidates k r := by
  -- What is found is there with the same literals, so there is a clause of several.
  have hfound : ∀ {T : ClauseStore} {k r}, S.SameLiterals T → Foremost A how T.candidates k r →
      ¬ ∀ c ∈ S.clauses, isLong c = false := by
    intro T k r hsame h hnone
    obtain ⟨c, hc⟩ := h.mem
    obtain ⟨hget, -, hlong⟩ := mem_candidates.1 hc
    obtain ⟨d, hd, hcd⟩ := hsame.mem (get?_mem hget)
    rw [← isLong_congr hcd, hnone d hd] at hlong
    cases hlong
  obtain ⟨k₁, hk₁, hnone₁, hsome₁⟩ := exists_selectUnmarked hS
  rw [select]
  cases k₁ with
  | some k =>
    obtain ⟨r, hr⟩ := hsome₁ k rfl
    have hrest : S.refreshed = S := by
      rw [refreshed, if_neg]
      intro hall
      obtain ⟨c, hc⟩ := hr.mem
      rw [allMarked_iff.1 hall] at hc
      cases hc
    rw [hrest]
    exact ⟨some k, bind_eq_ok.2 ⟨some k, hk₁, rfl⟩,
      iff_of_false (Option.some_ne_none k) (hfound (.refl S) hr), hsome₁⟩
  | none =>
    have hall : S.allMarked = true := allMarked_iff.2 (hnone₁ rfl)
    have hcleared : S.refreshed = S.unmarkAll := by rw [refreshed, if_pos hall]
    obtain ⟨k₂, hk₂, hnone₂, hsome₂⟩ :=
      exists_selectUnmarked (hS.congr (sameLiterals_unmarkAll S))
    rw [hcleared]
    refine ⟨k₂, bind_eq_ok.2 ⟨none, hk₁, ?_⟩,
      ⟨fun hk => candidates_unmarkAll_eq_nil (hnone₂ hk), fun hshort => ?_⟩, hsome₂⟩
    · rw [if_pos hall]
      exact bind_eq_ok.2 ⟨k₂, hk₂, rfl⟩
    · cases k₂ with
      | none => rfl
      | some k =>
        obtain ⟨r, hr⟩ := hsome₂ k rfl
        exact absurd hshort (hfound (sameLiterals_unmarkAll S) hr)

/-! ### Turns -/

/-- The clauses of several literals that are not marked. -/
def waiting (S : ClauseStore) : Finset ClauseKey := (S.candidates.map (·.1)).toFinset

theorem mem_waiting :
    k ∈ S.waiting ↔ ∃ c, S.get? k = some c ∧ c.marked = false ∧ isLong c = true := by
  simp only [waiting, List.mem_toFinset, List.mem_map, Prod.exists, exists_and_right,
    exists_eq_right, mem_candidates]

theorem Foremost.mem_waiting (h : Foremost A how S.candidates k r) : k ∈ S.waiting := by
  obtain ⟨c, hc⟩ := h.mem
  exact ClauseStore.mem_waiting.2 ⟨c, mem_candidates.1 hc⟩

theorem waiting_mark (S : ClauseStore) (k : ClauseKey) :
    (S.mark k).waiting = S.waiting.erase k := by
  ext k'
  rw [Finset.mem_erase, mem_waiting, mem_waiting, mark, get?_modify]
  by_cases hk : k' = k
  · rw [if_pos hk]
    refine iff_of_false ?_ fun h => h.1 hk
    rintro ⟨c, hc, hmarked, -⟩
    obtain ⟨d, -, rfl⟩ := Option.map_eq_some_iff.1 hc
    cases hmarked
  · rw [if_neg hk]
    exact (and_iff_right hk).symm

theorem waiting_unmarkAll (S : ClauseStore) : S.unmarkAll.waiting = S.longKeys := by
  ext k
  rw [mem_waiting, mem_longKeys, get?_unmarkAll]
  constructor
  · rintro ⟨c, hc, -, hlong⟩
    obtain ⟨d, hd, rfl⟩ := Option.map_eq_some_iff.1 hc
    exact ⟨d, hd, hlong⟩
  · rintro ⟨c, hc, hlong⟩
    exact ⟨c.unmark, by rw [hc]; rfl, rfl, hlong⟩

theorem waiting_eq_empty_iff : S.waiting = ∅ ↔ S.allMarked = true := by
  rw [allMarked_iff, waiting, List.toFinset_eq_empty_iff, List.map_eq_nil_iff]

/-- A clause that was chosen and marked. -/
structure Turn where
  key : ClauseKey
  /-- Whether all were marked, so that the marks were cleared first. -/
  cleared : Bool
deriving DecidableEq, Repr

/-- Choices, each followed by the mark of the clause that was chosen. -/
def turns (A : Arena) (how : Selection) : Nat → ClauseStore → Checked (List Turn × ClauseStore)
  | 0, S => return ([], S)
  | n + 1, S => do
    match ← S.select A how with
    | (none, T) => return ([], T)
    | (some k, T) =>
      let (ts, U) ← turns A how n (T.mark k)
      return (⟨k, S.allMarked⟩ :: ts, U)

/-- Turns that take each of the keys that wait, and then each of all keys again and again. -/
inductive Rotation (all : Finset ClauseKey) : Finset ClauseKey → List Turn → Prop
  | nil {waiting : Finset ClauseKey} : Rotation all waiting []
  | next {waiting : Finset ClauseKey} {k : ClauseKey} {ts : List Turn} (hk : k ∈ waiting)
      (h : Rotation all (waiting.erase k) ts) : Rotation all waiting (⟨k, false⟩ :: ts)
  | clear {k : ClauseKey} {ts : List Turn} (hk : k ∈ all) (h : Rotation all (all.erase k) ts) :
      Rotation all ∅ (⟨k, true⟩ :: ts)

theorem exists_turns (hS : Scored A how S) (hlong : S.longKeys.Nonempty) (n : Nat) :
    ∃ ts T, turns A how n S = .ok (ts, T) ∧ ts.length = n ∧
      Rotation S.longKeys S.waiting ts := by
  induction n generalizing S with
  | zero => exact ⟨[], S, rfl, rfl, .nil⟩
  | succ n ih =>
    obtain ⟨k?, hselect, hnone, hsome⟩ := exists_select hS
    cases k? with
    | none =>
      obtain ⟨k, hk⟩ := hlong
      obtain ⟨c, hc, hlong⟩ := mem_longKeys.1 hk
      rw [hnone.1 rfl c (get?_mem hc)] at hlong
      cases hlong
    | some k =>
      obtain ⟨r, hr⟩ := hsome k rfl
      have hsame := sameLiterals_refreshed S
      have hmark := sameLiterals_mark S.refreshed k
      have hkeys : (S.refreshed.mark k).longKeys = S.longKeys := by
        rw [hmark.longKeys_eq, hsame.longKeys_eq]
      obtain ⟨ts, T, hts, hlength, hrot⟩ :=
        ih ((hS.congr hsame).congr hmark) (hkeys.symm ▸ hlong)
      rw [hkeys, waiting_mark] at hrot
      refine ⟨⟨k, S.allMarked⟩ :: ts, T, ?_, by rw [List.length_cons, hlength], ?_⟩
      · rw [turns]
        exact bind_eq_ok.2 ⟨_, hselect, bind_eq_ok.2 ⟨_, hts, rfl⟩⟩
      · have hk := hr.mem_waiting
        cases hall : S.allMarked with
        | true =>
          rw [waiting_eq_empty_iff.2 hall]
          rw [refreshed, if_pos hall, waiting_unmarkAll] at hrot hk
          exact .clear hk hrot
        | false =>
          rw [refreshed, hall, if_neg Bool.false_ne_true] at hrot hk
          exact .next hk hrot

/-! ### Blocks of turns -/

/-- The list has the keys of the set, each once. -/
def EachOnce (ks : List ClauseKey) (all : Finset ClauseKey) : Prop :=
  ks.Nodup ∧ ∀ k, k ∈ ks ↔ k ∈ all

theorem EachOnce.cons {ks : List ClauseKey} {all : Finset ClauseKey} (hk : k ∈ all)
    (h : EachOnce ks (all.erase k)) : EachOnce (k :: ks) all := by
  refine ⟨List.nodup_cons.2 ⟨fun hmem => ?_, h.1⟩, fun k' => ?_⟩
  · exact Finset.notMem_erase k all ((h.2 k).1 hmem)
  · rw [List.mem_cons, h.2, Finset.mem_erase]
    by_cases hk' : k' = k
    · exact iff_of_true (.inl hk') (hk' ▸ hk)
    · simp only [hk', false_or, ne_eq, not_false_eq_true, true_and]

namespace Rotation

variable {all waiting : Finset ClauseKey} {ts : List Turn} {t : Turn} {i j : Nat}

/-- The marks stay as long as a clause waits. -/
theorem not_cleared (h : Rotation all waiting ts) (hi : i < waiting.card) (ht : ts[i]? = some t) :
    t.cleared = false := by
  induction h generalizing i with
  | nil => cases ht
  | next hk h ih =>
    cases i with
    | zero =>
      cases ht
      rfl
    | succ i =>
      rw [List.getElem?_cons_succ] at ht
      refine ih ?_ ht
      rw [Finset.card_erase_of_mem hk]
      omega
  | clear hk h ih => exact absurd hi (Nat.not_lt_zero i)

theorem each_waiting (h : Rotation all waiting ts) (hlength : waiting.card ≤ ts.length) :
    EachOnce ((ts.take waiting.card).map (·.key)) waiting ∧
      Rotation all ∅ (ts.drop waiting.card) := by
  induction h with
  | nil =>
    have hempty := Finset.card_eq_zero.1 (Nat.le_zero.1 hlength)
    subst hempty
    exact ⟨⟨.nil, fun k => iff_of_false nofun (Finset.notMem_empty k)⟩, .nil⟩
  | @next waiting k ts hk h ih =>
    obtain ⟨n, hn⟩ := Nat.exists_eq_add_of_lt (Finset.card_pos.2 ⟨k, hk⟩)
    rw [Nat.zero_add] at hn
    have hrest : (waiting.erase k).card = n := by rw [Finset.card_erase_of_mem hk, hn]; rfl
    rw [hn, List.length_cons] at hlength
    rw [hrest] at ih
    obtain ⟨hks, hdrop⟩ := ih (by omega)
    rw [hn, List.take_succ_cons, List.map_cons, List.drop_succ_cons]
    exact ⟨hks.cons hk, hdrop⟩
  | clear hk h ih =>
    exact ⟨⟨.nil, fun k => iff_of_false nofun (Finset.notMem_empty k)⟩, .clear hk h⟩

/-- The first turn of a block clears the marks, and no other does. -/
theorem cleared_iff_zero (h : Rotation all ∅ ts) (hi : i < all.card) (ht : ts[i]? = some t) :
    t.cleared = true ↔ i = 0 := by
  cases h with
  | nil => cases ht
  | next hk h => cases hk
  | clear hk h =>
    cases i with
    | zero =>
      cases ht
      exact iff_of_true rfl rfl
    | succ i =>
      rw [List.getElem?_cons_succ] at ht
      rw [h.not_cleared (by rw [Finset.card_erase_of_mem hk]; omega) ht]
      exact iff_of_false nofun nofun

theorem block (h : Rotation all ∅ ts) (hlength : all.card ≤ ts.length) :
    EachOnce ((ts.take all.card).map (·.key)) all ∧ Rotation all ∅ (ts.drop all.card) := by
  cases h with
  | nil =>
    have hempty := Finset.card_eq_zero.1 (Nat.le_zero.1 hlength)
    subst hempty
    exact ⟨⟨.nil, fun k => iff_of_false nofun (Finset.notMem_empty k)⟩, .nil⟩
  | next hk h => cases hk
  | @clear k ts hk h =>
    -- Once the first key is taken, the others wait.
    have hcard : all.card = (all.erase k).card + 1 := (Finset.card_erase_add_one hk).symm
    rw [hcard, List.length_cons] at hlength
    obtain ⟨hks, hdrop⟩ := h.each_waiting (by omega)
    rw [hcard, List.take_succ_cons, List.map_cons, List.drop_succ_cons]
    exact ⟨hks.cons hk, hdrop⟩

theorem drop_blocks (h : Rotation all waiting ts)
    (hlength : waiting.card + j * all.card ≤ ts.length) :
    Rotation all ∅ (ts.drop (waiting.card + j * all.card)) := by
  induction j with
  | zero =>
    rw [Nat.zero_mul, Nat.add_zero] at hlength ⊢
    exact (h.each_waiting hlength).2
  | succ j ih =>
    rw [Nat.succ_mul, ← Nat.add_assoc] at hlength ⊢
    have hblock := ((ih (by omega)).block (by rw [List.length_drop]; omega)).2
    rwa [List.drop_drop] at hblock

/-- The marks are cleared when those that waited at first have been taken, and after each block
of as many turns as there are keys. -/
theorem cleared_iff (h : Rotation all waiting ts) (hall : all.Nonempty) (ht : ts[i]? = some t) :
    t.cleared = true ↔ ∃ j, i = waiting.card + j * all.card := by
  have hpos := Finset.card_pos.2 hall
  obtain ⟨hi, -⟩ := List.getElem?_eq_some_iff.1 ht
  by_cases hfirst : i < waiting.card
  · rw [h.not_cleared hfirst ht]
    refine iff_of_false nofun ?_
    rintro ⟨j, rfl⟩
    exact Nat.not_lt.2 (Nat.le_add_right _ _) hfirst
  · obtain ⟨d, rfl⟩ := Nat.exists_eq_add_of_le (Nat.le_of_not_lt hfirst)
    have hd : d / all.card * all.card + d % all.card = d := Nat.div_add_mod' d all.card
    have hblock := h.drop_blocks (j := d / all.card) (by omega)
    rw [hblock.cleared_iff_zero (Nat.mod_lt d hpos) (t := t) ?_]
    · constructor
      · intro hzero
        exact ⟨d / all.card, by omega⟩
      · rintro ⟨j, hj⟩
        rw [Nat.add_left_cancel hj]
        exact Nat.mul_mod_left j all.card
    · rw [List.getElem?_drop, ← ht]
      congr 1
      omega

end Rotation

/-- A list of turns in which the clauses that wait at first come first, each once, and after them
block after block of all clauses of several literals, each once. The marks are cleared at the
start of each block and at no other turn. -/
structure Fair (S : ClauseStore) (ts : List Turn) : Prop where
  cleared_iff : ∀ i t, ts[i]? = some t →
    (t.cleared = true ↔ ∃ j, i = S.waiting.card + j * S.longKeys.card)
  first : S.waiting.card ≤ ts.length →
    EachOnce ((ts.take S.waiting.card).map (·.key)) S.waiting
  block : ∀ j, S.waiting.card + (j + 1) * S.longKeys.card ≤ ts.length →
    EachOnce (((ts.drop (S.waiting.card + j * S.longKeys.card)).take S.longKeys.card).map (·.key))
      S.longKeys

theorem Rotation.fair {ts : List Turn} (h : Rotation S.longKeys S.waiting ts)
    (hlong : S.longKeys.Nonempty) : Fair S ts where
  cleared_iff := fun i t ht => h.cleared_iff hlong ht
  first := fun hlength => (h.each_waiting hlength).1
  block := fun j hlength => by
    rw [Nat.succ_mul, ← Nat.add_assoc] at hlength
    exact ((h.drop_blocks (by omega)).block (by rw [List.length_drop]; omega)).1

/-- A choice comes to a clause of several literals that is not marked, the first one of greatest
score, and to none only if there is no clause of several literals. It clears the marks just if
all of these are marked. Turn after turn, it is fair. -/
theorem select_fair (hS : Scored A how S) :
    (∃ k?, S.select A how = .ok (k?, S.refreshed) ∧
      (k? = none ↔ ∀ c ∈ S.clauses, isLong c = false) ∧
      ∀ k, k? = some k →
        (∃ c, S.refreshed.get? k = some c ∧ c.marked = false ∧ isLong c = true) ∧
          ∃ r, Foremost A how S.refreshed.candidates k r) ∧
      (S.longKeys.Nonempty → ∀ n, ∃ ts T, turns A how n S = .ok (ts, T) ∧ ts.length = n ∧
        Fair S ts) := by
  constructor
  · obtain ⟨k?, hselect, hnone, hsome⟩ := exists_select hS
    refine ⟨k?, hselect, hnone, fun k hk => ?_⟩
    obtain ⟨r, hr⟩ := hsome k hk
    exact ⟨mem_waiting.1 hr.mem_waiting, r, hr⟩
  · intro hlong n
    obtain ⟨ts, T, hts, hlength, hrot⟩ := exists_turns hS hlong n
    exact ⟨ts, T, hts, hlength, hrot.fair hlong⟩

end ClauseStore

namespace Exhaustive

open ClauseStore

/-- Three constraints of different weights, each with its negation. -/
def graded : Arena :=
  [Predicate.unary 0 .eq 0 1, .unary 0 .eq 1 2, .unary 0 .eq 2 5].foldl
    (fun A p => (A.add p).2) .empty

/-- Four clauses of two literals and one of one, in the order of their slots. Two weigh the
same, and the heaviest is marked. -/
def pivots : ClauseStore :=
  let clauses : List Clause := [.ofList [⟨0, 0, false⟩, ⟨1, 2, false⟩], .ofLiteral ⟨2, 4, false⟩,
    .ofList [⟨1, 2, false⟩, ⟨2, 4, true⟩], .ofList [⟨0, 0, false⟩, ⟨2, 4, false⟩],
    .ofList [⟨0, 0, false⟩, ⟨1, 2, true⟩]]
  (clauses.foldl adding .empty).mark ⟨2, 0⟩

theorem scored_pivots : Scored graded .maxWeight pivots := by
  have hall : ∀ c ∈ pivots.clauses, (c.weight graded).isOk = true := by decide +kernel
  intro c hc _
  have hok := hall c hc
  change ∃ r, c.weight graded = .ok r
  cases hr : c.weight graded with
  | ok r => exact ⟨r, rfl⟩
  | error e =>
    rw [hr] at hok
    cases hok

/-- Nine turns: the three that wait by weight and then by slot, and twice all four from the
heaviest on. -/
theorem select_fair_pivots :
    Scored graded .maxWeight pivots ∧ pivots.longKeys.Nonempty ∧
      (turns graded .maxWeight 9 pivots).map (·.1.map fun t => (t.key.slot, t.cleared)) =
        .ok [(3, false), (0, false), (4, false), (2, true), (3, false), (0, false), (4, false),
          (2, true), (3, false)] ∧
      ∃ ts T, turns graded .maxWeight 9 pivots = .ok (ts, T) ∧ ts.length = 9 ∧ Fair pivots ts := by
  have hlong : pivots.longKeys.Nonempty := ⟨⟨0, 0⟩, by decide +kernel⟩
  exact ⟨scored_pivots, hlong, by decide +kernel, (select_fair scored_pivots).2 hlong 9⟩

end Exhaustive

end Acquisition
