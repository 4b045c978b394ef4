import Mathlib.Data.Finset.Card
import Acquisition.Proofs.Propagation

/-!
# How many clauses a store has

Clauses are told apart by their keys, and so they are counted by them. A clause that is added
takes a key that was not in use. Propagation, the choice of a pivot and the addition of a
clause of one literal find no key a clause of several literals that it did not have.
-/
namespace Acquisition.ClauseStore

variable {S T : ClauseStore} {k : ClauseKey} {c d : Clause} {l : Literal}

/-- The keys in use. -/
def keys (S : ClauseStore) : Finset ClauseKey := (S.entries.map (·.1)).toFinset

@[simp] theorem mem_keys : k ∈ S.keys ↔ ∃ c, S.get? k = some c := by
  simp only [keys, List.mem_toFinset, List.mem_map, Prod.exists, exists_and_right,
    exists_eq_right, mem_entries]

theorem map_snd_entries (S : ClauseStore) : S.entries.map (·.2) = S.clauses := by
  have hfst : S.slots.zipIdx.map (·.1) = S.slots := List.zipIdx_map_fst 0 S.slots
  have hclause : ∀ p : Slot × Nat, (p.1.clause?.map fun c =>
      ((⟨p.2, p.1.generation⟩, c) : ClauseKey × Clause)).map (·.2) = p.1.clause? := by
    intro p
    cases p.1.clause? with
    | none => rfl
    | some c => rfl
  rw [clauses, ← hfst, List.filterMap_map, entries, List.map_filterMap]
  exact List.filterMap_congr fun p _ => hclause p

theorem card_keys (S : ClauseStore) : S.keys.card = S.size := by
  rw [keys, List.toFinset_card_of_nodup (nodup_keys S), List.length_map, size,
    ← map_snd_entries, List.length_map]

theorem size_insert (hS : S.Valid) (c : Clause) : (S.insert c).2.size = S.size + 1 := by
  have hfresh : (S.insert c).1 ∉ S.keys := by
    rw [mem_keys, get?_insert_key hS]
    exact nofun
  have hkeys : (S.insert c).2.keys = Insert.insert (S.insert c).1 S.keys := by
    ext k
    rw [Finset.mem_insert, mem_keys, mem_keys, get?_insert hS]
    split
    · next hk => exact iff_of_true ⟨c, rfl⟩ (.inl hk)
    · next hk => exact (or_iff_right hk).symm
  rw [← card_keys, ← card_keys, hkeys, Finset.card_insert_of_notMem hfresh]

/-- A clause with literals of its own makes a store larger. -/
theorem size_adding (hS : S.Valid) (hc : ∀ d ∈ S.clauses, d.literals ≠ c.literals) :
    (S.adding c).size = S.size + 1 := by
  cases hfind : S.find? c with
  | some k =>
    obtain ⟨d, hd, hsame⟩ := find?_eq_some hfind
    exact absurd hsame (hc d (get?_mem hd))
  | none =>
    rw [adding_of_none hfind]
    exact size_insert hS c

/-- The keys of clauses of several literals. -/
def longKeys (S : ClauseStore) : Finset ClauseKey :=
  ((S.entries.filter fun e => isLong e.2).map (·.1)).toFinset

@[simp] theorem mem_longKeys : k ∈ S.longKeys ↔ ∃ c, S.get? k = some c ∧ isLong c = true := by
  rw [longKeys, List.mem_toFinset, Wave.mem_long_keys]

theorem Simplifies.longKeys_subset (h : Simplifies l S T) : T.longKeys ⊆ S.longKeys := by
  intro k hk
  obtain ⟨d, hd, hlong⟩ := mem_longKeys.1 hk
  obtain ⟨c, hc, hsub⟩ := h.shrinks k d hd
  exact mem_longKeys.2 ⟨c, hc, isLong_of_sublist hsub hlong⟩

theorem SameLiterals.longKeys_eq (h : S.SameLiterals T) : T.longKeys = S.longKeys := by
  have hsub : ∀ {S T : ClauseStore}, S.SameLiterals T → T.longKeys ⊆ S.longKeys := by
    intro S T h k hk
    obtain ⟨c, hc, hlong⟩ := mem_longKeys.1 hk
    obtain ⟨d, hd, hsame⟩ := h.get? hc
    exact mem_longKeys.2 ⟨d, hd, isLong_congr hsame ▸ hlong⟩
  exact Finset.Subset.antisymm (hsub h) (hsub h.symm)

theorem longKeys_adding_subset (hS : S.Valid) (hc : isLong c = false) :
    (S.adding c).longKeys ⊆ S.longKeys := by
  intro k hk
  cases hfind : S.find? c with
  | some k' => rwa [adding_of_some hfind] at hk
  | none =>
    rw [adding_of_none hfind, mem_longKeys, get?_insert hS] at hk
    obtain ⟨d, hd, hlong⟩ := hk
    split at hd
    · cases hd
      rw [hc] at hlong
      cases hlong
    · exact mem_longKeys.2 ⟨d, hd, hlong⟩

theorem longKeys_erase (S : ClauseStore) (k : ClauseKey) :
    (S.erase k).longKeys = S.longKeys.erase k := by
  ext k'
  rw [Finset.mem_erase, mem_longKeys, mem_longKeys, get?_erase]
  split
  · next hk => exact iff_of_false nofun fun h => h.1 hk
  · next hk => exact (and_iff_right hk).symm

theorem longKeys_modify_subset (hc : S.get? k = some c) (hlong : isLong c = true) :
    (S.modify k fun _ => d).longKeys ⊆ S.longKeys := by
  intro k' hk'
  rw [mem_longKeys] at hk' ⊢
  obtain ⟨e, he, hlong'⟩ := hk'
  rw [get?_modify] at he
  split at he
  · next hk => exact ⟨c, hk ▸ hc, hlong⟩
  · exact ⟨e, he, hlong'⟩

theorem not_mem_longKeys_modify (hc : S.get? k = some c) (hd : isLong d = false) :
    k ∉ (S.modify k fun _ => d).longKeys := by
  rw [mem_longKeys, get?_modify, if_pos rfl, hc]
  rintro ⟨e, he, hlong⟩
  cases he
  rw [hd] at hlong
  cases hlong

/-- A clause of several literals has a key. -/
theorem card_longKeys_le (S : ClauseStore) : S.longKeys.card ≤ S.size := by
  rw [← card_keys]
  apply Finset.card_le_card
  intro k hk
  obtain ⟨c, hc, -⟩ := mem_longKeys.1 hk
  exact mem_keys.2 ⟨c, hc⟩

/-- How many literals the clauses have together. -/
def width (S : ClauseStore) : Nat := S.clauses.foldr (fun c n => c.size + n) 0

theorem size_le_width (hc : c ∈ S.clauses) : c.size ≤ S.width := by
  rw [width]
  generalize S.clauses = cs at hc
  induction hc with
  | head cs => exact Nat.le_add_right _ _
  | tail d _ ih => exact ih.trans (Nat.le_add_left _ _)

end Acquisition.ClauseStore
