import Acquisition.Propositional.Formula
import Acquisition.Proofs.Results

/-!
# Clause stores as sets of clauses

A clause store is described here by the clause that each key finds. Insertion,
removal and modification concern one key and leave every other as it was, as long
as the free slots are empty and listed once, which each operation keeps true.

The truth of literals under a valuation of the atoms is extended to clauses,
stores and formulas.
-/
namespace Acquisition

open Checked

namespace Clause

theorem ext_literals {c d : Clause} : c.same d = true ↔ c.literals = d.literals := by
  simp [same]

@[simp] theorem literals_ofLiteral (l : Literal) : (ofLiteral l).literals = [l] := rfl

@[simp] theorem literals_withOrigin (c : Clause) (q : Option Query) :
    (c.withOrigin q).literals = c.literals := rfl

@[simp] theorem literals_mark (c : Clause) : c.mark.literals = c.literals := rfl

@[simp] theorem literals_unmark (c : Clause) : c.unmark.literals = c.literals := rfl

@[simp] theorem literals_without (c : Clause) (p : Literal → Bool) :
    (c.without p).literals = c.literals.filter (!p ·) := rfl

@[simp] theorem mem_insert {c : Clause} {l m : Literal} :
    m ∈ (c.insert l).literals ↔ m = l ∨ m ∈ c.literals := mem_place

@[simp] theorem mem_ofList {ls : List Literal} {m : Literal} :
    m ∈ (ofList ls).literals ↔ m ∈ ls := by
  have h : ∀ c : Clause, m ∈ (ls.foldl insert c).literals ↔ m ∈ ls ∨ m ∈ c.literals := by
    induction ls with
    | nil => simp
    | cons l ls ih =>
      intro c
      rw [List.foldl_cons, ih, mem_insert, List.mem_cons]
      tauto
  exact (h empty).trans (or_iff_left List.not_mem_nil)

theorem nodup (c : Clause) : c.literals.Nodup :=
  c.increasing.imp fun {a b} h e => by
    subst e
    rw [Literal.lt_def] at h
    grind

theorem literals_eq_singleton {c : Clause} {l : Literal} (hne : c.literals ≠ [])
    (h : ∀ m ∈ c.literals, m = l) : c.literals = [l] := by
  have hl : l ∈ c.literals := by
    obtain ⟨m, hm⟩ := List.exists_mem_of_ne_nil _ hne
    exact h m hm ▸ hm
  apply List.perm_singleton.1
  refine (List.perm_ext_iff_of_nodup c.nodup (List.pairwise_singleton _ l)).2 fun m => ?_
  rw [List.mem_singleton]
  exact ⟨h m, fun e => e ▸ hl⟩

end Clause

namespace ClauseStore

/-- The free slots are empty, and each is listed once. -/
structure Valid (S : ClauseStore) : Prop where
  nodup : S.free.Nodup
  vacant : ∀ i ∈ S.free, ∃ s, S.slots[i]? = some s ∧ s.clause? = none

theorem valid_empty : empty.Valid := ⟨.nil, fun _ h => absurd h List.not_mem_nil⟩

theorem get?_eq_some {S : ClauseStore} {k : ClauseKey} {c : Clause} :
    S.get? k = some c ↔
      ∃ s, S.slots[k.slot]? = some s ∧ s.generation = k.generation ∧ s.clause? = some c := by
  unfold get?
  cases S.slots[k.slot]? with
  | none => simp
  | some s =>
    by_cases hg : s.generation = k.generation
    · simp [hg]
    · simp [hg]

theorem mem_entries {S : ClauseStore} {k : ClauseKey} {c : Clause} :
    (k, c) ∈ S.entries ↔ S.get? k = some c := by
  rw [entries, List.mem_filterMap, get?_eq_some]
  constructor
  · rintro ⟨⟨s, i⟩, hsi, h⟩
    obtain ⟨d, hd, h⟩ := Option.map_eq_some_iff.1 h
    cases h
    exact ⟨s, (List.mk_mem_zipIdx_iff_getElem?).1 hsi, rfl, hd⟩
  · rintro ⟨s, hs, hg, hc⟩
    refine ⟨(s, k.slot), (List.mk_mem_zipIdx_iff_getElem?).2 hs, ?_⟩
    simp [hc, hg]

theorem mem_clauses {S : ClauseStore} {c : Clause} : c ∈ S.clauses ↔ ∃ k, S.get? k = some c := by
  rw [clauses, List.mem_filterMap]
  constructor
  · rintro ⟨s, hs, hc⟩
    obtain ⟨i, hi⟩ := List.mem_iff_getElem?.1 hs
    exact ⟨⟨i, s.generation⟩, get?_eq_some.2 ⟨s, hi, rfl, hc⟩⟩
  · rintro ⟨k, hk⟩
    obtain ⟨s, hs, -, hc⟩ := get?_eq_some.1 hk
    exact ⟨s, List.mem_of_getElem? hs, hc⟩

theorem get?_mem {S : ClauseStore} {k : ClauseKey} {c : Clause} (h : S.get? k = some c) :
    c ∈ S.clauses := mem_clauses.2 ⟨k, h⟩

/-- The keys of a store name different slots. -/
theorem nodup_keys (S : ClauseStore) : (S.entries.map (·.1)).Nodup := by
  rw [List.Nodup, List.pairwise_map, entries, List.pairwise_filterMap]
  have h : S.slots.zipIdx.Pairwise fun a b => a.2 < b.2 := by
    have := List.pairwise_lt_range (n := S.slots.length)
    rw [List.range_eq_range', ← List.zipIdx_map_snd 0 S.slots, List.pairwise_map] at this
    exact this
  refine h.imp fun {a b} hab e he e' he' heq => ?_
  obtain ⟨c, -, rfl⟩ := Option.map_eq_some_iff.1 he
  obtain ⟨c', -, rfl⟩ := Option.map_eq_some_iff.1 he'
  have : a.2 = b.2 := congrArg ClauseKey.slot heq
  omega

theorem get?_none_of_vacant {S : ClauseStore} {k : ClauseKey}
    (h : ∀ s, S.slots[k.slot]? = some s → s.clause? = none) : S.get? k = none := by
  cases hk : S.get? k with
  | none => rfl
  | some c =>
    obtain ⟨s, hs, -, hc⟩ := get?_eq_some.1 hk
    rw [h s hs] at hc
    cases hc

theorem erase_of_none {S : ClauseStore} {k : ClauseKey} (h : S.get? k = none) :
    S.erase k = S := by
  rw [erase, h]
  rfl

theorem erase_of_some {S : ClauseStore} {k : ClauseKey} {c : Clause} (h : S.get? k = some c) :
    S.erase k =
      ⟨S.slots.modify k.slot fun s => ⟨s.generation + 1, none⟩, k.slot :: S.free⟩ := by
  rw [erase, h]
  rfl

theorem modify_of_none {S : ClauseStore} {k : ClauseKey} (h : S.get? k = none)
    (f : Clause → Clause) : S.modify k f = S := by
  rw [modify, h]
  rfl

theorem modify_of_some {S : ClauseStore} {k : ClauseKey} {c : Clause} (h : S.get? k = some c)
    (f : Clause → Clause) :
    S.modify k f =
      { S with slots := S.slots.modify k.slot fun s => { s with clause? := s.clause?.map f } } := by
  rw [modify, h]
  rfl

/-- A key finds nothing new when another slot changes. -/
theorem get?_slots {S T : ClauseStore} {k : ClauseKey} (h : T.slots[k.slot]? = S.slots[k.slot]?) :
    T.get? k = S.get? k := by
  rw [get?, h]
  rfl

theorem get?_erase (S : ClauseStore) (k k' : ClauseKey) :
    (S.erase k).get? k' = if k' = k then none else S.get? k' := by
  cases hk : S.get? k with
  | none =>
    rw [erase_of_none hk]
    split
    · next h => rw [h, hk]
    · rfl
  | some c =>
    obtain ⟨s, hs, hg, hc⟩ := get?_eq_some.1 hk
    rw [erase_of_some hk]
    obtain ⟨i, g⟩ := k
    obtain ⟨i', g'⟩ := k'
    by_cases hslot : i = i'
    · subst hslot
      simp only at hs hg
      by_cases hgen : s.generation = g'
      · have hg' : g' = g := hgen.symm.trans hg
        subst hg'
        simp [get?, hs]
      · -- The slot never was that of the other key.
        have hg' : ¬ g' = g := fun e => hgen (hg.trans e.symm)
        simp [get?, hs, hgen, hg']
    · have hne : ¬ i' = i := fun e => hslot e.symm
      rw [if_neg (by simp [hne])]
      exact get?_slots (List.getElem?_modify_ne _ _ hslot)

theorem get?_modify (S : ClauseStore) (k k' : ClauseKey) (f : Clause → Clause) :
    (S.modify k f).get? k' = if k' = k then (S.get? k).map f else S.get? k' := by
  cases hk : S.get? k with
  | none =>
    rw [modify_of_none hk]
    split
    · next h => rw [h, hk]; rfl
    · rfl
  | some c =>
    obtain ⟨s, hs, hg, hc⟩ := get?_eq_some.1 hk
    rw [modify_of_some hk]
    obtain ⟨i, g⟩ := k
    obtain ⟨i', g'⟩ := k'
    by_cases hslot : i = i'
    · subst hslot
      simp only at hs hg
      by_cases hgen : s.generation = g'
      · have hg' : g' = g := hgen.symm.trans hg
        subst hg'
        simp [get?, hs, hgen, hc]
      · have hg' : ¬ g' = g := fun e => hgen (hg.trans e.symm)
        simp [get?, hs, hgen, hg']
    · have hne : ¬ i' = i := fun e => hslot e.symm
      rw [if_neg (by simp [hne])]
      exact get?_slots (List.getElem?_modify_ne _ _ hslot)

theorem get?_insert {S : ClauseStore} (hS : S.Valid) (c : Clause) (k : ClauseKey) :
    (S.insert c).2.get? k = if k = (S.insert c).1 then some c else S.get? k := by
  unfold insert
  split
  · next i rest hfree =>
    obtain ⟨s, hs, hvac⟩ := hS.vacant i (by rw [hfree]; exact List.mem_cons_self)
    obtain ⟨j, g⟩ := k
    by_cases hslot : i = j
    · subst hslot
      by_cases hgen : s.generation = g
      · subst hgen
        simp [get?, hs]
      · have hgen' : ¬ g = s.generation := fun e => hgen e.symm
        simp [get?, hs, hgen, hgen']
    · have hslot' : ¬ j = i := fun e => hslot e.symm
      simp [get?, hslot, hslot']
  · next hfree =>
    obtain ⟨j, g⟩ := k
    rcases Nat.lt_trichotomy j S.slots.length with hj | rfl | hj
    · have hne : ¬ j = S.slots.length := by omega
      simp [get?, List.getElem?_append_left hj, hne]
    · by_cases hgen : 0 = g
      · subst hgen
        simp [get?]
      · have hgen' : ¬ g = 0 := fun e => hgen e.symm
        simp [get?, hgen, hgen']
    · have hne : ¬ j = S.slots.length := by omega
      have hnone : (S.slots ++ [{ clause? := some c }])[j]? = none :=
        List.getElem?_eq_none (by simp; omega)
      have hnone' : S.slots[j]? = none := List.getElem?_eq_none (by omega)
      simp [get?, hnone, hnone', hne]

/-- The key of a clause that is inserted was not in use. -/
theorem get?_insert_key {S : ClauseStore} (hS : S.Valid) (c : Clause) :
    S.get? (S.insert c).1 = none := by
  unfold insert
  split
  · next i rest hfree =>
    obtain ⟨s, hs, hvac⟩ := hS.vacant i (by rw [hfree]; exact List.mem_cons_self)
    refine get?_none_of_vacant fun s' hs' => ?_
    rw [hs] at hs'
    cases hs'
    exact hvac
  · refine get?_none_of_vacant fun s' hs' => ?_
    rw [List.getElem?_eq_none (Nat.le_refl _)] at hs'
    cases hs'

theorem Valid.erase {S : ClauseStore} (hS : S.Valid) (k : ClauseKey) : (S.erase k).Valid := by
  cases hk : S.get? k with
  | none => rwa [erase_of_none hk]
  | some c =>
    obtain ⟨s, hs, hg, hc⟩ := get?_eq_some.1 hk
    rw [erase_of_some hk]
    refine ⟨List.nodup_cons.2 ⟨fun hmem => ?_, hS.nodup⟩, fun i hi => ?_⟩
    · obtain ⟨s', hs', hvac⟩ := hS.vacant _ hmem
      rw [hs] at hs'
      cases hs'
      rw [hc] at hvac
      cases hvac
    · by_cases hik : k.slot = i
      · subst hik
        exact ⟨⟨s.generation + 1, none⟩, by simp [hs], rfl⟩
      · obtain ⟨s', hs', hvac⟩ := hS.vacant i
          ((List.mem_cons.1 hi).resolve_left fun e => hik e.symm)
        exact ⟨s', by simp [hik, hs'], hvac⟩

theorem Valid.modify {S : ClauseStore} (hS : S.Valid) (k : ClauseKey) (f : Clause → Clause) :
    (S.modify k f).Valid := by
  cases hk : S.get? k with
  | none => rwa [modify_of_none hk]
  | some c =>
    rw [modify_of_some hk]
    refine ⟨hS.nodup, fun i hi => ?_⟩
    obtain ⟨s, hs, hvac⟩ := hS.vacant i hi
    by_cases hik : k.slot = i
    · subst hik
      exact ⟨{ s with clause? := s.clause?.map f }, by simp [hs], by simp [hvac]⟩
    · exact ⟨s, by simp [hik, hs], hvac⟩

theorem Valid.insert {S : ClauseStore} (hS : S.Valid) (c : Clause) : (S.insert c).2.Valid := by
  unfold ClauseStore.insert
  split
  · next i rest hfree =>
    have hnd := hS.nodup
    rw [hfree, List.nodup_cons] at hnd
    refine ⟨hnd.2, fun j hj => ?_⟩
    obtain ⟨s, hs, hvac⟩ := hS.vacant j (by rw [hfree]; exact List.mem_cons_of_mem _ hj)
    have hij : ¬ i = j := fun e => hnd.1 (e ▸ hj)
    exact ⟨s, by simp [hij, hs], hvac⟩
  · exact ⟨.nil, fun _ h => absurd h List.not_mem_nil⟩

@[simp] theorem get?_empty (k : ClauseKey) : empty.get? k = none := by
  simp [get?, empty]

@[simp] theorem clauses_empty : empty.clauses = [] := rfl

theorem find?_eq_some {S : ClauseStore} {c : Clause} {k : ClauseKey} (h : S.find? c = some k) :
    ∃ d, S.get? k = some d ∧ d.literals = c.literals := by
  obtain ⟨⟨k', d⟩, he, hk⟩ := Option.map_eq_some_iff.1 h
  cases hk
  exact ⟨d, mem_entries.1 (List.mem_of_find?_eq_some he),
    Clause.ext_literals.1 (List.find?_some (p := fun e : ClauseKey × Clause => e.2.same c) he)⟩

theorem find?_eq_none {S : ClauseStore} {c : Clause} (h : S.find? c = none) {d : Clause}
    (hd : d ∈ S.clauses) : d.literals ≠ c.literals := by
  obtain ⟨k, hk⟩ := mem_clauses.1 hd
  have := List.find?_eq_none.1 (Option.map_eq_none_iff.1 h) (k, d) (mem_entries.2 hk)
  exact fun e => this (Clause.ext_literals.2 e)

theorem adding_of_some {S : ClauseStore} {c : Clause} {k : ClauseKey} (h : S.find? c = some k) :
    S.adding c = S := by
  rw [adding, add, h]

theorem adding_of_none {S : ClauseStore} {c : Clause} (h : S.find? c = none) :
    S.adding c = (S.insert c).2 := by
  rw [adding, add, h]

theorem mem_clauses_insert {S : ClauseStore} (hS : S.Valid) {c d : Clause} :
    d ∈ (S.insert c).2.clauses ↔ d = c ∨ d ∈ S.clauses := by
  simp only [mem_clauses, get?_insert hS]
  constructor
  · rintro ⟨k, hk⟩
    split at hk
    · exact .inl (Option.some.inj hk).symm
    · exact .inr ⟨k, hk⟩
  · rintro (rfl | ⟨k, hk⟩)
    · exact ⟨(S.insert d).1, if_pos rfl⟩
    · refine ⟨k, ?_⟩
      rw [if_neg, hk]
      rintro rfl
      rw [get?_insert_key hS] at hk
      cases hk

theorem Valid.adding {S : ClauseStore} (hS : S.Valid) (c : Clause) : (S.adding c).Valid := by
  cases h : S.find? c with
  | some k => rwa [adding_of_some h]
  | none => rw [adding_of_none h]; exact hS.insert c

theorem get?_adding {S : ClauseStore} (hS : S.Valid) (c : Clause) {k : ClauseKey} {d : Clause}
    (hk : S.get? k = some d) : (S.adding c).get? k = some d := by
  cases h : S.find? c with
  | some k' => rwa [adding_of_some h]
  | none =>
    rw [adding_of_none h, get?_insert hS, if_neg, hk]
    rintro rfl
    rw [get?_insert_key hS] at hk
    cases hk

theorem mem_adding_of_mem {S : ClauseStore} (hS : S.Valid) (c : Clause) {d : Clause}
    (hd : d ∈ S.clauses) : d ∈ (S.adding c).clauses := by
  obtain ⟨k, hk⟩ := mem_clauses.1 hd
  exact get?_mem (get?_adding hS c hk)

theorem mem_of_mem_adding {S : ClauseStore} (hS : S.Valid) {c d : Clause}
    (hd : d ∈ (S.adding c).clauses) : d = c ∨ d ∈ S.clauses := by
  cases h : S.find? c with
  | some k => exact .inr (adding_of_some h ▸ hd)
  | none =>
    rw [adding_of_none h] at hd
    exact (mem_clauses_insert hS).1 hd

/-- A clause that is added is there, if not with its origin then with its literals. -/
theorem exists_adding {S : ClauseStore} (hS : S.Valid) (c : Clause) :
    ∃ d ∈ (S.adding c).clauses, d.literals = c.literals := by
  cases h : S.find? c with
  | some k =>
    obtain ⟨d, hd, hl⟩ := find?_eq_some h
    rw [adding_of_some h]
    exact ⟨d, get?_mem hd, hl⟩
  | none =>
    rw [adding_of_none h]
    exact ⟨c, (mem_clauses_insert hS).2 (.inl rfl), rfl⟩

theorem Valid.foldl_erase {S : ClauseStore} (hS : S.Valid) (p : Clause → Bool)
    (es : List (ClauseKey × Clause)) :
    (es.foldl (fun T e => if p e.2 then T else T.erase e.1) S).Valid := by
  induction es generalizing S with
  | nil => exact hS
  | cons e es ih =>
    rw [List.foldl_cons]
    split
    · exact ih hS
    · exact ih (hS.erase e.1)

theorem get?_foldl_erase (p : Clause → Bool) (es : List (ClauseKey × Clause)) (S : ClauseStore)
    (k : ClauseKey) :
    (es.foldl (fun T e => if p e.2 then T else T.erase e.1) S).get? k =
      if ∃ e ∈ es, e.1 = k ∧ p e.2 = false then none else S.get? k := by
  induction es generalizing S with
  | nil => simp
  | cons e es ih =>
    rw [List.foldl_cons, ih]
    by_cases hex : ∃ e ∈ es, e.1 = k ∧ p e.2 = false
    · obtain ⟨e', he', hk⟩ := hex
      rw [if_pos ⟨e', he', hk⟩, if_pos ⟨e', List.mem_cons_of_mem _ he', hk⟩]
    · rw [if_neg hex]
      have hcons : (∃ e' ∈ e :: es, e'.1 = k ∧ p e'.2 = false) ↔ e.1 = k ∧ p e.2 = false := by
        simp only [List.mem_cons, exists_eq_or_imp, or_iff_left hex]
      rw [if_congr hcons rfl rfl]
      by_cases hp : p e.2 = true
      · simp [hp]
      · rw [if_neg hp, get?_erase]
        simp [hp, eq_comm]

theorem Valid.retain {S : ClauseStore} (hS : S.Valid) (p : Clause → Bool) : (S.retain p).Valid :=
  hS.foldl_erase p _

theorem get?_retain {S : ClauseStore} {p : Clause → Bool} {k : ClauseKey} {c : Clause} :
    (S.retain p).get? k = some c ↔ S.get? k = some c ∧ p c = true := by
  rw [retain, get?_foldl_erase]
  by_cases hex : ∃ e ∈ S.entries, e.1 = k ∧ p e.2 = false
  · rw [if_pos hex]
    obtain ⟨⟨k', d⟩, hd, rfl, hp⟩ := hex
    refine iff_of_false nofun fun ⟨hc, hpc⟩ => ?_
    have e := (mem_entries.1 hd).symm.trans hc
    cases e
    rw [hp] at hpc
    cases hpc
  · rw [if_neg hex]
    refine ⟨fun hc => ⟨hc, ?_⟩, And.left⟩
    cases hp : p c with
    | true => rfl
    | false => exact absurd ⟨(k, c), mem_entries.2 hc, rfl, hp⟩ hex

theorem mem_retain {S : ClauseStore} {p : Clause → Bool} {c : Clause} :
    c ∈ (S.retain p).clauses ↔ c ∈ S.clauses ∧ p c = true := by
  simp only [mem_clauses, get?_retain, exists_and_right]

theorem subsumes_eq_true {c d : Clause} :
    c.subsumes d = true ↔ ∀ l ∈ c.literals, l ∈ d.literals := by
  simp [Clause.subsumes, Clause.contains]

theorem Valid.addReduced {S : ClauseStore} (hS : S.Valid) (c : Clause) :
    (S.addReduced c).2.Valid := by
  unfold ClauseStore.addReduced
  split
  · exact hS
  · exact (hS.retain _).insert c

theorem mem_of_mem_addReduced {S : ClauseStore} (hS : S.Valid) {c d : Clause}
    (hd : d ∈ (S.addReduced c).2.clauses) : d = c ∨ d ∈ S.clauses := by
  unfold addReduced at hd
  split at hd
  · exact .inr hd
  · exact ((mem_clauses_insert (hS.retain _)).1 hd).imp id fun h => (mem_retain.1 h).1

/-- Whatever was said before is still said, by the same clause or by one with fewer
literals. -/
theorem exists_addReduced {S : ClauseStore} (hS : S.Valid) {c d : Clause}
    (hd : d ∈ S.clauses ∨ d = c) :
    ∃ e ∈ (S.addReduced c).2.clauses, ∀ l ∈ e.literals, l ∈ d.literals := by
  unfold addReduced
  split
  · next hany =>
    rcases hd with hd | rfl
    · exact ⟨d, hd, fun _ h => h⟩
    · obtain ⟨e, he, hsub⟩ := List.any_eq_true.1 hany
      exact ⟨e, he, subsumes_eq_true.1 hsub⟩
  · rcases hd with hd | rfl
    · by_cases hsub : c.subsumes d = true
      · exact ⟨c, (mem_clauses_insert (hS.retain _)).2 (.inl rfl), subsumes_eq_true.1 hsub⟩
      · refine ⟨d, (mem_clauses_insert (hS.retain _)).2 (.inr (mem_retain.2 ⟨hd, ?_⟩)),
          fun _ h => h⟩
        simpa using hsub
    · exact ⟨d, (mem_clauses_insert (hS.retain _)).2 (.inl rfl), fun _ h => h⟩

theorem Valid.foldl_adding {S : ClauseStore} (hS : S.Valid) (cs : List Clause) :
    (cs.foldl ClauseStore.adding S).Valid := by
  induction cs generalizing S with
  | nil => exact hS
  | cons c cs ih => exact ih (hS.adding c)

theorem Valid.concat {S : ClauseStore} (hS : S.Valid) (T : ClauseStore) : (S.concat T).Valid :=
  hS.foldl_adding _

theorem exists_foldl_adding {S : ClauseStore} (hS : S.Valid) {cs : List Clause} {d : Clause}
    (hd : d ∈ cs ∨ d ∈ S.clauses) :
    ∃ e ∈ (cs.foldl adding S).clauses, e.literals = d.literals := by
  induction cs generalizing S d with
  | nil => exact ⟨d, hd.resolve_left List.not_mem_nil, rfl⟩
  | cons c cs ih =>
    rw [List.foldl_cons]
    rcases hd with hd | hd
    · rcases List.mem_cons.1 hd with rfl | hd
      · obtain ⟨e, he, hl⟩ := exists_adding hS d
        obtain ⟨e', he', hl'⟩ := ih (hS.adding d) (.inr he)
        exact ⟨e', he', hl'.trans hl⟩
      · exact ih (hS.adding c) (.inl hd)
    · exact ih (hS.adding c) (.inr (mem_adding_of_mem hS c hd))

/-- Each clause of either store is there, if not with its origin then with its literals. -/
theorem exists_concat {S : ClauseStore} (hS : S.Valid) {T : ClauseStore} {d : Clause}
    (hd : d ∈ T.clauses ∨ d ∈ S.clauses) :
    ∃ e ∈ (S.concat T).clauses, e.literals = d.literals := exists_foldl_adding hS hd

/-- Changes that leave the literals of each clause alone leave its key good. -/
theorem get?_unmarkAll (S : ClauseStore) (k : ClauseKey) :
    S.unmarkAll.get? k = (S.get? k).map .unmark := by
  simp only [get?, unmarkAll, List.getElem?_map]
  cases S.slots[k.slot]? with
  | none => rfl
  | some s =>
    by_cases hg : s.generation = k.generation
    · simp [hg]
    · simp [hg]

theorem Valid.unmarkAll {S : ClauseStore} (hS : S.Valid) : S.unmarkAll.Valid := by
  refine ⟨hS.nodup, fun i hi => ?_⟩
  obtain ⟨s, hs, hvac⟩ := hS.vacant i hi
  exact ⟨{ s with clause? := s.clause?.map .unmark },
    by simp [ClauseStore.unmarkAll, hs], by simp [hvac]⟩

end ClauseStore

/-- The literal is true under a valuation of the atoms. -/
def Literal.Holds (v : Atom → Bool) (l : Literal) : Prop := v l.atom = !l.negated

instance (v : Atom → Bool) (l : Literal) : Decidable (l.Holds v) :=
  inferInstanceAs (Decidable (_ = _))

theorem Literal.holds_negate (v : Atom → Bool) (l : Literal) : l.negate.Holds v ↔ ¬ l.Holds v := by
  simp only [Holds, negate]
  cases v l.atom <;> cases l.negated <;> simp

theorem Literal.negate_negate (l : Literal) : l.negate.negate = l := by simp [negate]

/-- Some literal of the clause is true. -/
def Clause.Holds (v : Atom → Bool) (c : Clause) : Prop := ∃ l ∈ c.literals, l.Holds v

namespace ClauseStore

/-- Every clause of the store is true. -/
def Holds (v : Atom → Bool) (S : ClauseStore) : Prop := ∀ c ∈ S.clauses, c.Holds v

theorem holds_adding {S : ClauseStore} (hS : S.Valid) {v : Atom → Bool} {c : Clause} :
    (S.adding c).Holds v ↔ S.Holds v ∧ c.Holds v := by
  constructor
  · intro h
    refine ⟨fun d hd => h d (mem_adding_of_mem hS c hd), ?_⟩
    obtain ⟨d, hd, hl⟩ := exists_adding hS c
    rw [Clause.Holds, ← hl]
    exact h d hd
  · rintro ⟨h, hc⟩ d hd
    rcases mem_of_mem_adding hS hd with rfl | hd
    · exact hc
    · exact h d hd

theorem holds_foldl_adding {S : ClauseStore} (hS : S.Valid) {v : Atom → Bool} (cs : List Clause) :
    (cs.foldl adding S).Holds v ↔ S.Holds v ∧ ∀ c ∈ cs, c.Holds v := by
  induction cs generalizing S with
  | nil => simp
  | cons c cs ih =>
    rw [List.foldl_cons, ih (hS.adding c), holds_adding hS, List.forall_mem_cons, and_assoc]

theorem holds_concat {S : ClauseStore} (hS : S.Valid) {v : Atom → Bool} (T : ClauseStore) :
    (S.concat T).Holds v ↔ S.Holds v ∧ T.Holds v := holds_foldl_adding hS _

theorem mem_of_mem_foldl_adding {S : ClauseStore} (hS : S.Valid) {cs : List Clause} {d : Clause}
    (hd : d ∈ (cs.foldl adding S).clauses) : d ∈ cs ∨ d ∈ S.clauses := by
  induction cs generalizing S with
  | nil => exact .inr hd
  | cons c cs ih =>
    rcases ih (hS.adding c) hd with hd | hd
    · exact .inl (List.mem_cons_of_mem _ hd)
    · rcases mem_of_mem_adding hS hd with rfl | hd
      · exact .inl List.mem_cons_self
      · exact .inr hd

theorem mem_of_mem_concat {S : ClauseStore} (hS : S.Valid) {T : ClauseStore} {d : Clause}
    (hd : d ∈ (S.concat T).clauses) : d ∈ T.clauses ∨ d ∈ S.clauses :=
  mem_of_mem_foldl_adding hS hd

end ClauseStore

/-- At least as many literals of the clause are true as the window asks for, and at
most as many as it allows. -/
def Window.Holds (v : Atom → Bool) (w : Window) : Prop :=
  let count := w.clause.literals.countP fun l => decide (l.Holds v)
  w.lower ≤ count ∧ count ≤ w.upper

/-- Every clause of the formula is true, and so is its window. -/
structure Formula.Holds (v : Atom → Bool) (F : Formula) : Prop where
  clauses : ∀ c ∈ F.clauses, c.Holds v
  window : ∀ w, F.window = some w → w.Holds v

namespace Formula

theorem clauses_ofStore (S : ClauseStore) : (ofStore S).clauses = S.clauses := by
  simp [ofStore, addStore, clauses, empty]

theorem clauses_addStore (F : Formula) (S : ClauseStore) :
    (F.addStore S).clauses = F.clauses ++ S.clauses := by
  simp [addStore, clauses]

theorem holds_ofStore {v : Atom → Bool} {S : ClauseStore} : (ofStore S).Holds v ↔ S.Holds v := by
  constructor
  · exact fun h c hc => h.clauses c (by rwa [clauses_ofStore])
  · exact fun h => ⟨fun c hc => h c (by rwa [clauses_ofStore] at hc), nofun⟩

theorem holds_addStore {v : Atom → Bool} {F : Formula} {S : ClauseStore} :
    (F.addStore S).Holds v ↔ F.Holds v ∧ S.Holds v := by
  constructor
  · refine fun h => ⟨⟨fun c hc => h.clauses c ?_, h.window⟩, fun c hc => h.clauses c ?_⟩
    · rw [clauses_addStore]
      exact List.mem_append_left _ hc
    · rw [clauses_addStore]
      exact List.mem_append_right _ hc
  · rintro ⟨hF, hS⟩
    refine ⟨fun c hc => ?_, hF.window⟩
    rw [clauses_addStore] at hc
    rcases List.mem_append.1 hc with hc | hc
    · exact hF.clauses c hc
    · exact hS c hc

end Formula

end Acquisition
