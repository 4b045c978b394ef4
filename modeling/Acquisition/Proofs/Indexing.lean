import Mathlib.Data.List.AList
import Acquisition.Proofs.Fixpoint

/-!
# Propagation with an index

Whether a clause that was shortened is there already can be looked up in an index of the
clauses by their literals, which is built once and kept up to date while clauses are
shortened and removed. Where no two clauses have the same literals, the index tells at
every visit what a search through the store would tell, and so propagation comes to the
same with it.
-/
namespace Acquisition.ClauseStore

/-- The keys of clauses by their literals. -/
abbrev Index := AList fun _ : List Literal => ClauseKey

/-- The index of a store. Of clauses with the same literals the last one is found. -/
def index (S : ClauseStore) : Index :=
  S.entries.foldl (fun I e => I.insert e.2.literals e.1) ∅

namespace Wave

/-- Simplifies one clause by a literal that holds, and brings the index up to date. -/
def visitIndexed (l : Literal) (s : Wave × Index) (k : ClauseKey) : Wave × Index :=
  let (w, I) := s
  match w.store.get? k with
  | none => (w, I)
  | some c =>
    if c.contains l then
      ({ w with
        store := w.store.erase k
        report := { w.report with satisfied := w.report.satisfied + 1 } }, I.erase c.literals)
    else if c.literals.any (·.isComplement l) then
      let d := (c.without (·.isComplement l)).unmark
      let I := I.erase c.literals
      let w := w.noteShortened d
      if (I.lookup d.literals).isSome then ({ w with store := w.store.erase k }, I)
      else ({ w with store := w.store.modify k fun _ => d }, I.insert d.literals k)
    else (w, I)

/-- Simplifies every clause of more than one literal. -/
def passIndexed (s : Wave × Index) (l : Literal) : Wave × Index :=
  ((s.1.store.entries.filter fun e => isLong e.2).map (·.1)).foldl (visitIndexed l) s

/-- Propagates the literals in line. -/
def runIndexed : Nat → Wave × Index → Wave × Index
  | 0, s => s
  | fuel + 1, (w, I) => match w.queue with
    | [] => (w, I)
    | l :: rest => runIndexed fuel (passIndexed ({ w with queue := rest }, I) l)

end Wave

/-- Propagates a literal that holds, with an index of the clauses. -/
def propagateIndexed (S : ClauseStore) (l : Literal) : Checked (Report × ClauseStore) := do
  if ← S.isMonomial then return ({}, S)
  let (w, _) := Wave.runIndexed (S.size + 1) ({ store := S, queue := [l] }, S.index)
  return (w.report, w.store)

/-- The index lists each clause at its key, and nothing else. -/
def Exact (I : Index) (S : ClauseStore) : Prop :=
  ∀ ls k, I.lookup ls = some k ↔ ∃ c, S.get? k = some c ∧ c.literals = ls

variable {S : ClauseStore} {I : Index} {k : ClauseKey} {c d : Clause} {l : Literal} {w : Wave}

theorem lookup_foldl_insert {es : List (ClauseKey × Clause)}
    (hes : (es.map (·.2.literals)).Nodup) (I : Index) (ls : List Literal) (k : ClauseKey) :
    (es.foldl (fun I e => I.insert e.2.literals e.1) I).lookup ls = some k ↔
      (∃ e ∈ es, e.1 = k ∧ e.2.literals = ls) ∨
        ((∀ e ∈ es, e.2.literals ≠ ls) ∧ I.lookup ls = some k) := by
  induction es generalizing I with
  | nil => simp
  | cons e es ih =>
    rw [List.map_cons, List.nodup_cons] at hes
    rw [List.foldl_cons, ih hes.2]
    by_cases hls : e.2.literals = ls
    · -- The clauses after the first one have other literals.
      have hrest : ∀ e' ∈ es, e'.2.literals ≠ ls := by
        intro e' he' hl
        exact hes.1 (List.mem_map.2 ⟨e', he', hl.trans hls.symm⟩)
      have hnone : ¬ ∃ e' ∈ es, e'.1 = k ∧ e'.2.literals = ls := by
        intro h
        obtain ⟨e', he', -, hl⟩ := h
        exact hrest e' he' hl
      subst hls
      rw [or_iff_right hnone, and_iff_right hrest, AList.lookup_insert, Option.some.injEq]
      constructor
      · intro hk
        exact .inl ⟨e, List.mem_cons_self, hk, rfl⟩
      · intro h
        rcases h with ⟨e', he', hk, hl⟩ | ⟨hall, -⟩
        · rcases List.mem_cons.1 he' with rfl | he'
          · exact hk
          · exact absurd hl (hrest e' he')
        · exact absurd rfl (hall e List.mem_cons_self)
    · have hne : ls ≠ e.2.literals := fun h => hls h.symm
      simp [AList.lookup_insert_ne hne, hls]

theorem Distinct.exact_index (h : S.Distinct) : Exact S.index S := by
  have hes : (S.entries.map (·.2.literals)).Nodup := by
    rw [Distinct, ← map_snd_entries, List.map_map] at h
    exact h
  intro ls k
  rw [index, lookup_foldl_insert hes]
  simp [mem_entries]

theorem Exact.distinct (h : Exact I S) : S.Distinct := by
  rw [distinct_iff]
  intro k k' c d hc hd hl
  have hk := (h c.literals k).2 ⟨c, hc, rfl⟩
  have hk' := (h c.literals k').2 ⟨d, hd, hl.symm⟩
  exact Option.some.inj (hk.symm.trans hk')

theorem Exact.lookup (h : Exact I S) (hc : S.get? k = some c) : I.lookup c.literals = some k :=
  (h c.literals k).2 ⟨c, hc, rfl⟩

/-- Without the literals of a clause the index is that of the store without the clause. -/
theorem Exact.erase (h : Exact I S) (hc : S.get? k = some c) :
    Exact (I.erase c.literals) (S.erase k) := by
  intro ls k'
  by_cases hls : ls = c.literals
  · subst hls
    rw [AList.lookup_erase]
    refine iff_of_false nofun ?_
    intro hex
    obtain ⟨d, hd, hl⟩ := hex
    rw [get?_erase] at hd
    split at hd
    · cases hd
    · next hne =>
      have hk' := (h c.literals k').2 ⟨d, hd, hl⟩
      rw [h.lookup hc] at hk'
      exact hne (Option.some.inj hk').symm
  · rw [AList.lookup_erase_ne hls, h]
    simp only [get?_erase]
    refine exists_congr fun d => and_congr_left fun hl => ?_
    split
    · next hk =>
      refine iff_of_false (fun hd => ?_) nofun
      rw [hk, hc] at hd
      cases hd
      exact hls hl.symm
    · rfl

/-- The index keeps up with a clause that is changed to one that is not there. -/
theorem Exact.modify (h : Exact I S) (hc : S.get? k = some c)
    (hnew : (I.erase c.literals).lookup d.literals = none) :
    Exact ((I.erase c.literals).insert d.literals k) (S.modify k fun _ => d) := by
  intro ls k'
  have herase := h.erase hc
  have hget : ∀ k', (S.modify k fun _ => d).get? k' =
      if k' = k then some d else (S.erase k).get? k' := by
    intro k'
    rw [get?_modify, get?_erase, hc]
    split <;> rfl
  simp only [hget]
  by_cases hls : ls = d.literals
  · subst hls
    rw [AList.lookup_insert, Option.some.injEq]
    constructor
    · intro hk
      exact ⟨d, if_pos hk.symm, rfl⟩
    · intro hex
      obtain ⟨e, he, hl⟩ := hex
      split at he
      · next hk => exact hk.symm
      · have hk' := (herase d.literals k').2 ⟨e, he, hl⟩
        rw [hnew] at hk'
        cases hk'
  · rw [AList.lookup_insert_ne hls, herase]
    refine exists_congr fun e => and_congr_left fun hl => ?_
    split
    · next hk =>
      refine iff_of_false (fun he => ?_) (fun he => ?_)
      · rw [hk, get?_erase, if_pos rfl] at he
        cases he
      · cases he
        exact hls hl.symm
    · rfl

/-- What the index is asked is whether some other clause has the literals. -/
theorem Exact.isSome_lookup (h : Exact I S) (hc : S.get? k = some c)
    (hd : d.literals ≠ c.literals) :
    ((I.erase c.literals).lookup d.literals).isSome = Wave.hasOther S k d := by
  rw [AList.lookup_erase_ne hd, Bool.eq_iff_iff, Option.isSome_iff_exists, Wave.hasOther,
    List.any_eq_true]
  constructor
  · intro hex
    obtain ⟨k', hk'⟩ := hex
    obtain ⟨e, he, hl⟩ := (h d.literals k').1 hk'
    refine ⟨(k', e), mem_entries.2 he, ?_⟩
    have hne : k' ≠ k := by
      intro hk
      rw [hk, hc] at he
      cases he
      exact hd hl.symm
    simp [hne, Clause.ext_literals, hl]
  · intro hex
    obtain ⟨⟨k', e⟩, he, hsame⟩ := hex
    rw [Bool.and_eq_true] at hsame
    exact ⟨k', (h d.literals k').2 ⟨e, mem_entries.1 he, Clause.ext_literals.1 hsame.2⟩⟩

namespace Wave

/-- A visit does the same with an index, and leaves the index up to date. -/
theorem visitIndexed_spec (h : Exact I w.store) (l : Literal) (k : ClauseKey) :
    (visitIndexed l (w, I) k).1 = visit l w k ∧
      Exact (visitIndexed l (w, I) k).2 (visit l w k).store := by
  unfold visitIndexed visit
  dsimp only
  cases hc : w.store.get? k with
  | none => exact ⟨rfl, h⟩
  | some c =>
    dsimp only
    by_cases hl : c.contains l = true
    · simp only [if_pos hl, true_and]
      exact h.erase hc
    · simp only [if_neg hl]
      by_cases hany : c.literals.any (·.isComplement l) = true
      · simp only [if_pos hany, store_noteShortened]
        have hne : (c.without (·.isComplement l)).unmark.literals ≠ c.literals := by
          intro heq
          obtain ⟨m, hm, hcomp⟩ := List.any_eq_true.1 hany
          rw [← heq, Clause.literals_unmark, Clause.literals_without, List.mem_filter, hcomp] at hm
          exact Bool.false_ne_true hm.2
        have hlookup := h.isSome_lookup hc hne
        generalize (c.without (·.isComplement l)).unmark = d at hne hlookup
        rw [hlookup]
        cases hother : hasOther w.store k d with
        | true => exact ⟨rfl, h.erase hc⟩
        | false =>
          rw [hother, Option.isSome_eq_false_iff, Option.isNone_iff_eq_none] at hlookup
          exact ⟨rfl, h.modify hc hlookup⟩
      · simp only [if_neg hany, true_and]
        exact h

theorem foldl_visitIndexed_spec (h : Exact I w.store) (l : Literal) (ks : List ClauseKey) :
    (ks.foldl (visitIndexed l) (w, I)).1 = ks.foldl (visit l) w ∧
      Exact (ks.foldl (visitIndexed l) (w, I)).2 (ks.foldl (visit l) w).store := by
  induction ks generalizing w I with
  | nil => exact ⟨rfl, h⟩
  | cons k ks ih =>
    obtain ⟨hwave, hexact⟩ := visitIndexed_spec h l k
    rw [List.foldl_cons, List.foldl_cons]
    generalize visitIndexed l (w, I) k = s at hwave hexact
    obtain ⟨w', I'⟩ := s
    dsimp only at hwave hexact
    subst hwave
    exact ih hexact

theorem passIndexed_spec (h : Exact I w.store) (l : Literal) :
    (passIndexed (w, I) l).1 = w.pass l ∧ Exact (passIndexed (w, I) l).2 (w.pass l).store :=
  foldl_visitIndexed_spec h l _

theorem runIndexed_spec (h : Exact I w.store) (fuel : Nat) :
    (runIndexed fuel (w, I)).1 = run fuel w ∧
      Exact (runIndexed fuel (w, I)).2 (run fuel w).store := by
  induction fuel generalizing w I with
  | zero => exact ⟨rfl, h⟩
  | succ fuel ih =>
    rw [runIndexed, run]
    cases hq : w.queue with
    | nil => exact ⟨rfl, h⟩
    | cons l rest =>
      dsimp only
      have hpass := passIndexed_spec (w := { w with queue := rest }) h l
      obtain ⟨hwave, hexact⟩ := hpass
      generalize passIndexed ({ w with queue := rest }, I) l = s at hwave hexact
      obtain ⟨w', I'⟩ := s
      dsimp only at hwave hexact
      subst hwave
      exact ih hexact

end Wave

/-- Where no two clauses have the same literals, the index never tells anything else than the
store. -/
theorem Distinct.propagateIndexed_eq (h : S.Distinct) (l : Literal) :
    S.propagateIndexed l = S.propagate l := by
  have hrun := Wave.runIndexed_spec (w := { store := S, queue := [l] }) h.exact_index (S.size + 1)
  rw [propagateIndexed, propagate, ← hrun.1]

end Acquisition.ClauseStore
