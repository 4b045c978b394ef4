import Acquisition.Query.Columns
import Acquisition.Proofs.Lookup
import Acquisition.Proofs.Solutions
import Acquisition.Proofs.Words
import Mathlib.Data.List.Sort

/-!
# Columns keep a query

Sorting keeps the order of the pairs of one variable, and to drop repeats keeps the first pair
of each run. So the columns made from a list of pairs hold, in increasing order, the last pair
given for each variable: they keep the query of the list. Then a value is found by the place of
its variable, because both columns are listed in the order in which the set is visited.
-/
namespace Acquisition

namespace Columns

variable {given ps : List (Var × Value)} {v : Var} {x : Value}

/-! ### The last pair for each variable -/

/-- Pairs of one variable. -/
abbrev sameVar (p q : Var × Value) : Bool := p.1 == q.1

theorem eraseRepsBy_loop {α : Type} (r : α → α → Bool) (a : α) (as acc : List α) :
    List.eraseRepsBy.loop r a as acc = acc.reverse ++ List.eraseRepsBy.loop r a as [] := by
  induction as generalizing a acc with
  | nil => simp [List.eraseRepsBy.loop]
  | cons b bs ih =>
    rw [List.eraseRepsBy.loop, List.eraseRepsBy.loop]
    cases r a b with
    | true => exact ih a acc
    | false =>
      change List.eraseRepsBy.loop r b bs (a :: acc) =
        acc.reverse ++ List.eraseRepsBy.loop r b bs [a]
      rw [ih b (a :: acc), ih b [a]]
      simp

theorem eraseRepsBy_cons_cons (p q : Var × Value) (ps : List (Var × Value)) :
    (p :: q :: ps).eraseRepsBy sameVar =
      if p.1 = q.1 then (p :: ps).eraseRepsBy sameVar
      else p :: (q :: ps).eraseRepsBy sameVar := by
  rw [List.eraseRepsBy, List.eraseRepsBy.loop]
  by_cases h : p.1 = q.1
  · simp [sameVar, h, List.eraseRepsBy]
  · rw [if_neg h, show sameVar p q = false from beq_false_of_ne h]
    exact eraseRepsBy_loop _ q ps [p]

theorem eraseRepsBy_sublist (p : Var × Value) (ps : List (Var × Value)) :
    ((p :: ps).eraseRepsBy sameVar).Sublist (p :: ps) := by
  induction ps generalizing p with
  | nil => simp [List.eraseRepsBy, List.eraseRepsBy.loop]
  | cons q ps ih =>
    rw [eraseRepsBy_cons_cons]
    split
    · exact (ih p).trans (by simp)
    · exact (ih q).cons_cons p

/-- A repeat has no bearing on the value that is found first. -/
theorem lookup_eraseRepsBy (ps : List (Var × Value)) (v : Var) :
    (ps.eraseRepsBy sameVar).lookup v = ps.lookup v := by
  cases ps with
  | nil => rfl
  | cons p ps =>
    induction ps generalizing p with
    | nil => rfl
    | cons q ps ih =>
      rw [eraseRepsBy_cons_cons, Query.lookup_cons_if p.1 v p.2]
      split
      · next h =>
        rw [ih, Query.lookup_cons_if p.1 v p.2, Query.lookup_cons_if q.1 v q.2, ← h]
        split <;> rfl
      · rw [Query.lookup_cons_if p.1 v p.2, ih]

/-- Where no variable is followed by a greater one, each is left once. -/
theorem decreasing_eraseRepsBy (h : ps.Pairwise fun p q => q.1 ≤ p.1) :
    (ps.eraseRepsBy sameVar).Pairwise fun p q => q.1 < p.1 := by
  cases ps with
  | nil => exact .nil
  | cons p ps =>
    induction ps generalizing p with
    | nil => simp [List.eraseRepsBy, List.eraseRepsBy.loop]
    | cons q ps ih =>
      obtain ⟨hp, hrest⟩ := List.pairwise_cons.1 h
      rw [eraseRepsBy_cons_cons]
      split
      · exact ih p (h.sublist (by simp))
      · next hne =>
        refine List.pairwise_cons.2 ⟨fun r hr => ?_, ih q hrest⟩
        have hr' : r ∈ q :: ps := (eraseRepsBy_sublist q ps).subset hr
        have hq : q.1 ≤ p.1 := hp q List.mem_cons_self
        have hlt : q.1 < p.1 := Nat.lt_of_le_of_ne hq (Ne.symm hne)
        rcases List.mem_cons.1 hr' with rfl | hr'
        · exact hlt
        · exact Nat.lt_of_le_of_lt ((List.pairwise_cons.1 hrest).1 r hr') hlt

/-- Whether the variable of one pair is at most that of the other. -/
abbrev byVar (p q : Var × Value) : Bool := p.1 ≤ q.1

theorem byVar_trans (p q r : Var × Value) (h : byVar p q = true) (h' : byVar q r = true) :
    byVar p r = true := by
  simp only [byVar, decide_eq_true_eq] at h h' ⊢
  exact Nat.le_trans h h'

theorem byVar_total (p q : Var × Value) : (byVar p q || byVar q p) = true := by
  simp only [byVar, Bool.or_eq_true, decide_eq_true_eq]
  exact Nat.le_total p.1 q.1

/-- Sorting keeps the pairs of a variable in the order in which they were given. -/
theorem filter_mergeSort (given : List (Var × Value)) (v : Var) :
    (given.mergeSort byVar).filter (·.1 == v) = given.filter (·.1 == v) := by
  have hperm : (given.mergeSort byVar).Perm given := List.mergeSort_perm given byVar
  have hsame : (given.filter (·.1 == v)).Pairwise fun p q => byVar p q = true := by
    apply List.pairwise_of_forall_mem_list
    intro p hp q hq
    have hpv : p.1 = v := by simpa using (List.mem_filter.1 hp).2
    have hqv : q.1 = v := by simpa using (List.mem_filter.1 hq).2
    simp [byVar, hpv, hqv]
  have hsub := List.sublist_mergeSort byVar_trans byVar_total hsame List.filter_sublist
  have hfiltered := hsub.filter (·.1 == v)
  rw [List.filter_filter] at hfiltered
  simp only [Bool.and_self] at hfiltered
  exact (hfiltered.eq_of_length (hperm.filter _).length_eq.symm).symm

theorem lookup_filter (ps : List (Var × Value)) (v : Var) :
    (ps.filter (·.1 == v)).lookup v = ps.lookup v := by
  induction ps with
  | nil => rfl
  | cons p ps ih =>
    rw [List.filter_cons, Query.lookup_cons_if p.1 v p.2]
    by_cases h : v = p.1
    · simp [h, Query.lookup_cons_if p.1 p.1 p.2]
    · simp [h, Ne.symm h, ih]

/-- The pairs that are kept stand in increasing order. -/
theorem increasing_lastByVar (given : List (Var × Value)) : Increasing (lastByVar given) := by
  have hsorted : (given.mergeSort byVar).Pairwise fun p q => p.1 ≤ q.1 :=
    (List.pairwise_mergeSort byVar_trans byVar_total given).imp fun h => by simpa using h
  exact List.pairwise_reverse.2 (decreasing_eraseRepsBy (List.pairwise_reverse.2 hsorted))

/-- They are those that were given last. -/
theorem lookup_lastByVar (given : List (Var × Value)) (v : Var) :
    (lastByVar given).lookup v = given.reverse.lookup v := by
  calc (lastByVar given).lookup v
      = (lastByVar given).reverse.lookup v :=
        (Query.lookup_reverse (increasing_lastByVar given).nodup v).symm
    _ = (given.mergeSort byVar).reverse.lookup v := by
        rw [lastByVar, List.reverse_reverse, lookup_eraseRepsBy]
    _ = ((given.mergeSort byVar).filter (·.1 == v)).reverse.lookup v := by
        rw [← List.filter_reverse, lookup_filter]
    _ = (given.filter (·.1 == v)).reverse.lookup v := by rw [filter_mergeSort]
    _ = given.reverse.lookup v := by rw [← List.filter_reverse, lookup_filter]

/-- The pairs that are kept are those of the query. -/
theorem lastByVar_eq (given : List (Var × Value)) :
    lastByVar given = (Query.ofPairs given).pairs :=
  (increasing_lastByVar given).eq_of_lookup (Query.ofPairs given).increasing fun v =>
    (lookup_lastByVar given v).trans (Query.valueOf_ofPairs given v).symm

/-! ### Places -/

/-- A variable stands in a place when it is the one that is visited there. -/
theorem position?_eq_some {s : Words} {i : Nat} :
    s.position? v = some i ↔ s.toList[i]? = some v := by
  have hnodup : s.toList.Nodup := Words.increasing_toList.imp Nat.ne_of_lt
  have hcontains : s.contains v = true ↔ v ∈ s.toList := Words.mem_toList.symm
  rw [Words.position?]
  by_cases h : s.contains v = true
  · rw [if_pos h, List.findIdx?_eq_some_iff_getElem, List.getElem?_eq_some_iff]
    constructor
    · intro hi
      obtain ⟨hi, hv, -⟩ := hi
      exact ⟨hi, by simpa using hv⟩
    · intro hi
      obtain ⟨hi, hv⟩ := hi
      refine ⟨hi, by simpa using hv, fun j hj hjv => ?_⟩
      have hsame : s.toList[j] = s.toList[i] := by simpa [hv] using hjv
      have hji : j = i := (hnodup.getElem_inj_iff).1 hsame
      omega
  · rw [if_neg h]
    rw [hcontains] at h
    constructor
    · intro hi
      cases hi
    · intro hi
      exact absurd (List.mem_of_getElem? hi) h

theorem valueOf_eq_some {q : Columns} :
    q.valueOf v = some x ↔ (v, x) ∈ q.scope.toList.zip q.values := by
  rw [valueOf, Option.bind_eq_some_iff, List.mem_iff_getElem?]
  simp only [position?_eq_some, List.getElem?_zip_eq_some]

theorem increasing_zip (s : Words) (values : List Value) : Increasing (s.toList.zip values) := by
  rw [Increasing, List.pairwise_iff_getElem]
  intro i j hi hj hij
  simp only [List.getElem_zip]
  exact List.pairwise_iff_getElem.1 Words.increasing_toList i j _ _ hij

theorem pairs_query (q : Columns) : q.query.pairs = q.scope.toList.zip q.values :=
  Query.pairs_ofPairs (increasing_zip q.scope q.values)

/-- The value found by its place is the one that the query gives. -/
theorem valueOf_query (q : Columns) (v : Var) : q.query.valueOf v = q.valueOf v := by
  apply Option.ext
  intro x
  rw [valueOf_eq_some, Query.valueOf, Query.lookup_eq_some_iff q.query.increasing.nodup,
    pairs_query]

theorem valuesFor_query (q : Columns) (vs : List Var) : q.query.valuesFor vs = q.valuesFor vs := by
  rw [Query.valuesFor, valuesFor, funext q.valueOf_query]

theorem valuesFor_eq_some {q : Columns} {vs : List Var} {xs : List Value} :
    q.valuesFor vs = some xs ↔ List.Forall₂ (fun v x => q.valueOf v = some x) vs xs := by
  rw [valuesFor]
  induction vs generalizing xs with
  | nil => simp [eq_comm]
  | cons v vs ih =>
    rw [List.mapM_cons, List.forall₂_cons_left_iff]
    cases hv : q.valueOf v with
    | none => simp
    | some y =>
      simp only [Option.bind_eq_bind, Option.bind_some, Option.bind_eq_some_iff, ih,
        Option.pure_def, Option.some.injEq]
      constructor
      · intro h
        obtain ⟨ys, hys, rfl⟩ := h
        exact ⟨y, ys, rfl, hys, rfl⟩
      · intro h
        obtain ⟨z, ys, rfl, hys, rfl⟩ := h
        exact ⟨ys, hys, rfl⟩

/-- There is one value for each variable. -/
def Aligned (q : Columns) : Prop := q.scope.size = q.values.length

section Aligned

variable {q r : Columns} (hq : q.Aligned)

include hq

theorem Aligned.length_eq : q.scope.toList.length = q.values.length :=
  Words.size_eq.symm.trans hq

/-- The values stand in the order in which the variables are visited. -/
theorem map_valueOf : q.scope.toList.map q.valueOf = q.values.map some := by
  apply List.ext_getElem
  · simp [hq.length_eq]
  · intro i hi hi'
    rw [List.getElem_map, List.getElem_map, valueOf_eq_some, List.mem_iff_getElem?]
    rw [List.length_map] at hi hi'
    exact ⟨i, List.getElem?_zip_eq_some.2
      ⟨List.getElem?_eq_getElem hi, List.getElem?_eq_getElem hi'⟩⟩

/-- The variables are those that have a value. -/
theorem mem_scope_iff : v ∈ q.scope ↔ ∃ x, q.valueOf v = some x := by
  rw [← Words.mem_toList, ← List.map_fst_zip hq.length_eq.le]
  simp only [valueOf_eq_some, List.mem_map, Prod.exists, exists_and_right, exists_eq_right]

/-- Columns are equal when they keep the same query. -/
theorem beq_eq_true_iff (hr : r.Aligned) : (q == r) = true ↔ q.query = r.query := by
  have hquery : q.query = r.query ↔
      q.scope.toList.zip q.values = r.scope.toList.zip r.values ∧ q.verdict = r.verdict := by
    rw [← pairs_query, ← pairs_query]
    constructor
    · intro h
      exact ⟨congrArg Query.pairs h, congrArg Query.verdict h⟩
    · intro h
      exact Query.ext_valueOf (fun v => congrArg (List.lookup v) h.1) h.2
  have hbeq : (q == r) = true ↔
      ((q.scope == r.scope) = true ∧ q.values = r.values) ∧ q.verdict = r.verdict := by
    change (q.scope == r.scope && q.values == r.values && q.verdict == r.verdict) = true ↔ _
    simp only [Bool.and_eq_true, beq_iff_eq]
  rw [hquery, hbeq, Words.beq_eq_true]
  refine and_congr_left fun _ => ?_
  constructor
  · intro h
    have hscope : q.scope.toList = r.scope.toList := by
      apply Words.increasing_toList.eq_of_mem_iff Words.increasing_toList
      intro v
      rw [Words.mem_toList, Words.mem_toList, h.1]
    rw [hscope, h.2]
  · intro h
    have hscope : q.scope.toList = r.scope.toList := by
      have hfst := congrArg (List.map Prod.fst) h
      rwa [List.map_fst_zip hq.length_eq.le, List.map_fst_zip hr.length_eq.le] at hfst
    have hvalues : q.values = r.values := by
      have hsnd := congrArg (List.map Prod.snd) h
      rwa [List.map_snd_zip hq.length_eq.ge, List.map_snd_zip hr.length_eq.ge] at hsnd
    refine ⟨fun v => ?_, hvalues⟩
    rw [← Words.mem_toList, ← Words.mem_toList, hscope]

end Aligned

/-! ### Columns from pairs -/

theorem toList_scope (given : List (Var × Value)) :
    (ofPairs given).scope.toList = (lastByVar given).map (·.1) := by
  have hincreasing : ((lastByVar given).map (·.1)).Pairwise (· < ·) :=
    List.pairwise_map.2 (increasing_lastByVar given)
  apply Words.increasing_toList.eq_of_mem_iff hincreasing
  intro v
  rw [Words.mem_toList, ofPairs, Words.mem_ofList]

theorem aligned_ofPairs (given : List (Var × Value)) : (ofPairs given).Aligned := by
  rw [Aligned, Words.size_eq, toList_scope, ofPairs, List.length_map, List.length_map]

/-- The columns made from pairs keep the query of the pairs. -/
theorem query_ofPairs (given : List (Var × Value)) :
    (ofPairs given).query = Query.ofPairs given := by
  have hzip : (ofPairs given).scope.toList.zip (ofPairs given).values = lastByVar given := by
    rw [toList_scope, ofPairs, List.zip_map', List.map_id']
  apply Query.ext_valueOf
  · intro v
    rw [Query.valueOf, pairs_query, hzip, lastByVar_eq]
    rfl
  · rfl

theorem valueOf_ofPairs : (ofPairs given).valueOf v = some x ↔ LastGiven given v x := by
  rw [← valueOf_query, query_ofPairs, Query.valueOf_ofPairs_eq_some]

/-- The columns are the map that the pairs describe, in which the last pair of a variable
counts. -/
structure Maps (q : Columns) (given : List (Var × Value)) : Prop where
  /-- The variables are those that are mentioned. -/
  mem_scope : ∀ v, v ∈ q.scope ↔ ∃ x, (v, x) ∈ given
  /-- There are as many values as variables. -/
  length_values : q.values.length = q.scope.size
  /-- The variables are visited in increasing order, and the values follow them. -/
  increasing : q.scope.toList.Pairwise (· < ·)
  values : q.scope.toList.map q.valueOf = q.values.map some
  valueOf_some : ∀ v x, q.valueOf v = some x ↔ LastGiven given v x
  valueOf_none : ∀ v, q.valueOf v = none ↔ ∀ x, (v, x) ∉ given
  /-- The values of some variables are listed in the order asked. -/
  valuesFor_some : ∀ vs xs, q.valuesFor vs = some xs ↔ List.Forall₂ (LastGiven given) vs xs

theorem maps_ofPairs (given : List (Var × Value)) : (ofPairs given).Maps given := by
  have hvalue : ∀ v, (∃ x, (ofPairs given).valueOf v = some x) ↔ ∃ x, (v, x) ∈ given := by
    intro v
    simp only [valueOf_ofPairs]
    exact Query.exists_lastGiven
  constructor
  · intro v
    rw [mem_scope_iff (aligned_ofPairs given), hvalue]
  · exact (aligned_ofPairs given).symm
  · exact Words.increasing_toList
  · exact map_valueOf (aligned_ofPairs given)
  · exact fun v x => valueOf_ofPairs
  · intro v
    rw [Option.eq_none_iff_forall_ne_some]
    have hnone := not_congr (hvalue v)
    simpa only [not_exists] using hnone
  · intro vs xs
    rw [valuesFor_eq_some]
    simp only [valueOf_ofPairs]

/-- A query is the map of the pairs it is made from, in any order and with any repeats. Two
lists make equal queries when they give the same last values. A set of variables and as many
values make the query of the variables, in increasing order, with the values. -/
theorem queries_are_maps :
    (∀ given, (ofPairs given).Maps given) ∧
      (∀ given given', (ofPairs given == ofPairs given') = true ↔
        ∀ v x, LastGiven given v x ↔ LastGiven given' v x) ∧
      ∀ scope values, scope.size = values.length →
        ∃ q, ofValues scope values = .ok q ∧ (q == ofPairs (scope.toList.zip values)) = true := by
  refine ⟨maps_ofPairs, fun given given' => ?_, fun scope values h => ?_⟩
  · rw [beq_eq_true_iff (aligned_ofPairs given) (aligned_ofPairs given'), query_ofPairs,
      query_ofPairs, Query.ofPairs_eq_iff]
  · refine ⟨⟨scope, values, none⟩, if_pos h, ?_⟩
    have hq : Aligned ⟨scope, values, none⟩ := h
    rw [beq_eq_true_iff hq (aligned_ofPairs _), query_ofPairs]
    rfl

end Columns

end Acquisition
