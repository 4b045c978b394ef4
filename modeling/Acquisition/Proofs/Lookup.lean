import Acquisition.Query
import Acquisition.Proofs.Sets

/-!
# Queries as maps

A list of pairs gives a variable the value that stands last for it. A query is such a list in
which each variable stands once, in increasing order, and so it is known by the values that it
gives.
-/
namespace Acquisition

/-- The value that the pairs give `v` last is `x`. -/
def LastGiven (given : List (Var × Value)) (v : Var) (x : Value) : Prop :=
  ∃ before after, given = before ++ (v, x) :: after ∧ ∀ p ∈ after, v ≠ p.1

namespace Query

variable {given pairs : List (Var × Value)} {v w : Var} {x : Value}

theorem lookup_cons_if (u w : Var) (y : Value) (pairs : List (Var × Value)) :
    List.lookup w ((u, y) :: pairs) = if w = u then some y else pairs.lookup w := by
  by_cases h : w = u
  · subst h
    rw [List.lookup_cons_self, if_pos rfl]
  · rw [List.lookup_cons, beq_false_of_ne h, if_neg h]

theorem lookup_place (v w : Var) (x : Value) (pairs : List (Var × Value)) :
    (place v x pairs).lookup w = if w = v then some x else pairs.lookup w := by
  induction pairs with
  | nil => rw [place, lookup_cons_if]
  | cons p rest ih =>
    obtain ⟨u, y⟩ := p
    rw [place]
    split
    · rw [lookup_cons_if]
    · split
      · next h =>
        subst h
        rw [lookup_cons_if, lookup_cons_if]
        split <;> rfl
      · next h =>
        rw [lookup_cons_if, ih, lookup_cons_if]
        by_cases hw : w = u
        · subst hw
          have hne : ¬ w = v := fun e => h e.symm
          rw [if_pos rfl, if_neg hne, if_pos rfl]
        · rw [if_neg hw, if_neg hw]

/-- A query built from pairs gives a variable the last value given for it. -/
theorem valueOf_ofPairs (given : List (Var × Value)) (v : Var) :
    (ofPairs given).valueOf v = given.reverse.lookup v := by
  have h : ∀ ps : List (Var × Value), (given.foldl (fun ps p => place p.1 p.2 ps) ps).lookup v =
      (given.reverse.lookup v).or (ps.lookup v) := by
    induction given with
    | nil => simp
    | cons p rest ih =>
      intro ps
      rw [List.foldl_cons, ih, lookup_place, List.reverse_cons, List.lookup_append]
      rw [show [p] = [(p.1, p.2)] from rfl, lookup_cons_if]
      cases rest.reverse.lookup v with
      | some y => rfl
      | none =>
        by_cases hv : v = p.1
        · simp [hv]
        · simp [hv]
  exact (h []).trans (by simp)

theorem lookup_eq_some_iff (h : (pairs.map (·.1)).Nodup) :
    pairs.lookup v = some x ↔ (v, x) ∈ pairs := by
  induction pairs with
  | nil => simp
  | cons p rest ih =>
    obtain ⟨w, y⟩ := p
    rw [List.map_cons, List.nodup_cons] at h
    rw [lookup_cons_if, List.mem_cons, Prod.mk.injEq]
    split
    · next hv =>
      subst hv
      have hrest : (v, x) ∉ rest := fun hx => h.1 (List.mem_map.2 ⟨_, hx, rfl⟩)
      simp [hrest, eq_comm]
    · next hv => simp [hv, ih h.2]

theorem lookup_reverse (h : (pairs.map (·.1)).Nodup) (v : Var) :
    pairs.reverse.lookup v = pairs.lookup v := by
  have hreverse : (pairs.reverse.map (·.1)).Nodup := by
    rwa [List.map_reverse, List.nodup_reverse]
  apply Option.ext
  intro x
  rw [lookup_eq_some_iff hreverse, lookup_eq_some_iff h, List.mem_reverse]

theorem lookup_reverse_eq_some : given.reverse.lookup v = some x ↔ LastGiven given v x := by
  rw [List.lookup_eq_some_iff, LastGiven]
  constructor
  · intro h
    obtain ⟨after, before, hgiven, hafter⟩ := h
    refine ⟨before.reverse, after.reverse, ?_, ?_⟩
    · rw [← List.reverse_reverse given, hgiven]
      simp
    · intro p hp
      simpa using hafter p (List.mem_reverse.1 hp)
  · intro h
    obtain ⟨before, after, hgiven, hafter⟩ := h
    refine ⟨after.reverse, before.reverse, ?_, ?_⟩
    · simp [hgiven]
    · intro p hp
      simpa using hafter p (List.mem_reverse.1 hp)

theorem valueOf_ofPairs_eq_some : (ofPairs given).valueOf v = some x ↔ LastGiven given v x := by
  rw [valueOf_ofPairs, lookup_reverse_eq_some]

/-- Some value stands last as soon as there is one. -/
theorem exists_lastGiven : (∃ x, LastGiven given v x) ↔ ∃ x, (v, x) ∈ given := by
  constructor
  · intro h
    obtain ⟨x, before, after, hgiven, -⟩ := h
    exact ⟨x, by simp [hgiven]⟩
  · intro h
    obtain ⟨x, hx⟩ := h
    cases hlookup : given.reverse.lookup v with
    | some y => exact ⟨y, lookup_reverse_eq_some.1 hlookup⟩
    | none =>
      rw [List.lookup_eq_none_iff] at hlookup
      simpa using hlookup (v, x) (List.mem_reverse.2 hx)

end Query

theorem Increasing.nodup {pairs : List (Var × Value)} (h : Increasing pairs) :
    (pairs.map (·.1)).Nodup := List.pairwise_map.2 (h.imp Nat.ne_of_lt)

/-- Pairs in increasing order are known by the values that they give. -/
theorem Increasing.eq_of_lookup {ps qs : List (Var × Value)} (hps : Increasing ps)
    (hqs : Increasing qs) (h : ∀ v, ps.lookup v = qs.lookup v) : ps = qs := by
  apply List.Perm.eq_of_pairwise _ hps hqs
  · rw [List.perm_ext_iff_of_nodup hps.nodup.of_map hqs.nodup.of_map]
    intro p
    rw [← Query.lookup_eq_some_iff hps.nodup, ← Query.lookup_eq_some_iff hqs.nodup, h]
  · intro p q _ _ hpq hqp
    exact absurd hpq (Nat.lt_asymm hqp)

namespace Query

theorem ext_valueOf {q r : Query} (hvalue : ∀ v, q.valueOf v = r.valueOf v)
    (hverdict : q.verdict = r.verdict) : q = r := by
  obtain ⟨ps, hps, b⟩ := q
  obtain ⟨qs, hqs, c⟩ := r
  obtain rfl : ps = qs := hps.eq_of_lookup hqs hvalue
  obtain rfl : b = c := hverdict
  rfl

/-- Pairs in increasing order are those of their query. -/
theorem pairs_ofPairs (h : Increasing given) : (ofPairs given).pairs = given := by
  apply (ofPairs given).increasing.eq_of_lookup h
  intro v
  exact (valueOf_ofPairs given v).trans (lookup_reverse h.nodup v)

/-- Two lists give the same query when they give each variable the same last value. -/
theorem ofPairs_eq_iff {given' : List (Var × Value)} :
    ofPairs given = ofPairs given' ↔ ∀ v x, LastGiven given v x ↔ LastGiven given' v x := by
  constructor
  · intro h v x
    rw [← valueOf_ofPairs_eq_some, h, valueOf_ofPairs_eq_some]
  · intro h
    refine ext_valueOf (fun v => Option.ext fun x => ?_) rfl
    rw [valueOf_ofPairs_eq_some, valueOf_ofPairs_eq_some, h]

end Query

end Acquisition
