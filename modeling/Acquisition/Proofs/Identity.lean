import Acquisition.Proofs.Extension

/-!
# The place of a constraint

In an arena that came about by registration a constraint and its negation stand beside each
other, and no two places hold the same constraint. The term of a disjunction lists the terms
of its members, of which there is never just one.
-/
namespace Acquisition

open Checked IndexSet

namespace Arena

/-- The negations of some constraints. -/
def twins (ms : IndexSet) : IndexSet := .ofList (ms.toList.map twin)

theorem mem_twins {ms : IndexSet} {c : ConstraintId} : c ∈ twins ms ↔ twin c ∈ ms := by
  rw [twins, mem_ofList, List.mem_map]
  constructor
  · rintro ⟨d, hd, rfl⟩
    rw [twin_twin]
    exact mem_toList'.1 hd
  · intro hc
    exact ⟨twin c, mem_toList'.2 hc, twin_twin c⟩

theorem twins_twins (ms : IndexSet) : twins (twins ms) = ms := by
  apply ext_mem
  intro c
  rw [mem_twins, mem_twins, twin_twin]

theorem twin_injective : Function.Injective twin := Function.LeftInverse.injective twin_twin

theorem toFinset_twins (ms : IndexSet) : (twins ms).toFinset = ms.toFinset.image twin := by
  apply Finset.ext
  intro c
  rw [mem_toFinset, mem_twins, Finset.mem_image]
  constructor
  · intro hc
    exact ⟨twin c, mem_toFinset.2 hc, twin_twin c⟩
  · rintro ⟨d, hd, rfl⟩
    rw [twin_twin]
    exact mem_toFinset.1 hd

theorem size_twins (ms : IndexSet) : (twins ms).size = ms.size := by
  rw [← card_toFinset, ← card_toFinset, toFinset_twins,
    Finset.card_image_of_injective _ twin_injective]

theorem eq_twins_of_negations {A : Arena} {ms dual : IndexSet} (h : A.negations ms = .ok dual) :
    dual = twins ms := by
  apply ext_mem
  intro c
  rw [mem_negations h, mem_twins]
  constructor
  · rintro ⟨d, hd, rfl⟩
    rwa [twin_twin]
  · intro hc
    exact ⟨twin c, hc, (twin_twin c).symm⟩

end Arena

/-- The negation of an entry, with disjunctions and conjunctions exchanged. -/
def Entry.opposite : Entry → Entry
  | .atomic p => .atomic p.negate
  | .disjunction ms => .conjunction (Arena.twins ms)
  | .conjunction ms => .disjunction (Arena.twins ms)

namespace Entry

theorem opposite_opposite (e : Entry) : e.opposite.opposite = e := by
  cases e with
  | atomic p => rw [opposite, opposite, Predicate.negate_negate]
  | disjunction ms => rw [opposite, opposite, Arena.twins_twins]
  | conjunction ms => rw [opposite, opposite, Arena.twins_twins]

theorem shape_opposite (e : Entry) : e.opposite.shape = e.shape.opposite := by
  cases e with
  | atomic p => rw [opposite, shape, shape, opposite, Predicate.shape_negate]
  | disjunction ms => rfl
  | conjunction ms => rfl

theorem shape_opposite_ne (e : Entry) : e.opposite.shape ≠ e.shape := by
  cases e with
  | atomic p =>
    cases p with
    | unary v op k w => simp [opposite, shape, Predicate.negate, Predicate.shape,
        Comparison.complement_ne]
    | binary x y op w => simp [opposite, shape, Predicate.negate, Predicate.shape,
        Comparison.complement_ne]
    | sum vs op b => simp [opposite, shape, Predicate.negate, Predicate.shape,
        Comparison.complement_ne]
  | disjunction ms => simp [opposite, shape]
  | conjunction ms => simp [opposite, shape]

end Entry

namespace Arena

variable {A B : Arena} {r r' : Registration}

theorem find?_eq_none {e : Entry} (h : A.find? e = none) {c : ConstraintId}
    (hc : A.places[c]? = some r) : r.entry.shape ≠ e.shape := by
  intro hshape
  have hnone := Array.findIdx?_eq_none_iff.1 h r (Array.mem_of_getElem? hc)
  rw [(Entry.same_iff _ _).2 hshape] at hnone
  cases hnone

/-- Constraints stand beside their negations, each at one place only. -/
structure Distinct (A : Arena) : Prop where
  even : A.size % 2 = 0
  opposed : ∀ (c : ConstraintId) r, A.places[c]? = some r →
    ∃ r', A.places[twin c]? = some r' ∧ r'.entry.shape = r.entry.opposite.shape
  unique : ∀ (c d : ConstraintId) r r', A.places[c]? = some r → A.places[d]? = some r' →
    r.entry.shape = r'.entry.shape → c = d

/-- Where a constraint is new, so is its negation. -/
theorem Distinct.fresh (hA : A.Distinct) {e : Entry} (h : A.find? e = none) {c : ConstraintId}
    (hc : A.places[c]? = some r) :
    r.entry.shape ≠ e.shape ∧ r.entry.shape ≠ e.opposite.shape := by
  refine ⟨find?_eq_none h hc, fun hshape => ?_⟩
  have htwin := hA.opposed c r hc
  rcases htwin with ⟨q, hq, hopposed⟩
  apply find?_eq_none h hq
  rw [hopposed, Entry.shape_opposite, hshape, ← Entry.shape_opposite, Entry.opposite_opposite]

theorem Distinct.register (hA : A.Distinct) (r r' : Registration)
    (hnew : A.find? r.entry = none) (hr' : r'.entry.shape = r.entry.opposite.shape) :
    (A.register r r').2.Distinct where
  even := even_register hA.even r r'
  opposed := by
    apply Facing.register hA.opposed hA.even hr'
    rw [Entry.shape_opposite, hr', ← Entry.shape_opposite, Entry.opposite_opposite]
  unique := by
    intro c d q p hc hd hshape
    have hfresh : ∀ (c : ConstraintId) q, A.places[c]? = some q →
        q.entry.shape ≠ r.entry.shape ∧ q.entry.shape ≠ r'.entry.shape := by
      intro c q hc
      rw [hr']
      exact hA.fresh hnew hc
    have hne : r'.entry.shape ≠ r.entry.shape := by
      rw [hr']
      exact r.entry.shape_opposite_ne
    rcases places_register.1 hc with hc | ⟨rfl, hq⟩ | ⟨rfl, hq⟩ <;>
      rcases places_register.1 hd with hd | ⟨rfl, hp⟩ | ⟨rfl, hp⟩ <;>
      (try subst q) <;> (try subst p)
    · exact hA.unique c d q p hc hd hshape
    · exact absurd hshape (hfresh c q hc).1
    · exact absurd hshape (hfresh c q hc).2
    · exact absurd hshape.symm (hfresh d p hd).1
    · rfl
    · exact absurd hshape.symm hne
    · exact absurd hshape.symm (hfresh d p hd).2
    · exact absurd hshape hne
    · rfl

/-- A disjunction has no single member, its term lists those of its members, and other
constraints have no term of this form. -/
structure Unfolds (A : Arena) (r : Registration) : Prop where
  several : ∀ ms, r.entry = .disjunction ms → ms.size ≠ 1
  members : ∀ ms, r.entry = .disjunction ms →
    ∃ rs, ms.toList.mapM A.place = .ok rs ∧ r.term = .any (rs.map (·.term))
  plain : (∀ ms, r.entry ≠ .disjunction ms) → ∀ ts, r.term ≠ .any ts

theorem Extends.mapM_place (h : A.Extends B) {cs : List ConstraintId} {rs : List Registration}
    (hrs : cs.mapM A.place = .ok rs) : cs.mapM B.place = .ok rs := by
  rw [mapM_eq_ok] at hrs ⊢
  exact hrs.imp fun c r hc => place_eq_ok.2 (h c r (place_eq_ok.1 hc))

theorem Unfolds.extend (h : A.Extends B) (hr : A.Unfolds r) : B.Unfolds r where
  several := hr.several
  members := by
    intro ms he
    rcases hr.members ms he with ⟨rs, hrs, hterm⟩
    exact ⟨rs, h.mapM_place hrs, hterm⟩
  plain := hr.plain

theorem unfolds_register (hA : ∀ (c : ConstraintId) q, A.places[c]? = some q → A.Unfolds q)
    (hr : A.Unfolds r) (hr' : A.Unfolds r') :
    ∀ (c : ConstraintId) q, (A.register r r').2.places[c]? = some q →
      (A.register r r').2.Unfolds q := by
  intro c q hc
  apply Unfolds.extend (extends_register A r r')
  rcases places_register.1 hc with hc | ⟨-, hq⟩ | ⟨-, hq⟩
  · exact hA c q hc
  · exact hq ▸ hr
  · exact hq ▸ hr'

theorem unfolds_atomic (A : Arena) (p : Predicate) : A.Unfolds (.atomic p) := ⟨nofun, nofun, nofun⟩

theorem unfolds_conjunction (A : Arena) (ms : IndexSet) (rs : List Registration) :
    A.Unfolds (.conjunction ms rs) := ⟨nofun, nofun, nofun⟩

theorem unfolds_disjunction {ms : IndexSet} {rs : List Registration} (hsize : ms.size ≠ 1)
    (hrs : ms.toList.mapM A.place = .ok rs) : A.Unfolds (.disjunction ms rs) where
  several := by
    intro ms' he
    cases he
    exact hsize
  members := by
    intro ms' he
    cases he
    exact ⟨rs, hrs, rfl⟩
  plain := by
    intro he
    exact absurd rfl (he ms)

theorem size_ne_one_of_only {ms : IndexSet} (h : only? ms = none) : ms.size ≠ 1 := by
  intro hsize
  have hlist := List.length_eq_one_iff.1 hsize
  rcases hlist with ⟨c, hc⟩
  rw [only?, hc] at h
  cases h

/-- What is stored side by side has opposite entries. -/
theorem Pairs.opposite (h : A.Pairs r r') : r'.entry = r.entry.opposite := by
  cases h with
  | atomic p => rfl
  | disjunction _ hdual _ _ => exact congrArg Entry.conjunction (eq_twins_of_negations hdual)
  | conjunction _ hdual _ _ => exact congrArg Entry.disjunction (eq_twins_of_negations hdual)

theorem Built.distinct (h : A.Built) : A.Distinct := by
  apply h.rule
  · exact ⟨rfl, fun c r hc => by simp [Arena.empty] at hc,
      fun c d r r' hc => by simp [Arena.empty] at hc⟩
  · intro A r r' _ hA hfind hpairs
    exact hA.register r r' hfind (congrArg Entry.shape hpairs.opposite)

theorem Built.unfolds (h : A.Built) :
    ∀ (c : ConstraintId) r, A.places[c]? = some r → A.Unfolds r := by
  apply h.rule
  · exact fun c r hc => by simp [Arena.empty] at hc
  · intro A r r' _ hA _ hpairs
    cases hpairs with
    | atomic p => exact unfolds_register hA (unfolds_atomic A p) (unfolds_atomic A p.negate)
    | @disjunction ms dual rs rs' honly _ hrs _ =>
      have hsize := size_ne_one_of_only honly
      exact unfolds_register hA (unfolds_disjunction hsize hrs) (unfolds_conjunction A dual rs')
    | @conjunction ms dual rs rs' honly hdual _ hrs' =>
      have hsize : dual.size ≠ 1 := by
        rw [eq_twins_of_negations hdual, size_twins]
        exact size_ne_one_of_only honly
      exact unfolds_register hA (unfolds_conjunction A ms rs) (unfolds_disjunction hsize hrs')

/-- Constraints that stand in the arena have negations there. -/
theorem Built.exists_duals (hA : A.Built) {ms : IndexSet} (hms : ∀ d ∈ ms, A.Registered d) :
    ∃ dual rs rs', A.negations ms = .ok dual ∧ ms.toList.mapM A.place = .ok rs ∧
      dual.toList.mapM A.place = .ok rs' := by
  have hnegations : ∃ ds, ms.toList.mapM A.negation = .ok ds := by
    apply exists_mapM
    intro d hd
    exact ⟨twin d, (hms d (mem_toList'.1 hd)).negation⟩
  obtain ⟨ds, hds⟩ := hnegations
  have hdual : A.negations ms = .ok (.ofList ds) := map_eq_ok.2 ⟨ds, hds, rfl⟩
  have hplaces : ∀ s : IndexSet, (∀ d ∈ s, A.Registered d) →
      ∃ rs, s.toList.mapM A.place = .ok rs := by
    intro s hs
    apply exists_mapM
    intro d hd
    obtain ⟨r, hr⟩ := hs d (mem_toList'.1 hd)
    exact ⟨r, place_eq_ok.2 hr⟩
  have hduals : ∀ d ∈ ofList ds, A.Registered d := by
    intro d hd
    obtain ⟨e, he, rfl⟩ := (mem_negations hdual).1 hd
    exact hA.paired.registered_twin (hms e he)
  obtain ⟨rs, hrs⟩ := hplaces ms hms
  obtain ⟨rs', hrs'⟩ := hplaces (ofList ds) hduals
  exact ⟨ofList ds, rs, rs', hdual, hrs, hrs'⟩

theorem disjuncts_eq_ok {c : ConstraintId} {ms : IndexSet}
    (h : A.disjuncts? c = .ok (some ms)) :
    ∃ r, A.places[c]? = some r ∧ r.entry = .disjunction ms := by
  simp only [disjuncts?, entry, bind_eq_ok, map_eq_ok, place_eq_ok] at h
  obtain ⟨e, ⟨r, hr, rfl⟩, h⟩ := h
  split at h
  · next he =>
    cases h
    exact ⟨r, hr, he⟩
  · cases h

/-- A disjunction is known by its members. -/
theorem Built.eq_of_disjuncts (hA : A.Built) {c d : ConstraintId} {ms : IndexSet}
    (hc : A.disjuncts? c = .ok (some ms)) (hd : A.disjuncts? d = .ok (some ms)) : c = d := by
  obtain ⟨r, hr, he⟩ := disjuncts_eq_ok hc
  obtain ⟨r', hr', he'⟩ := disjuncts_eq_ok hd
  exact hA.distinct.unique c d r r' hr hr' (by rw [he, he'])

end Arena

end Acquisition
