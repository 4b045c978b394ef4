import Acquisition.Proofs.Complements

/-!
# Arenas that grow

What is registered later leaves what is there alone. So a constraint means the same in
every arena that came about by further registrations, and a disjunction that is registered
holds exactly where one of its members does.
-/
namespace Acquisition.Arena

open Checked IndexSet

/-- Every constraint of the first arena stands at the same place of the second. -/
def Extends (A B : Arena) : Prop :=
  ∀ (c : ConstraintId) r, A.places[c]? = some r → B.places[c]? = some r

theorem Extends.refl (A : Arena) : A.Extends A := fun _ _ h => h

theorem Extends.trans {A B C : Arena} (h : A.Extends B) (h' : B.Extends C) : A.Extends C :=
  fun c r hc => h' c r (h c r hc)

theorem extends_register (A : Arena) (r r' : Registration) : A.Extends (A.register r r').2 :=
  fun _ _ hc => getElem?_register hc

/-- A new constraint stands at the end of the arena, before its negation. -/
theorem getElem?_register_size (A : Arena) (r r' : Registration) :
    (A.register r r').2.places[A.size]? = some r := by
  change ((A.places.push r).push r')[A.places.size]? = some r
  have hne : ¬ A.places.size = (A.places.push r).size := by
    rw [Array.size_push]
    omega
  rw [Array.getElem?_push, if_neg hne, Array.getElem?_push, if_pos rfl]

theorem Extends.registered {A B : Arena} (h : A.Extends B) {c : ConstraintId}
    (hc : A.Registered c) : B.Registered c := by
  obtain ⟨r, hr⟩ := hc
  exact ⟨r, h c r hr⟩

theorem Extends.holds {A B : Arena} (h : A.Extends B) {c : ConstraintId} (hc : A.Registered c)
    (f : Valuation) : B.Holds f c ↔ A.Holds f c := by
  obtain ⟨r, hr⟩ := hc
  rw [holds_of_place hr, holds_of_place (h c r hr)]

theorem Extends.mentions {A B : Arena} (h : A.Extends B) {c : ConstraintId}
    (hc : A.Registered c) {v : Var} : B.Mentions c v ↔ A.Mentions c v := by
  obtain ⟨r, hr⟩ := hc
  rw [mentions_of_place hr, mentions_of_place (h c r hr)]

theorem registered_of_disjuncts {A : Arena} {c : ConstraintId} {ms : Option IndexSet}
    (h : A.disjuncts? c = .ok ms) : A.Registered c := by
  simp only [disjuncts?, entry, bind_eq_ok, map_eq_ok, place_eq_ok] at h
  obtain ⟨e, ⟨r, hr, -⟩, -⟩ := h
  exact ⟨r, hr⟩

theorem Extends.disjuncts {A B : Arena} (h : A.Extends B) {c : ConstraintId} {ms : IndexSet}
    (hc : A.disjuncts? c = .ok (some ms)) : B.disjuncts? c = .ok (some ms) := by
  obtain ⟨r, hr⟩ := registered_of_disjuncts hc
  rw [← hc, disjuncts?, disjuncts?, entry, entry, place_eq_ok.2 hr, place_eq_ok.2 (h c r hr)]

/-- The negation of a constraint fails where it holds, also after further registrations. -/
theorem Extends.holds_negation {A B : Arena} (h : A.Extends B) (hB : B.Built)
    {c n : ConstraintId} (hn : A.negation c = .ok n) (f : Valuation) :
    B.Holds f n ↔ ¬ B.Holds f c := by
  obtain ⟨rfl, hc⟩ := negation_eq_ok hn
  exact hB.paired.holds_twin (h.registered hc) f

theorem negation_of_mem_negations {A : Arena} {members dual : IndexSet}
    (h : A.negations members = .ok dual) {d : ConstraintId} (hd : d ∈ dual) :
    ∃ c ∈ members, A.negation c = .ok d := by
  rw [negations, map_eq_ok] at h
  obtain ⟨ds, hds, rfl⟩ := h
  obtain ⟨c, hc, hn⟩ := (mem_of_mapM hds).1 (mem_ofList.1 hd)
  exact ⟨c, mem_toList'.1 hc, hn⟩

theorem disjuncts_of_place {A : Arena} {c : ConstraintId} {r : Registration} {ms : IndexSet}
    (hr : A.places[c]? = some r) (he : r.entry = .disjunction ms) :
    A.disjuncts? c = .ok (some ms) := by
  have hentry : A.entry c = .ok (.disjunction ms) := by
    rw [entry, place_eq_ok.2 hr, ← he]
    rfl
  rw [disjuncts?, hentry]
  rfl

/-- Where a disjunction is found, its members stand. -/
theorem disjuncts_of_find {A : Arena} {ms : IndexSet} {c : ConstraintId}
    (h : A.find? (.disjunction ms) = some c) : A.disjuncts? c = .ok (some ms) := by
  obtain ⟨hlt, hsame, -⟩ := Array.findIdx?_eq_some_iff_getElem.1 h
  have hentry : A.places[c].entry = .disjunction ms := by
    cases he : A.places[c].entry with
    | atomic p => simp [he, Entry.same] at hsame
    | conjunction s => simp [he, Entry.same] at hsame
    | disjunction s =>
      have hs : s = ms := by simpa [he, Entry.same] using hsame
      rw [hs]
  exact disjuncts_of_place (Array.getElem?_eq_getElem hlt) hentry

theorem toList_of_only {ms : IndexSet} {c : ConstraintId} (h : only? ms = some c) :
    ms.toList = [c] := by
  unfold only? at h
  split at h
  · next d hd =>
    cases h
    exact hd
  · cases h

theorem extends_disjunction {A B : Arena} {ms : IndexSet} {c : ConstraintId}
    (h : A.disjunction ms = .ok (c, B)) : A.Extends B := by
  unfold disjunction at h
  split at h
  · cases h
    exact .refl A
  · cases h
    exact .refl A
  · simp only [bind_eq_ok, pure_eq_ok] at h
    obtain ⟨dual, -, rs, -, rs', -, h⟩ := h
    have hext := extends_register A (.disjunction ms rs) (.conjunction dual rs')
    rwa [h] at hext

/-- A registered disjunction holds where one of its members does, be it new, found in the
arena, or its only member itself. -/
theorem holds_disjunction {A A' B : Arena} {ms : IndexSet} {c : ConstraintId}
    (h : A.disjunction ms = .ok (c, A')) (hA' : A'.Extends B) (hB : B.Built) (f : Valuation) :
    B.Holds f c ↔ ∃ d ∈ ms, B.Holds f d := by
  unfold disjunction at h
  split at h
  · next honly =>
    cases h
    have hms : ∀ d, d ∈ ms ↔ d = c := by
      intro d
      rw [← mem_toList', toList_of_only honly, List.mem_singleton]
    simp only [hms, exists_eq_left]
  · next hfind =>
    cases h
    exact hB.holds_disjunction (hA'.disjuncts (disjuncts_of_find hfind)) f
  · simp only [bind_eq_ok, pure_eq_ok] at h
    obtain ⟨dual, -, rs, -, rs', -, h⟩ := h
    cases h
    have hnew := getElem?_register_size A (.disjunction ms rs) (.conjunction dual rs')
    exact hB.holds_disjunction (hA'.disjuncts (disjuncts_of_place hnew rfl)) f

end Acquisition.Arena
