import Acquisition.Constraint.Arena
import Acquisition.Proofs.Meaning
import Acquisition.Proofs.Results

/-!
# Constraints and their negations

In an arena that came about by registration, the negation of a constraint has the
same variables, and it holds exactly where the constraint fails. Disjunctions and
conjunctions are no exception, because the members of the one are the negations
of the members of the other.
-/
namespace Acquisition.Arena

open Checked IndexSet

/-- The arenas that come about by registration. -/
inductive Built : Arena → Prop
  | empty : Built .empty
  | add {A : Arena} (p : Predicate) : Built A → Built (A.add p).2
  | disjunction {A A' : Arena} {members : IndexSet} {c : ConstraintId} :
      Built A → A.disjunction members = .ok (c, A') → Built A'
  | conjunction {A A' : Arena} {members : IndexSet} {c : ConstraintId} :
      Built A → A.conjunction members = .ok (c, A') → Built A'

/-- The only member of a disjunction or conjunction of one constraint. -/
def single? (e : Entry) : Option ConstraintId := e.members?.bind only?

/-- The place of a constraint that is registered if need be. -/
def request (A : Arena) : Entry → Checked (ConstraintId × Arena)
  | .atomic p => .ok (A.add p)
  | .disjunction members => A.disjunction members
  | .conjunction members => A.conjunction members

/-- The constraints that are stored side by side. -/
inductive Pairs (A : Arena) : Registration → Registration → Prop
  | atomic (p : Predicate) : A.Pairs (.atomic p) (.atomic p.negate)
  | disjunction {members dual : IndexSet} {rs rs' : List Registration} :
      only? members = none → A.negations members = .ok dual →
      members.toList.mapM A.place = .ok rs → dual.toList.mapM A.place = .ok rs' →
      A.Pairs (.disjunction members rs) (.conjunction dual rs')
  | conjunction {members dual : IndexSet} {rs rs' : List Registration} :
      only? members = none → A.negations members = .ok dual →
      members.toList.mapM A.place = .ok rs → dual.toList.mapM A.place = .ok rs' →
      A.Pairs (.conjunction members rs) (.disjunction dual rs')

/-- What becomes of an arena when a constraint is to be registered: it is the only member, it
is found, or it is stored with its negation. -/
inductive Serves (A : Arena) (e : Entry) : ConstraintId → Arena → Prop
  | only {c : ConstraintId} : single? e = some c → A.Serves e c A
  | found {c : ConstraintId} : single? e = none → A.find? e = some c → A.Serves e c A
  | new {r r' : Registration} : single? e = none → A.find? e = none → r.entry = e →
      A.Pairs r r' → A.Serves e A.size (A.register r r').2

theorem serves_of_request {A B : Arena} {e : Entry} {c : ConstraintId}
    (h : A.request e = .ok (c, B)) : A.Serves e c B := by
  cases e with
  | atomic p =>
    simp only [request, Arena.add] at h
    split at h
    · next hfind =>
      cases h
      exact .found rfl hfind
    · next hfind =>
      cases h
      exact .new rfl hfind rfl (.atomic p)
  | disjunction members =>
    simp only [request, Arena.disjunction] at h
    split at h
    · next honly =>
      cases h
      exact .only honly
    · next honly hfind =>
      cases h
      exact .found honly hfind
    · next honly hfind =>
      simp only [bind_eq_ok, pure_eq_ok] at h
      obtain ⟨dual, hdual, rs, hrs, rs', hrs', h⟩ := h
      cases h
      exact .new honly hfind rfl (.disjunction honly hdual hrs hrs')
  | conjunction members =>
    simp only [request, Arena.conjunction] at h
    split at h
    · next honly =>
      cases h
      exact .only honly
    · next honly hfind =>
      cases h
      exact .found honly hfind
    · next honly hfind =>
      simp only [bind_eq_ok, pure_eq_ok] at h
      obtain ⟨dual, hdual, rs, hrs, rs', hrs', h⟩ := h
      cases h
      exact .new honly hfind rfl (.conjunction honly hdual hrs hrs')

/-- What holds of the empty arena, and after each pair that is stored, holds of every arena
that comes about by registration. -/
theorem Built.rule {I : Arena → Prop} {A : Arena} (hA : A.Built) (hempty : I .empty)
    (hregister : ∀ A r r', A.Built → I A → A.find? r.entry = none → A.Pairs r r' →
      I (A.register r r').2) : I A := by
  have hserves : ∀ {A B e c}, A.Built → I A → A.Serves e c B → I B := by
    intro A B e c hA hI hserves
    cases hserves with
    | only _ => exact hI
    | found _ _ => exact hI
    | new _ hfind he hpairs => exact hregister A _ _ hA hI (he ▸ hfind) hpairs
  induction hA with
  | empty => exact hempty
  | @add A p hA ih => exact hserves hA ih (serves_of_request (e := .atomic p) rfl)
  | @disjunction A B members c hA h ih =>
    exact hserves hA ih (serves_of_request (e := .disjunction members) h)
  | @conjunction A B members c hA h ih =>
    exact hserves hA ih (serves_of_request (e := .conjunction members) h)

/-- The identifier was handed out by the arena. -/
def Registered (A : Arena) (c : ConstraintId) : Prop := ∃ r, A.places[c]? = some r

/-- Whether a constraint holds on a valuation. An identifier that was never handed
out holds nowhere. -/
def Holds (A : Arena) (f : Valuation) (c : ConstraintId) : Prop :=
  ∃ t, A.term c = .ok t ∧ t.Holds f

/-- The variables of a constraint. -/
def Mentions (A : Arena) (c : ConstraintId) (v : Var) : Prop :=
  ∃ t, A.term c = .ok t ∧ v ∈ t.scope

theorem place_eq_ok {A : Arena} {c : ConstraintId} {r : Registration} :
    A.place c = .ok r ↔ A.places[c]? = some r := by
  unfold place
  cases A.places[c]? <;> simp

theorem term_eq_ok {A : Arena} {c : ConstraintId} {t : Term} :
    A.term c = .ok t ↔ ∃ r, A.places[c]? = some r ∧ r.term = t := by
  simp only [term, map_eq_ok, place_eq_ok]

theorem holds_of_place {A : Arena} {c : ConstraintId} {r : Registration} {f : Valuation}
    (h : A.places[c]? = some r) : A.Holds f c ↔ r.term.Holds f := by
  simp [Holds, term_eq_ok, h]

theorem mentions_of_place {A : Arena} {c : ConstraintId} {r : Registration} {v : Var}
    (h : A.places[c]? = some r) : A.Mentions c v ↔ v ∈ r.term.scope := by
  simp [Mentions, term_eq_ok, h]

/-- What a registration adds is the constraint at the end and its negation after it. -/
theorem places_register {A : Arena} {r r' q : Registration} {c : ConstraintId} :
    (A.register r r').2.places[c]? = some q ↔
      A.places[c]? = some q ∨ c = A.size ∧ q = r ∨ c = A.size + 1 ∧ q = r' := by
  have hsize : A.size = A.places.size := rfl
  simp only [register, Array.getElem?_push, Array.size_push]
  by_cases hlast : c = A.places.size + 1
  · simp [hlast, hsize, eq_comm]
  · by_cases hnext : c = A.places.size
    · simp [hnext, hsize, eq_comm]
    · simp [hlast, hnext, hsize]

theorem even_register {A : Arena} (heven : A.size % 2 = 0) (r r' : Registration) :
    (A.register r r').2.size % 2 = 0 := by
  simp only [Arena.register, size, Array.size_push] at heven ⊢
  omega

/-- Each constraint stands beside one that is related to it. -/
def Facing (A : Arena) (T : Registration → Registration → Prop) : Prop :=
  ∀ (c : ConstraintId) r, A.places[c]? = some r → ∃ r', A.places[twin c]? = some r' ∧ T r r'

theorem Facing.register {A : Arena} {T : Registration → Registration → Prop}
    (hA : A.Facing T) (heven : A.size % 2 = 0) {r r' : Registration} (h : T r r')
    (h' : T r' r) : (A.register r r').2.Facing T := by
  intro c q hc
  rcases places_register.1 hc with hc | ⟨rfl, rfl⟩ | ⟨rfl, rfl⟩
  · obtain ⟨p, hp, hT⟩ := hA c q hc
    exact ⟨p, places_register.2 (.inl hp), hT⟩
  · have htwin : twin A.size = A.size + 1 := by rw [twin, if_pos heven]
    exact ⟨r', places_register.2 (.inr (.inr ⟨htwin, rfl⟩)), h⟩
  · have htwin : twin (A.size + 1) = A.size := by unfold twin; split <;> omega
    exact ⟨r, places_register.2 (.inr (.inl ⟨htwin, rfl⟩)), h'⟩

/-- Two registrations that are each other's negation. -/
structure Complementary (r r' : Registration) : Prop where
  scope : r'.term.scope = r.term.scope
  holds : ∀ f, r'.term.Holds f ↔ ¬ r.term.Holds f

theorem Complementary.symm {r r' : Registration} (h : Complementary r r') :
    Complementary r' r :=
  ⟨h.scope.symm, fun f => by rw [h.holds f, Classical.not_not]⟩

/-- Constraints stand in pairs, each beside its negation. -/
structure Paired (A : Arena) : Prop where
  even : A.size % 2 = 0
  twins : ∀ c r, A.places[c]? = some r → ∃ r', A.places[twin c]? = some r' ∧ Complementary r r'

theorem Paired.register {A : Arena} (hA : A.Paired) {r r' : Registration}
    (h : Complementary r r') : (A.register r r').2.Paired where
  even := even_register hA.even r r'
  twins := Facing.register hA.twins hA.even h h.symm

theorem negation_eq_ok {A : Arena} {c n : ConstraintId} (h : A.negation c = .ok n) :
    n = twin c ∧ A.Registered c := by
  simp only [negation, map_eq_ok, place_eq_ok] at h
  obtain ⟨r, hr, hn⟩ := h
  exact ⟨hn.symm, r, hr⟩

theorem negation_of_place {A : Arena} {c : ConstraintId} {r : Registration}
    (h : A.places[c]? = some r) : A.negation c = .ok (twin c) := by
  rw [negation, place_eq_ok.2 h]
  rfl

theorem Registered.negation {A : Arena} {c : ConstraintId} (h : A.Registered c) :
    A.negation c = .ok (twin c) := negation_of_place h.choose_spec

theorem mem_negations {A : Arena} {members dual : IndexSet} (h : A.negations members = .ok dual)
    {d : ConstraintId} : d ∈ dual ↔ ∃ c ∈ members, d = twin c := by
  rw [negations, map_eq_ok] at h
  obtain ⟨ds, hds, rfl⟩ := h
  rw [mem_ofList, mem_of_mapM hds]
  constructor
  · rintro ⟨c, hc, hd⟩
    exact ⟨c, mem_toList'.1 hc, (negation_eq_ok hd).1⟩
  · rintro ⟨c, hc, rfl⟩
    obtain ⟨d, -, hd⟩ := mapM_ok_of_mem hds (mem_toList'.2 hc)
    exact ⟨c, mem_toList'.2 hc, hd.trans (by rw [(negation_eq_ok hd).1])⟩

/-- The terms of some members, taken together, in terms of the members. -/
theorem someHolds_members {A : Arena} {members : IndexSet} {rs : List Registration}
    (h : members.toList.mapM A.place = .ok rs) (f : Valuation) :
    Term.SomeHolds f (rs.map (·.term)) ↔ ∃ c ∈ members, A.Holds f c := by
  rw [Term.someHolds_iff]
  constructor
  · rintro ⟨t, ht, hf⟩
    obtain ⟨r, hr, rfl⟩ := List.mem_map.1 ht
    obtain ⟨c, hc, hcr⟩ := (mem_of_mapM h).1 hr
    exact ⟨c, mem_toList'.1 hc, (holds_of_place (place_eq_ok.1 hcr)).2 hf⟩
  · rintro ⟨c, hc, hf⟩
    obtain ⟨r, hr, hcr⟩ := mapM_ok_of_mem h (mem_toList'.2 hc)
    exact ⟨r.term, List.mem_map_of_mem hr, (holds_of_place (place_eq_ok.1 hcr)).1 hf⟩

theorem eachHolds_members {A : Arena} {members : IndexSet} {rs : List Registration}
    (h : members.toList.mapM A.place = .ok rs) (f : Valuation) :
    Term.EachHolds f (rs.map (·.term)) ↔ ∀ c ∈ members, A.Holds f c := by
  rw [Term.eachHolds_iff]
  constructor
  · intro hall c hc
    obtain ⟨r, hr, hcr⟩ := mapM_ok_of_mem h (mem_toList'.2 hc)
    exact (holds_of_place (place_eq_ok.1 hcr)).2 (hall r.term (List.mem_map_of_mem hr))
  · intro hall t ht
    obtain ⟨r, hr, rfl⟩ := List.mem_map.1 ht
    obtain ⟨c, hc, hcr⟩ := (mem_of_mapM h).1 hr
    exact (holds_of_place (place_eq_ok.1 hcr)).1 (hall c (mem_toList'.1 hc))

theorem scopes_members {A : Arena} {members : IndexSet} {rs : List Registration}
    (h : members.toList.mapM A.place = .ok rs) {v : Var} :
    v ∈ Term.scopes (rs.map (·.term)) ↔ ∃ c ∈ members, A.Mentions c v := by
  rw [← contains_iff, Term.contains_scopes]
  constructor
  · rintro ⟨t, ht, hv⟩
    obtain ⟨r, hr, rfl⟩ := List.mem_map.1 ht
    obtain ⟨c, hc, hcr⟩ := (mem_of_mapM h).1 hr
    exact ⟨c, mem_toList'.1 hc, (mentions_of_place (place_eq_ok.1 hcr)).2 hv⟩
  · rintro ⟨c, hc, hv⟩
    obtain ⟨r, hr, hcr⟩ := mapM_ok_of_mem h (mem_toList'.2 hc)
    exact ⟨r.term, List.mem_map_of_mem hr, (mentions_of_place (place_eq_ok.1 hcr)).1 hv⟩

theorem Paired.registered_twin {A : Arena} (hA : A.Paired) {c : ConstraintId}
    (h : A.Registered c) : A.Registered (twin c) := by
  obtain ⟨r, hr⟩ := h
  obtain ⟨r', hr', -⟩ := hA.twins c r hr
  exact ⟨r', hr'⟩

theorem Paired.holds_twin {A : Arena} (hA : A.Paired) {c : ConstraintId} (h : A.Registered c)
    (f : Valuation) : A.Holds f (twin c) ↔ ¬ A.Holds f c := by
  obtain ⟨r, h⟩ := h
  obtain ⟨r', hr', hcomp⟩ := hA.twins c r h
  rw [holds_of_place h, holds_of_place hr', hcomp.holds f]

theorem Paired.mentions_twin {A : Arena} (hA : A.Paired) {c : ConstraintId} {v : Var} :
    A.Mentions (twin c) v ↔ A.Mentions c v := by
  have mp : ∀ {c}, A.Mentions c v → A.Mentions (twin c) v := by
    rintro c ⟨t, ht, hv⟩
    obtain ⟨r, hr, rfl⟩ := term_eq_ok.1 ht
    obtain ⟨r', hr', hcomp⟩ := hA.twins c r hr
    exact (mentions_of_place hr').2 (hcomp.scope ▸ hv)
  exact ⟨fun h => twin_twin c ▸ mp h, mp⟩

/-- A disjunction of members and a conjunction of their negations are each other's
negation. -/
theorem Paired.dual {A : Arena} (hA : A.Paired) {members dual : IndexSet}
    {rs rs' : List Registration} (hrs : members.toList.mapM A.place = .ok rs)
    (hdual : A.negations members = .ok dual) (hrs' : dual.toList.mapM A.place = .ok rs') :
    Complementary (.disjunction members rs) (.conjunction dual rs') := by
  have hplace : ∀ c ∈ members, A.Registered c := fun c hc => by
    obtain ⟨r, -, hr⟩ := mapM_ok_of_mem hrs (mem_toList'.2 hc)
    exact ⟨r, place_eq_ok.1 hr⟩
  refine ⟨ext_mem fun v => ?_, fun f => ?_⟩
  · change v ∈ Term.scopes _ ↔ v ∈ Term.scopes _
    rw [scopes_members hrs, scopes_members hrs']
    constructor
    · rintro ⟨d, hd, hv⟩
      obtain ⟨c, hc, rfl⟩ := (mem_negations hdual).1 hd
      exact ⟨c, hc, hA.mentions_twin.1 hv⟩
    · rintro ⟨c, hc, hv⟩
      exact ⟨twin c, (mem_negations hdual).2 ⟨c, hc, rfl⟩, hA.mentions_twin.2 hv⟩
  · change Term.EachHolds f _ ↔ ¬ Term.SomeHolds f _
    rw [eachHolds_members hrs', someHolds_members hrs]
    constructor
    · rintro h ⟨c, hc, hf⟩
      exact (hA.holds_twin (hplace c hc) f).1 (h _ ((mem_negations hdual).2 ⟨c, hc, rfl⟩)) hf
    · intro h d hd
      obtain ⟨c, hc, rfl⟩ := (mem_negations hdual).1 hd
      exact (hA.holds_twin (hplace c hc) f).2 fun hf => h ⟨c, hc, hf⟩

/-- The negations of negations are the members themselves. -/
theorem Paired.negations_negations {A : Arena} {members dual : IndexSet}
    (h : A.negations members = .ok dual) {dual' : IndexSet} (h' : A.negations dual = .ok dual') :
    dual' = members := by
  refine ext_mem fun c => ?_
  rw [mem_negations h']
  constructor
  · rintro ⟨d, hd, rfl⟩
    obtain ⟨b, hb, rfl⟩ := (mem_negations h).1 hd
    rwa [twin_twin]
  · intro hc
    exact ⟨twin c, (mem_negations h).2 ⟨c, hc, rfl⟩, (twin_twin c).symm⟩

/-- What is stored side by side is each other's negation. -/
theorem Paired.complementary {A : Arena} (hA : A.Paired) {r r' : Registration}
    (h : A.Pairs r r') : Complementary r r' := by
  cases h with
  | atomic p =>
    refine ⟨ext_mem fun v => ?_, fun f => Predicate.holds_negate f p⟩
    change v ∈ ofList _ ↔ v ∈ ofList _
    rw [Predicate.vars_negate]
  | disjunction _ hdual hrs hrs' => exact hA.dual hrs hdual hrs'
  | @conjunction members dual rs rs' _ hdual hrs hrs' =>
    -- The pair of the dual is the same pair, with the conjunction as its second.
    have hback : A.negations dual = .ok members := by
      obtain ⟨ds, hds⟩ := exists_mapM A.negation fun d (hd : d ∈ dual.toList) => by
        obtain ⟨r, -, hr⟩ := mapM_ok_of_mem hrs' hd
        exact ⟨twin d, negation_of_place (place_eq_ok.1 hr)⟩
      have hd : A.negations dual = .ok (ofList ds) := by rw [negations, hds]; rfl
      rw [hd, Paired.negations_negations hdual hd]
    exact (hA.dual hrs' hback hrs).symm

theorem Built.paired {A : Arena} (h : A.Built) : A.Paired := by
  apply h.rule
  · exact ⟨rfl, fun c r hc => by simp [Arena.empty] at hc⟩
  · exact fun A r r' _ hA _ hpairs => hA.register (hA.complementary hpairs)

/-! ### Members -/

/-- A disjunction or conjunction means what its members do, which are there before it. -/
structure Spelled (A : Arena) (r : Registration) : Prop where
  registered : ∀ members, r.entry.members? = some members → ∀ d ∈ members, A.Registered d
  disjunction : ∀ members, r.entry = .disjunction members →
    ∀ f, r.term.Holds f ↔ ∃ d ∈ members, A.Holds f d
  conjunction : ∀ members, r.entry = .conjunction members →
    ∀ f, r.term.Holds f ↔ ∀ d ∈ members, A.Holds f d

theorem registered_of_members {A : Arena} {members : IndexSet} {rs : List Registration}
    (h : members.toList.mapM A.place = .ok rs) {d : ConstraintId} (hd : d ∈ members) :
    A.Registered d := by
  obtain ⟨r, -, hr⟩ := mapM_ok_of_mem h (mem_toList'.2 hd)
  exact ⟨r, place_eq_ok.1 hr⟩

theorem spelled_disjunction {A : Arena} {members : IndexSet} {rs : List Registration}
    (h : members.toList.mapM A.place = .ok rs) : A.Spelled (.disjunction members rs) where
  registered := fun ms hms d hd => by
    cases hms
    exact registered_of_members h hd
  disjunction := fun ms hms f => by
    cases hms
    exact someHolds_members h f
  conjunction := nofun

theorem spelled_conjunction {A : Arena} {members : IndexSet} {rs : List Registration}
    (h : members.toList.mapM A.place = .ok rs) : A.Spelled (.conjunction members rs) where
  registered := fun ms hms d hd => by
    cases hms
    exact registered_of_members h hd
  disjunction := nofun
  conjunction := fun ms hms f => by
    cases hms
    exact eachHolds_members h f

theorem spelled_atomic (A : Arena) (p : Predicate) : A.Spelled (.atomic p) := ⟨nofun, nofun, nofun⟩

/-- What is registered later changes nothing of what is there. -/
theorem getElem?_register {A : Arena} {r r' q : Registration} {c : ConstraintId}
    (h : A.places[c]? = some q) : (A.register r r').2.places[c]? = some q :=
  places_register.2 (.inl h)

theorem Spelled.register {A : Arena} {q : Registration} (h : A.Spelled q) (r r' : Registration) :
    (A.register r r').2.Spelled q := by
  have hreg : ∀ d, A.Registered d → (A.register r r').2.Registered d := fun d ⟨p, hp⟩ =>
    ⟨p, getElem?_register hp⟩
  have hholds : ∀ d, A.Registered d → ∀ f,
      (A.register r r').2.Holds f d ↔ A.Holds f d := fun d ⟨p, hp⟩ f => by
    rw [holds_of_place hp, holds_of_place (getElem?_register hp)]
  refine ⟨fun ms hms d hd => hreg d (h.registered ms hms d hd), fun ms hms f => ?_,
    fun ms hms f => ?_⟩
  · rw [h.disjunction ms hms f]
    refine exists_congr fun d => and_congr_right fun hd => (hholds d ?_ f).symm
    exact h.registered ms (by rw [hms]; rfl) d hd
  · rw [h.conjunction ms hms f]
    refine forall₂_congr fun d hd => (hholds d ?_ f).symm
    exact h.registered ms (by rw [hms]; rfl) d hd

theorem spelled_register {A : Arena}
    (hA : ∀ (c : ConstraintId) r, A.places[c]? = some r → A.Spelled r)
    {r r' : Registration} (hr : A.Spelled r) (hr' : A.Spelled r') :
    ∀ (c : ConstraintId) q, (A.register r r').2.places[c]? = some q →
      (A.register r r').2.Spelled q := by
  intro c q hc
  apply Spelled.register
  rcases places_register.1 hc with hc | ⟨-, rfl⟩ | ⟨-, rfl⟩
  · exact hA c q hc
  · exact hr
  · exact hr'

theorem Built.spelled {A : Arena} (h : A.Built) :
    ∀ (c : ConstraintId) r, A.places[c]? = some r → A.Spelled r := by
  apply h.rule
  · exact fun c r hc => by simp [Arena.empty] at hc
  · intro A r r' _ hA _ hpairs
    cases hpairs with
    | atomic p => exact spelled_register hA (spelled_atomic A p) (spelled_atomic A p.negate)
    | disjunction _ _ hrs hrs' =>
      exact spelled_register hA (spelled_disjunction hrs) (spelled_conjunction hrs')
    | conjunction _ _ hrs hrs' =>
      exact spelled_register hA (spelled_conjunction hrs) (spelled_disjunction hrs')

theorem Built.holds_disjunction {A : Arena} (hA : A.Built) {c : ConstraintId} {ms : IndexSet}
    (h : A.disjuncts? c = .ok (some ms)) (f : Valuation) :
    A.Holds f c ↔ ∃ d ∈ ms, A.Holds f d := by
  simp only [disjuncts?, entry, bind_eq_ok, map_eq_ok, place_eq_ok] at h
  obtain ⟨e, ⟨r, hr, rfl⟩, h⟩ := h
  split at h
  · next he =>
    cases h
    rw [holds_of_place hr, (hA.spelled c r hr).disjunction _ he]
  · cases h

theorem Built.holds_conjunction {A : Arena} (hA : A.Built) {c : ConstraintId} {ms : IndexSet}
    (h : A.conjuncts? c = .ok (some ms)) (f : Valuation) :
    A.Holds f c ↔ ∀ d ∈ ms, A.Holds f d := by
  simp only [conjuncts?, entry, bind_eq_ok, map_eq_ok, place_eq_ok] at h
  obtain ⟨e, ⟨r, hr, rfl⟩, h⟩ := h
  split at h
  · next he =>
    cases h
    rw [holds_of_place hr, (hA.spelled c r hr).conjunction _ he]
  · cases h

end Acquisition.Arena
