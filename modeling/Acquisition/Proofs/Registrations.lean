import Acquisition.Proofs.Identity
import Acquisition.Proofs.Solutions
import Acquisition.Proofs.Weights
import Mathlib.Algebra.BigOperators.Group.List.Basic
import Mathlib.Algebra.Order.BigOperators.Group.Finset
import Mathlib.Logic.Relation
import Mathlib.Tactic.Linarith

/-!
# Registrations keep an arena consistent

Whatever is registered, in whatever order, each constraint has one place, which it keeps, and
its negation stands beside it. What a disjunction or a conjunction is made of was there before.
So everything that goes down from a constraint to its members comes to an end: its value, its
name, its weight, and its variables, which are those of the atomic constraints below it. A
constraint and its negation share their variables and weigh the same.
-/
namespace Acquisition

open Checked IndexSet

theorem Term.masses_eq (ts : List Term) : masses ts = (ts.map mass).sum := by
  induction ts with
  | nil => rw [masses, List.map_nil, List.sum_nil]
  | cons t ts ih => rw [masses, List.map_cons, List.sum_cons, ih]

namespace Arena

variable {A B : Arena} {c d : ConstraintId} {e f : Entry} {ms : IndexSet}
  {r r' : Registration} {rs : List Registration}

/-! ### What is stored -/

/-- A registration is atomic, or it has several members or none, which stand in the arena. -/
inductive Composes (A : Arena) : Registration → Prop
  | atomic (p : Predicate) : A.Composes (.atomic p)
  | disjunction {ms : IndexSet} {rs : List Registration} : only? ms = none →
      ms.toList.mapM A.place = .ok rs → A.Composes (.disjunction ms rs)
  | conjunction {ms : IndexSet} {rs : List Registration} : only? ms = none →
      ms.toList.mapM A.place = .ok rs → A.Composes (.conjunction ms rs)

theorem Composes.extend (h : A.Composes r) (hext : A.Extends B) : B.Composes r := by
  cases h with
  | atomic p => exact .atomic p
  | disjunction honly hrs => exact .disjunction honly (hext.mapM_place hrs)
  | conjunction honly hrs => exact .conjunction honly (hext.mapM_place hrs)

theorem Composes.single (h : A.Composes r) : single? r.entry = none := by
  cases h with
  | atomic p => rfl
  | disjunction honly _ => exact honly
  | conjunction honly _ => exact honly

theorem Composes.registered (h : A.Composes r) (hms : r.entry.members? = some ms) (hd : d ∈ ms) :
    A.Registered d := by
  cases h with
  | atomic p => cases hms
  | disjunction _ hrs =>
    cases hms
    exact registered_of_members hrs hd
  | conjunction _ hrs =>
    cases hms
    exact registered_of_members hrs hd

theorem only_twins (h : only? ms = none) : only? (twins ms) = none := by
  cases honly : only? (twins ms) with
  | none => rfl
  | some c =>
    have hsize := size_ne_one_of_only h
    have hlist := congrArg List.length (toList_of_only honly)
    rw [← size_twins] at hsize
    exact absurd hlist hsize

theorem Pairs.composes (h : A.Pairs r r') : A.Composes r ∧ A.Composes r' := by
  cases h with
  | atomic p => exact ⟨.atomic p, .atomic p.negate⟩
  | disjunction honly hdual hrs hrs' =>
    refine ⟨.disjunction honly hrs, .conjunction ?_ hrs'⟩
    exact eq_twins_of_negations hdual ▸ only_twins honly
  | conjunction honly hdual hrs hrs' =>
    refine ⟨.conjunction honly hrs, .disjunction ?_ hrs'⟩
    exact eq_twins_of_negations hdual ▸ only_twins honly

theorem Registered.lt_size (h : A.Registered c) : c < A.size := by
  obtain ⟨r, hr⟩ := h
  exact (Array.getElem?_eq_some_iff.1 hr).1

/-- What stands at a place is made of what stands at earlier places. -/
theorem Built.composes (hA : A.Built) : ∀ (c : ConstraintId) r, A.places[c]? = some r →
    A.Composes r ∧ ∀ ms, r.entry.members? = some ms → ∀ d ∈ ms, d < c := by
  apply hA.rule
  · intro c r hc
    simp [Arena.empty] at hc
  · intro A r r' _ ih _ hpairs c q hc
    have hext := extends_register A r r'
    have hlt : ∀ q, A.Composes q → ∀ ms, q.entry.members? = some ms → ∀ d ∈ ms, d < A.size :=
      fun q hq ms hms d hd => (hq.registered hms hd).lt_size
    rcases places_register.1 hc with hc | ⟨rfl, rfl⟩ | ⟨rfl, rfl⟩
    · exact ⟨(ih c q hc).1.extend hext, (ih c q hc).2⟩
    · exact ⟨hpairs.composes.1.extend hext, hlt q hpairs.composes.1⟩
    · refine ⟨hpairs.composes.2.extend hext, fun ms hms d hd => ?_⟩
      have hbefore := hlt q hpairs.composes.2 ms hms d hd
      omega

/-! ### What is found -/

theorem entry_eq_ok : A.entry c = .ok e ↔ ∃ r, A.places[c]? = some r ∧ r.entry = e := by
  simp only [entry, map_eq_ok, place_eq_ok]

theorem members_eq_ok : A.members? c = .ok (some ms) ↔
    ∃ r, A.places[c]? = some r ∧ r.entry.members? = some ms := by
  simp only [members?, map_eq_ok, entry_eq_ok]
  constructor
  · rintro ⟨e, ⟨r, hr, rfl⟩, hms⟩
    exact ⟨r, hr, hms⟩
  · rintro ⟨r, hr, hms⟩
    exact ⟨r.entry, ⟨r, hr, rfl⟩, hms⟩

theorem find?_eq_some (h : A.find? e = some c) :
    ∃ r, A.places[c]? = some r ∧ r.entry.shape = e.shape := by
  obtain ⟨hlt, hsame, -⟩ := Array.findIdx?_eq_some_iff_getElem.1 h
  exact ⟨A.places[c], Array.getElem?_eq_getElem hlt, (Entry.same_iff _ _).1 hsame⟩

/-- What stands in the arena is found there. -/
theorem Distinct.find?_eq (hA : A.Distinct) (hc : A.places[c]? = some r)
    (he : e.shape = r.entry.shape) : A.find? e = some c := by
  cases hfind : A.find? e with
  | none => exact absurd he.symm (find?_eq_none hfind hc)
  | some d =>
    obtain ⟨q, hd, hq⟩ := find?_eq_some hfind
    rw [hA.unique d c q r hd hc (hq.trans he)]

theorem single_of_shape (h : f.shape = e.shape) : single? f = single? e := by
  cases f with
  | atomic p => cases e with
    | atomic q => rfl
    | disjunction _ => cases h
    | conjunction _ => cases h
  | disjunction ms => cases e with
    | atomic q => cases h
    | disjunction _ => rw [Entry.disjunction.inj h]
    | conjunction _ => cases h
  | conjunction ms => cases e with
    | atomic q => cases h
    | disjunction _ => cases h
    | conjunction _ => rw [Entry.conjunction.inj h]

theorem request_of_find (hsingle : single? e = none) (hfind : A.find? e = some c) :
    A.request e = .ok (c, A) := by
  cases e with
  | atomic p => rw [request, Arena.add, lookup?, hfind]
  | disjunction ms =>
    have honly : only? ms = none := hsingle
    rw [request, Arena.disjunction, honly, hfind]
  | conjunction ms =>
    have honly : only? ms = none := hsingle
    rw [request, Arena.conjunction, honly, hfind]

theorem request_of_single (h : single? e = some c) : A.request e = .ok (c, A) := by
  cases e with
  | atomic p => cases h
  | disjunction ms =>
    have honly : only? ms = some c := h
    rw [request, Arena.disjunction, honly]
  | conjunction ms =>
    have honly : only? ms = some c := h
    rw [request, Arena.conjunction, honly]

/-- What stands in the arena, be it as a negation, is not stored again. -/
theorem Built.request_stored (hA : A.Built) (hc : A.entry c = .ok e) (hf : f.shape = e.shape) :
    A.request f = .ok (c, A) := by
  obtain ⟨r, hr, rfl⟩ := entry_eq_ok.1 hc
  apply request_of_find
  · rw [single_of_shape hf, (hA.composes c r hr).1.single]
  · exact hA.distinct.find?_eq hr hf

/-! ### What is registered -/

/-- The members, if there are any, were handed out by the arena. -/
def Given (A : Arena) (e : Entry) : Prop :=
  ∀ ms, e.members? = some ms → ∀ d ∈ ms, A.Registered d

theorem Built.exists_request (hA : A.Built) (he : A.Given e) :
    ∃ c B, A.request e = .ok (c, B) := by
  cases hsingle : single? e with
  | some c => exact ⟨c, A, request_of_single hsingle⟩
  | none =>
    cases hfind : A.find? e with
    | some c => exact ⟨c, A, request_of_find hsingle hfind⟩
    | none => cases e with
      | atomic p => exact ⟨_, _, rfl⟩
      | disjunction ms =>
        have honly : only? ms = none := hsingle
        obtain ⟨dual, rs, rs', hdual, hrs, hrs'⟩ := hA.exists_duals (he ms rfl)
        simp only [request, Arena.disjunction, honly, hfind, hdual, hrs, hrs', bind, Except.bind]
        exact ⟨_, _, rfl⟩
      | conjunction ms =>
        have honly : only? ms = none := hsingle
        obtain ⟨dual, rs, rs', hdual, hrs, hrs'⟩ := hA.exists_duals (he ms rfl)
        simp only [request, Arena.conjunction, honly, hfind, hdual, hrs, hrs', bind, Except.bind]
        exact ⟨_, _, rfl⟩

theorem Serves.extends (h : A.Serves e c B) : A.Extends B := by
  cases h with
  | only _ => exact .refl A
  | found _ _ => exact .refl A
  | new _ _ _ _ => exact extends_register A _ _

/-- A constraint that is registered has the place that it is told, unless it is its only
member. -/
theorem Serves.stored (h : A.Serves e c B) :
    single? e = some c ∧ B = A ∨
      single? e = none ∧ ∃ f, B.entry c = .ok f ∧ f.shape = e.shape := by
  cases h with
  | only hsingle => exact .inl ⟨hsingle, rfl⟩
  | found hsingle hfind =>
    obtain ⟨r, hr, hshape⟩ := find?_eq_some hfind
    exact .inr ⟨hsingle, r.entry, entry_eq_ok.2 ⟨r, hr, rfl⟩, hshape⟩
  | @new r r' hsingle _ he _ =>
    have hplace := getElem?_register_size A r r'
    exact .inr ⟨hsingle, e, entry_eq_ok.2 ⟨r, hplace, he⟩, rfl⟩

theorem Built.request (hA : A.Built) (h : A.request e = .ok (c, B)) : B.Built := by
  cases e with
  | atomic p =>
    have hadd : A.add p = (c, B) := Except.ok.inj h
    have hbuilt := hA.add p
    rwa [hadd] at hbuilt
  | disjunction ms => exact hA.disjunction h
  | conjunction ms => exact hA.conjunction h

/-! ### Weights -/

/-- The weight of a constraint if there was room for it. -/
def mass (A : Arena) (c : ConstraintId) : Nat :=
  match A.places[c]? with
  | some r => r.term.mass
  | none => 0

theorem mass_of_place (h : A.places[c]? = some r) : A.mass c = r.term.mass := by
  rw [mass, h]

theorem masses_of_members (hrs : ms.toList.mapM A.place = .ok rs) :
    Term.masses (rs.map (·.term)) = ∑ d ∈ ms.toFinset, A.mass d := by
  have hmembers : ms.toList.map A.mass = rs.map fun q => q.term.mass := by
    rw [← List.forall₂_eq_eq_eq, List.forall₂_map_left_iff, List.forall₂_map_right_iff]
    exact (mapM_eq_ok.1 hrs).imp fun _ _ hq => mass_of_place (place_eq_ok.1 hq)
  rw [Term.masses_eq, List.map_map, toFinset, List.sum_toFinset _ (nodup_toList ms), hmembers]
  rfl

/-- Both weigh the same, and the same goes for whatever has both as members. -/
structure Even (r r' : Registration) : Prop where
  mass : r'.term.mass = r.term.mass
  weight : r'.term.weight = r.term.weight

theorem Even.symm (h : Even r r') : Even r' r := ⟨h.mass.symm, h.weight.symm⟩

theorem Facing.mass_twin (hA : A.Facing Even) (c : ConstraintId) : A.mass (twin c) = A.mass c := by
  cases hc : A.places[c]? with
  | some r =>
    obtain ⟨r', hr', heven⟩ := hA c r hc
    rw [mass_of_place hr', mass_of_place hc, heven.mass]
  | none =>
    cases htwin : A.places[twin c]? with
    | none => rw [mass, mass, hc, htwin]
    | some r' =>
      obtain ⟨r, hr, -⟩ := hA _ r' htwin
      rw [twin_twin, hc] at hr
      cases hr

/-- The members of the negation are the negations of the members, in another order. -/
theorem Facing.masses_dual (hA : A.Facing Even) {dual : IndexSet} {rs' : List Registration}
    (hdual : A.negations ms = .ok dual) (hrs : ms.toList.mapM A.place = .ok rs)
    (hrs' : dual.toList.mapM A.place = .ok rs') :
    Term.masses (rs'.map (·.term)) = Term.masses (rs.map (·.term)) := by
  rw [masses_of_members hrs', masses_of_members hrs, eq_twins_of_negations hdual,
    toFinset_twins, Finset.sum_image twin_injective.injOn]
  exact Finset.sum_congr rfl fun c _ => hA.mass_twin c

theorem Facing.even (hA : A.Facing Even) (h : A.Pairs r r') : Even r r' := by
  cases h with
  | atomic p => cases p <;> exact ⟨rfl, rfl⟩
  | @disjunction ms dual rs rs' _ hdual hrs hrs' =>
    have hmass := hA.masses_dual hdual hrs hrs'
    refine ⟨hmass, ?_⟩
    change (Term.all _).weight = (Term.any _).weight
    rw [Term.weight_all, Term.weight_any, hmass]
  | @conjunction ms dual rs rs' _ hdual hrs hrs' =>
    have hmass := hA.masses_dual hdual hrs hrs'
    refine ⟨hmass, ?_⟩
    change (Term.any _).weight = (Term.all _).weight
    rw [Term.weight_all, Term.weight_any, hmass]

theorem Built.even (hA : A.Built) : A.Facing Even := by
  apply hA.rule
  · intro c r hc
    simp [Arena.empty] at hc
  · intro A r r' hA ih _ hpairs
    exact ih.register hA.paired.even (ih.even hpairs) (ih.even hpairs).symm

/-! ### Variables -/

/-- One constraint is a member of the other. -/
def Member (A : Arena) (d c : ConstraintId) : Prop :=
  ∃ ms, A.members? c = .ok (some ms) ∧ d ∈ ms

theorem Composes.scope_atomic (h : A.Composes r) {p : Predicate} (hp : r.entry = .atomic p)
    {v : Var} : v ∈ r.term.scope ↔ v ∈ p.vars := by
  cases h with
  | atomic q =>
    cases hp
    exact mem_ofList
  | disjunction _ _ => cases hp
  | conjunction _ _ => cases hp

theorem Composes.scope (h : A.Composes r) (hms : r.entry.members? = some ms) {v : Var} :
    v ∈ r.term.scope ↔ ∃ d ∈ ms, A.Mentions d v := by
  cases h with
  | atomic p => cases hms
  | disjunction _ hrs =>
    cases hms
    exact scopes_members hrs
  | conjunction _ hrs =>
    cases hms
    exact scopes_members hrs

theorem Built.lt_of_member (hA : A.Built) (h : A.Member d c) : d < c := by
  obtain ⟨ms, hms, hd⟩ := h
  obtain ⟨r, hr, hentry⟩ := members_eq_ok.1 hms
  exact (hA.composes c r hr).2 ms hentry d hd

theorem Built.mentions_of_member (hA : A.Built) (h : A.Member d c) {v : Var}
    (hv : A.Mentions d v) : A.Mentions c v := by
  obtain ⟨ms, hms, hd⟩ := h
  obtain ⟨r, hr, hentry⟩ := members_eq_ok.1 hms
  apply (mentions_of_place hr).2
  exact ((hA.composes c r hr).1.scope hentry).2 ⟨d, hd, hv⟩

theorem exists_atomic (h : e.members? = none) : ∃ p, e = .atomic p := by
  cases e with
  | atomic p => exact ⟨p, rfl⟩
  | disjunction ms => cases h
  | conjunction ms => cases h

/-- The variables of a constraint are those of the atomic ones that it comes down to. -/
theorem Built.mentions_iff (hA : A.Built) {v : Var} : A.Mentions c v ↔
    ∃ d p, Relation.ReflTransGen A.Member d c ∧ A.entry d = .ok (.atomic p) ∧ v ∈ p.vars := by
  constructor
  · induction c using Nat.strong_induction_on with
    | _ c ih =>
      rintro ⟨t, ht, hv⟩
      obtain ⟨r, hr, rfl⟩ := term_eq_ok.1 ht
      obtain ⟨hcomposes, hearlier⟩ := hA.composes c r hr
      cases hms : r.entry.members? with
      | none =>
        obtain ⟨p, hp⟩ := exists_atomic hms
        exact ⟨c, p, .refl, entry_eq_ok.2 ⟨r, hr, hp⟩, (hcomposes.scope_atomic hp).1 hv⟩
      | some ms =>
        obtain ⟨d, hd, hv⟩ := (hcomposes.scope hms).1 hv
        obtain ⟨a, p, ha, hp, hvp⟩ := ih d (hearlier ms hms d hd) hv
        exact ⟨a, p, ha.tail ⟨ms, members_eq_ok.2 ⟨r, hr, hms⟩, hd⟩, hp, hvp⟩
  · rintro ⟨d, p, hd, hp, hv⟩
    induction hd with
    | refl =>
      obtain ⟨r, hr, hentry⟩ := entry_eq_ok.1 hp
      exact (mentions_of_place hr).2 (((hA.composes d r hr).1.scope_atomic hentry).2 hv)
    | tail _ hmember ih => exact hA.mentions_of_member hmember ih

/-! ### Consistency -/

/-- What is told of a constraint is told without a fault, unless a sum leaves its word. -/
structure Told (A : Arena) (c : ConstraintId) : Prop where
  name : ∃ n, A.name c = .ok n
  weight : ∀ e, A.weight c = .error e → e = .overflow
  value : ∀ f e, A.eval f c = .error e → e = .overflow

theorem Registered.told (h : A.Registered c) : A.Told c where
  name := by
    obtain ⟨r, hr⟩ := h
    exact ⟨r.term.name, map_eq_ok.2 ⟨r.term, term_eq_ok.2 ⟨r, hr, rfl⟩, rfl⟩⟩
  weight := fun _ => Arena.weight_error h
  value := by
    intro f e he
    obtain ⟨r, hr⟩ := h
    rw [eval, term_eq_ok.2 ⟨r, hr, rfl⟩] at he
    exact Term.eval_error r.term he

/-- One arena comes about from the other by registrations, of atomic constraints or of
disjunctions and conjunctions of what was handed out before. -/
def Reaches : Arena → Arena → Prop :=
  Relation.ReflTransGen fun A B => ∃ e c, A.Given e ∧ A.request e = .ok (c, B)

theorem Reaches.built (h : A.Reaches B) (hA : A.Built) : B.Built := by
  induction h with
  | refl => exact hA
  | tail _ hstep ih =>
    obtain ⟨e, c, -, hrequest⟩ := hstep
    exact ih.request hrequest

theorem Reaches.extends (h : A.Reaches B) : A.Extends B := by
  induction h with
  | refl => exact .refl A
  | tail _ hstep ih =>
    obtain ⟨e, c, -, hrequest⟩ := hstep
    exact ih.trans (serves_of_request hrequest).extends

/-- What can be relied on in an arena. -/
structure Consistent (A : Arena) : Prop where
  /-- The negation of the negation is the constraint itself, which is not its own negation. -/
  negation : ∀ c, A.Registered c → ∃ n, A.negation c = .ok n ∧ A.negation n = .ok c ∧ n ≠ c
  /-- What is to be registered is the only member of itself, or is told the place where it
  stands from then on. -/
  served : ∀ e, A.Given e → ∃ c B, A.request e = .ok (c, B) ∧
    (single? e = some c ∧ B = A ∨
      single? e = none ∧ ∃ f, B.entry c = .ok f ∧ f.shape = e.shape)
  /-- What stands in the arena, be it as a negation, is found there and not stored again. -/
  found : ∀ c e f, A.entry c = .ok e → f.shape = e.shape → A.request f = .ok (c, A)
  /-- No two places hold the same. -/
  unique : ∀ c d e f, A.entry c = .ok e → A.entry d = .ok f → e.shape = f.shape → c = d
  /-- Later registrations leave what was handed out as it is. -/
  stable : ∀ B, A.Reaches B → A.Extends B
  /-- Members come first. -/
  earlier : ∀ c d, A.Member d c → d < c
  /-- So whatever goes down from a constraint to its members comes to an end. -/
  ends : WellFounded A.Member
  told : ∀ c, A.Registered c → A.Told c
  /-- The variables are those of the atomic constraints below. -/
  vars : ∀ c vs, A.vars c = .ok vs → ∀ v, v ∈ vs ↔
    ∃ d p, Relation.ReflTransGen A.Member d c ∧ A.entry d = .ok (.atomic p) ∧ v ∈ p.vars
  /-- A constraint and its negation have the same variables. -/
  shared : ∀ c n vs ws, A.negation c = .ok n → A.vars c = .ok vs → A.vars n = .ok ws →
    ∀ v, v ∈ ws ↔ v ∈ vs
  /-- A constraint and its negation weigh the same, and the one weight leaves its word where
  the other does. -/
  weight : ∀ c n, A.negation c = .ok n → A.weight n = A.weight c

theorem Built.consistent (hA : A.Built) : A.Consistent where
  negation := by
    intro c hc
    have htwin := (hA.paired.registered_twin hc).negation
    rw [twin_twin] at htwin
    exact ⟨twin c, hc.negation, htwin, twin_ne c⟩
  served := by
    intro e he
    obtain ⟨c, B, hrequest⟩ := hA.exists_request he
    exact ⟨c, B, hrequest, (serves_of_request hrequest).stored⟩
  found := fun _ _ _ hc hf => hA.request_stored hc hf
  unique := by
    intro c d e f hc hd hshape
    have hfirst := hA.request_stored hc hshape.symm
    have hsecond := hA.request_stored hd (f := f) rfl
    cases hfirst.symm.trans hsecond
    rfl
  stable := fun _ h => h.extends
  earlier := fun _ _ h => hA.lt_of_member h
  ends := Subrelation.wf (fun h => hA.lt_of_member h) Nat.lt_wfRel.wf
  told := fun _ h => h.told
  vars := fun c vs hvs v => (vars_eq_ok hvs).trans hA.mentions_iff
  shared := by
    intro c n vs ws hn hvs hws v
    rw [vars_eq_ok hws, vars_eq_ok hvs, (negation_eq_ok hn).1, hA.paired.mentions_twin]
  weight := by
    intro c n hn
    obtain ⟨rfl, r, hr⟩ := negation_eq_ok hn
    obtain ⟨r', hr', heven⟩ := hA.even c r hr
    rw [weight, weight, term_eq_ok.2 ⟨r, hr, rfl⟩, term_eq_ok.2 ⟨r', hr', rfl⟩]
    exact heven.weight

/-- Every arena that is reached from the empty one is consistent. -/
theorem consistent_of_reaches (h : Arena.empty.Reaches A) : A.Consistent :=
  (h.built .empty).consistent

end Arena

namespace Exhaustive

open Arena

/-- Registrations on top of one another: two atomic constraints, their disjunction, one of the
dual, and a conjunction of metas. -/
def layers : List Entry :=
  [.atomic (.unary 0 .eq 0 3), .atomic (.binary 0 1 .lt 4), .disjunction (.ofList [0, 2]),
    .conjunction (.ofList [0, 5]), .disjunction (.ofList [7, 4, 2]), .conjunction .empty]

/-- The arena after some registrations of what was handed out, if there is no fault. -/
def stack (A : Arena) : List Entry → Option Arena
  | [] => some A
  | e :: es =>
    if (e.members?.getD .empty).toList.all (· < A.size) then
      match A.request e with
      | .ok (_, B) => stack B es
      | .error _ => none
    else none

theorem reaches_of_stack {A B : Arena} {es : List Entry} (h : stack A es = some B) :
    A.Reaches B := by
  induction es generalizing A with
  | nil =>
    cases h
    exact .refl
  | cons e es ih =>
    rw [stack] at h
    split at h
    · next hall =>
      split at h
      · next c C hrequest =>
        refine .head ⟨e, c, fun ms hms d hd => ?_, hrequest⟩ (ih h)
        rw [hms, List.all_eq_true] at hall
        have hlt := of_decide_eq_true (hall d (mem_toList'.2 hd))
        exact ⟨A.places[d], Array.getElem?_eq_getElem hlt⟩
      · cases h
    · cases h

/-- The arena of the layers is consistent. To register the dual of its first disjunction finds
what was stored as a negation. -/
theorem consistent_layers : ∃ A, Arena.empty.Reaches A ∧ A.size = 12 ∧ A.Consistent ∧
    A.entry 5 = .ok (.conjunction (.ofList [1, 3])) ∧
    A.request (.conjunction (.ofList [1, 3])) = .ok (5, A) := by
  have h : (stack .empty layers).any (fun A => decide (A.size = 12) &&
      decide (A.entry 5 = .ok (.conjunction (.ofList [1, 3])))) = true := by
    decide +kernel
  obtain ⟨A, hA, hcheck⟩ := (Option.any_eq_true _ _).1 h
  obtain ⟨hsize, hentry⟩ := Bool.and_eq_true_iff.1 hcheck
  have hreaches := reaches_of_stack hA
  have hconsistent := consistent_of_reaches hreaches
  have hdual := of_decide_eq_true hentry
  exact ⟨A, hreaches, of_decide_eq_true hsize, hconsistent, hdual,
    hconsistent.found 5 _ _ hdual rfl⟩

end Exhaustive

end Acquisition
