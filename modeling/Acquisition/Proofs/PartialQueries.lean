import Acquisition.Oracle
import Acquisition.Proofs.Evaluation

/-!
# Queries that leave variables out

A query says nothing about a constraint with a variable outside of its scope, but for one kind of
constraint. A conjunction fails as soon as one member does, whatever becomes of the variables of
the others, and so does a disjunction of such conjunctions. These a query may reject in haste.
The kappa of a query leaves them out, for it looks at the scope first, and an oracle with a
network of its own does not.
-/
namespace Acquisition

open Checked IndexSet

namespace Arena

variable {A : Arena} {c d : ConstraintId} {ms : IndexSet} {q : Query}

/-- Some variable of the constraint is outside of the scope of the query. -/
def Exceeds (A : Arena) (q : Query) (c : ConstraintId) : Prop :=
  ∃ v, A.Mentions c v ∧ v ∉ q.scope

theorem Exceeds.registered (h : A.Exceeds q c) : A.Registered c := by
  obtain ⟨v, ⟨t, ht, -⟩, -⟩ := h
  obtain ⟨r, hr, -⟩ := term_eq_ok.1 ht
  exact ⟨r, hr⟩

/-- The query does not fully assign the constraint, and yet its members decide it: a conjunction
by one that fails, a disjunction by failing together, one of them decided in the same way. -/
inductive Hasty (A : Arena) (q : Query) : ConstraintId → Prop
  | conjunction {c d : ConstraintId} {ms : IndexSet} : A.entry c = .ok (.conjunction ms) →
      d ∈ ms → A.check q d = .ok false → A.Exceeds q c → A.Hasty q c
  | disjunction {c d : ConstraintId} {ms : IndexSet} : A.entry c = .ok (.disjunction ms) →
      (∀ d ∈ ms, A.check q d = .ok false) → d ∈ ms → A.Hasty q d → A.Hasty q c

theorem check_eq_false : A.check q c = .ok false ↔ A.eval q.valueOf c = .ok (some false) := by
  rw [check, map_eq_ok]
  constructor
  · rintro ⟨r, hr, hfalse⟩
    rcases r with _ | _ | _ <;> cases hfalse
    exact hr
  · exact fun h => ⟨some false, h, rfl⟩

theorem check_eq_error {e : Fault} : A.check q c = .error e ↔ A.eval q.valueOf c = .error e := by
  rw [check]
  cases A.eval q.valueOf c with
  | ok r => simp [Functor.map, Except.map]
  | error e' => simp [Functor.map, Except.map]

theorem Built.exists_member_mentions (hA : A.Built) {e : Entry} (he : A.entry c = .ok e)
    (hms : e.members? = some ms) {v : Var} (hv : A.Mentions c v) : ∃ d ∈ ms, A.Mentions d v := by
  obtain ⟨r, hr, rfl⟩ := entry_eq_ok.1 he
  exact ((hA.composes c r hr).1.scope hms).1 ((mentions_of_place hr).1 hv)

/-- Only in haste is a constraint rejected by a query that does not fully assign it. -/
theorem Built.hasty_of_check (hA : A.Built) (hcheck : A.check q c = .ok false)
    (hexceeds : A.Exceeds q c) : A.Hasty q c := by
  have hc := hexceeds.registered
  revert hcheck hexceeds
  refine hA.members_rec hc ?_ ?_ ?_
  · rintro c p he hcheck ⟨v, hv, hout⟩
    -- An atomic constraint is open until it is fully assigned.
    rw [check_eq_false, hA.eval_atomic he] at hcheck
    have hsome := Term.assigned_of_evalPredicate hcheck v ((hA.mentions_atomic he).1 hv)
    exact absurd (Query.mem_scope.2 hsome) hout
  · rintro c ms he ih hcheck ⟨v, hv, hout⟩
    obtain ⟨d, hd, hv⟩ := hA.exists_member_mentions he rfl hv
    -- A disjunction fails only with all of its members.
    rw [check_eq_false, hA.eval_disjunction he] at hcheck
    have hall := (Verdict.disjoin_eq_ok hcheck).2.1 rfl
    have hmembers : ∀ d ∈ ms, A.check q d = .ok false := fun d hd =>
      check_eq_false.2 (hall _ (List.mem_map_of_mem (mem_toList'.2 hd)))
    exact .disjunction he hmembers hd (ih d hd (hmembers d hd) ⟨v, hv, hout⟩)
  · rintro c ms he - hcheck hexceeds
    rw [check_eq_false, hA.eval_conjunction he] at hcheck
    obtain ⟨d, hd, hfalse⟩ := List.mem_map.1 ((Verdict.conjoin_eq_ok hcheck).1.1 rfl)
    exact .conjunction he (mem_toList'.1 hd) (check_eq_false.2 hfalse) hexceeds

theorem Built.exceeds_of_hasty (hA : A.Built) (h : A.Hasty q c) : A.Exceeds q c := by
  induction h with
  | conjunction _ _ _ hexceeds => exact hexceeds
  | disjunction he _ hd _ ih =>
    obtain ⟨v, hv, hout⟩ := ih
    exact ⟨v, hA.mentions_of_member (member_of_entry he rfl hd) hv, hout⟩

theorem Built.settled_of_hasty (hA : A.Built) (h : A.Hasty q c) {r : Option Bool}
    (heval : A.eval q.valueOf c = .ok r) : r = some false := by
  cases h with
  | conjunction he hd hfalse _ =>
    rw [hA.eval_conjunction he] at heval
    have hmem := List.mem_map_of_mem (mem_toList'.2 hd) (f := A.eval q.valueOf)
    rw [check_eq_false.1 hfalse] at hmem
    exact (Verdict.conjoin_eq_ok heval).1.2 hmem
  | disjunction he hall _ _ =>
    rw [hA.eval_disjunction he] at heval
    apply (Verdict.disjoin_eq_ok heval).2.2
    rw [List.forall_mem_map]
    exact fun d hd => check_eq_false.1 (hall d (mem_toList'.1 hd))

theorem Hasty.exists_conjunction (h : A.Hasty q c) :
    ∃ d ms, Relation.ReflTransGen A.Member d c ∧ A.entry d = .ok (.conjunction ms) := by
  induction h with
  | conjunction he _ _ _ => exact ⟨_, _, .refl, he⟩
  | disjunction he _ hd _ ih =>
    obtain ⟨a, ms, ha, hconjunction⟩ := ih
    exact ⟨a, ms, ha.tail (member_of_entry he rfl hd), hconjunction⟩

/-- What a constraint that is handed out comes to on a query: it holds, it is rejected, or the
evaluation is given up. -/
theorem Built.check_cases (hA : A.Built) (hc : A.Registered c) (q : Query) :
    A.check q c = .ok true ∨ A.check q c = .ok false ∨ A.GivesUp q.valueOf c := by
  cases hcheck : A.check q c with
  | error e => exact .inr (.inr (hA.givesUp hc (check_eq_error.1 hcheck)))
  | ok b =>
    cases b with
    | true => exact .inl rfl
    | false => exact .inr (.inl rfl)

/-- What members decide in haste is rejected, unless the evaluation is given up before. -/
theorem Built.check_of_hasty (hA : A.Built) (h : A.Hasty q c) :
    A.check q c = .ok false ∨ A.GivesUp q.valueOf c := by
  have hc := (hA.exceeds_of_hasty h).registered
  cases heval : A.eval q.valueOf c with
  | error e => exact .inr (hA.givesUp hc heval)
  | ok r =>
    rw [hA.settled_of_hasty h heval] at heval
    exact .inl (check_eq_false.2 heval)

end Arena

open Arena

variable {A : Arena} {c : ConstraintId} {q : Query}

/-! ### The kappa of a query -/

theorem Bias.violates_of_place {r : Registration} (hc : A.places[c]? = some r) :
    violates A q c = if r.scope.subset q.scope then not <$> A.check q c else .ok false := by
  rw [violates, Arena.scope, place_eq_ok.2 hc]
  rfl

theorem Bias.violates_eq_true (hc : A.Registered c) :
    violates A q c = .ok true ↔ A.check q c = .ok false ∧ ¬ A.Exceeds q c := by
  obtain ⟨r, hr⟩ := hc
  have hexceeds : r.scope.subset q.scope = true ↔ ¬ A.Exceeds q c := by
    simp only [Arena.Exceeds, mentions_of_place hr, ← r.scope_eq, subset_eq_true, not_exists,
      not_and, not_not]
    rfl
  rw [violates_of_place hr, ← hexceeds]
  split
  · next hin => simp [map_eq_ok, hin]
  · next hin => simp [hin]

theorem Bias.violates_givesUp (hA : A.Built) (hc : A.Registered c) {e : Fault}
    (h : violates A q c = .error e) : A.GivesUp q.valueOf c := by
  obtain ⟨r, hr⟩ := hc
  rw [violates_of_place hr] at h
  split at h
  · cases hcheck : A.check q c with
    | ok b =>
      rw [hcheck] at h
      cases h
    | error e' => exact hA.givesUp ⟨r, hr⟩ (check_eq_error.1 hcheck)
  · cases h

/-- The kappa of a query holds what the query rejects, but not in haste. -/
theorem Bias.kappa_cases (hA : A.Built) {B : Bias} (hB : ∀ c ∈ B.constraints, A.Registered c)
    (q : Query) :
    (∃ k, B.kappa A q = .ok k ∧
        ∀ c, c ∈ k ↔ c ∈ B.constraints ∧ A.check q c = .ok false ∧ ¬ A.Hasty q c) ∨
      B.kappa A q = .error .overflow ∧ ∃ c ∈ B.constraints, A.GivesUp q.valueOf c := by
  cases hfilter : B.toList.filterM (violates A q) with
  | error e =>
    obtain ⟨c, hc, he⟩ := filterM_eq_error hfilter
    have hcB : c ∈ B.constraints := mem_toList'.1 hc
    have hup := violates_givesUp hA (hB c hcB) he
    have hkappa : B.kappa A q = .error e := by
      rw [kappa, hfilter]
      rfl
    have hover := kappa_error hB hkappa
    exact .inr ⟨hover ▸ hkappa, c, hcB, hup⟩
  | ok cs =>
    refine .inl ⟨.ofList cs, by rw [kappa, hfilter]; rfl, ?_⟩
    intro c
    rw [mem_ofList, (filterM_eq_ok hfilter).2.2]
    refine (and_congr_right_iff.2 fun hc => ?_).trans (and_congr_left' mem_toList')
    have hcB := hB c (mem_toList'.1 hc)
    rw [violates_eq_true hcB]
    refine and_congr_right fun hcheck => not_congr ?_
    exact ⟨hA.hasty_of_check hcheck, hA.exceeds_of_hasty⟩

/-! ### Oracles with a network -/

/-- Each constraint of the network that the query fully assigns holds on it. -/
def Network.Suits (A : Arena) (q : Query) (N : Network) : Prop :=
  ∀ c ∈ N.constraints, ¬ A.Exceeds q c → A.Holds q.valuation c

theorem Arena.check_iff_holds {b : Bool} (h : A.check q c = .ok b) (hc : ¬ A.Exceeds q c) :
    b = true ↔ A.Holds q.valuation c := by
  apply check_eq_ok h
  intro v hv
  by_contra hout
  exact hc ⟨v, hv, hout⟩

/-- The network holds on a query that suits it and rejects none of its constraints in haste. -/
theorem Network.check_cases (hA : A.Built) {N : Network}
    (hN : ∀ c ∈ N.constraints, A.Registered c) (q : Query) :
    (∃ b, N.check A q = .ok b ∧
        (b = true ↔ N.Suits A q ∧ ∀ c ∈ N.constraints, ¬ A.Hasty q c)) ∨
      N.check A q = .error .overflow ∧ ∃ c ∈ N.constraints, A.GivesUp q.valueOf c := by
  cases hcheck : N.check A q with
  | error e =>
    obtain ⟨c, hc, he⟩ := allM_eq_error hcheck
    have hcN : c ∈ N.constraints := mem_toList'.1 hc
    have hup := hA.givesUp (hN c hcN) (check_eq_error.1 he)
    have hover := Arena.check_error (hN c hcN) he
    exact .inr ⟨by rw [hover], c, hcN, hup⟩
  | ok b =>
    refine .inl ⟨b, rfl, ?_⟩
    constructor
    · intro hb
      have hholds := (check_iff hcheck).1 hb
      constructor
      · exact fun c hc hin => (check_iff_holds (hholds c hc) hin).1 rfl
      · intro c hc hhasty
        rcases hA.check_of_hasty hhasty with hfalse | ⟨hover, -⟩
        · cases hfalse.symm.trans (hholds c hc)
        · cases (check_eq_error.2 hover).symm.trans (hholds c hc)
    · rintro ⟨hsuits, hhasty⟩
      by_contra hb
      obtain ⟨c, hc, hrejected⟩ := (allM_eq_ok hcheck).2 (Bool.eq_false_iff.2 hb)
      have hcN : c ∈ N.constraints := mem_toList'.1 hc
      have hin : ¬ A.Exceeds q c := fun hexceeds =>
        hhasty c hcN (hA.hasty_of_check hrejected hexceeds)
      cases (check_iff_holds hrejected hin).2 (hsuits c hcN hin)

/-! ### What queries tell -/

/-- What a query tells of the constraints of an arena. -/
structure Tells (A : Arena) (q : Query) : Prop where
  /-- It says nothing about a constraint that it does not fully assign, unless members decide in
  haste. -/
  silent : ∀ c, A.Registered c → A.Exceeds q c → ¬ A.Hasty q c →
    A.check q c = .ok true ∨ A.GivesUp q.valueOf c
  /-- What members decide in haste comes down to a conjunction, and is rejected. -/
  hasty : ∀ c, A.Hasty q c → A.Exceeds q c ∧
    (∃ d ms, Relation.ReflTransGen A.Member d c ∧ A.entry d = .ok (.conjunction ms)) ∧
    (A.check q c = .ok false ∨ A.GivesUp q.valueOf c)
  /-- Its kappa is what it rejects, but not in haste. -/
  kappa : ∀ B : Bias, (∀ c ∈ B.constraints, A.Registered c) →
    (∃ k, B.kappa A q = .ok k ∧
        ∀ c, c ∈ k ↔ c ∈ B.constraints ∧ A.check q c = .ok false ∧ ¬ A.Hasty q c) ∨
      B.kappa A q = .error .overflow ∧ ∃ c ∈ B.constraints, A.GivesUp q.valueOf c
  /-- An oracle with a network accepts it just where each constraint that it fully assigns holds
  and none is rejected in haste. -/
  answer : ∀ (N : Network) count, (∀ c ∈ N.constraints, A.Registered c) →
    (∃ a, Respondent.answer count q (.network A N) = .ok a ∧ a ≠ .unknown ∧
        (a = .accept ↔ N.Suits A q ∧ ∀ c ∈ N.constraints, ¬ A.Hasty q c)) ∨
      Respondent.answer count q (.network A N) = .error .overflow ∧
        ∃ c ∈ N.constraints, A.GivesUp q.valueOf c

/-- Whatever was registered, a query says nothing about a constraint that it does not fully
assign, other than to reject a conjunction one of whose members fails. -/
theorem Arena.Built.query_tells (hA : A.Built) (q : Query) : Tells A q where
  silent := by
    intro c hc hexceeds hhasty
    rcases hA.check_cases hc q with htrue | hfalse | hup
    · exact .inl htrue
    · exact absurd (hA.hasty_of_check hfalse hexceeds) hhasty
    · exact .inr hup
  hasty := fun c h => ⟨hA.exceeds_of_hasty h, h.exists_conjunction, hA.check_of_hasty h⟩
  kappa := fun B hB => B.kappa_cases hA hB q
  answer := by
    intro N count hN
    rcases N.check_cases hA hN q with ⟨b, hb, hiff⟩ | ⟨hover, hup⟩
    · refine .inl ⟨.ofBool b, by rw [Respondent.answer, hb]; rfl, ?_⟩
      rw [← hiff]
      cases b <;> simp [Answer.ofBool]
    · exact .inr ⟨by rw [Respondent.answer, hover]; rfl, hup⟩

namespace Exhaustive

/-- That two variables are one, and that both are. -/
def conjoined : List Entry :=
  [.atomic (.unary 0 .eq 1 1), .atomic (.unary 1 .eq 1 1), .conjunction (.ofList [0, 2])]

/-- The first variable is zero, and the second one has no value. -/
def firstZero : Query := .ofPairs [(0, 0)]

/-- The network of the conjunction alone. -/
def conjunctionOnly : Network := ⟨.ofList [0, 1], .singleton 4⟩

theorem exceeds_firstZero {A : Arena} {c : ConstraintId} (h : A.scope c = .ok (.ofList [0, 1])) :
    A.Exceeds firstZero c :=
  ⟨1, (scope_eq_ok h).1 (by decide), by decide⟩

/-- The query says nothing about the negation of the conjunction, a disjunction of which no
conjunction is a member. -/
theorem tells_firstZero : ∃ A : Arena, A.Built ∧ Tells A firstZero ∧ A.Registered 5 ∧
    A.Exceeds firstZero 5 ∧ ¬ A.Hasty firstZero 5 ∧ A.check firstZero 5 = .ok true := by
  have h : (stack .empty conjoined).any (fun A =>
      decide (A.scope 5 = .ok (.ofList [0, 1])) &&
        decide (A.check firstZero 5 = .ok true)) = true := by
    decide +kernel
  obtain ⟨A, hA, hcheck⟩ := (Option.any_eq_true _ _).1 h
  simp only [Bool.and_eq_true, decide_eq_true_eq] at hcheck
  obtain ⟨hscope, htrue⟩ := hcheck
  have hbuilt := (reaches_of_stack hA).built .empty
  have htells := hbuilt.query_tells firstZero
  have hexceeds := exceeds_firstZero hscope
  refine ⟨A, hbuilt, htells, hexceeds.registered, hexceeds, ?_, htrue⟩
  intro hhasty
  rcases (htells.hasty 5 hhasty).2.2 with hfalse | ⟨hover, -⟩
  · cases hfalse.symm.trans htrue
  · cases (check_eq_error.2 hover).symm.trans htrue

/-- The query rejects the conjunction, although it leaves the second variable open. The kappa does
not tell, and an oracle that holds nothing but the conjunction rejects the query, although it
holds no constraint that the query fully assigns. -/
theorem conjunction_rejected_in_haste : ∃ A : Arena, A.Built ∧ A.Registered 4 ∧
    A.Exceeds firstZero 4 ∧ A.check firstZero 4 = .ok false ∧
    (Bias.ofNetwork conjunctionOnly).kappa A firstZero = .ok .empty ∧
    conjunctionOnly.Suits A firstZero ∧
    Respondent.answer 0 firstZero (.network A conjunctionOnly) = .ok .reject := by
  have h : (stack .empty conjoined).any (fun A =>
      decide (A.scope 4 = .ok (.ofList [0, 1])) &&
        (decide (A.check firstZero 4 = .ok false) &&
          (decide ((Bias.ofNetwork conjunctionOnly).kappa A firstZero = .ok .empty) &&
            decide (Respondent.answer 0 firstZero (.network A conjunctionOnly) =
              .ok .reject)))) = true := by
    decide +kernel
  obtain ⟨A, hA, hcheck⟩ := (Option.any_eq_true _ _).1 h
  simp only [Bool.and_eq_true, decide_eq_true_eq] at hcheck
  obtain ⟨hscope, hfalse, hkappa, hreject⟩ := hcheck
  have hexceeds := exceeds_firstZero hscope
  refine ⟨A, (reaches_of_stack hA).built .empty, hexceeds.registered, hexceeds, hfalse, hkappa, ?_,
    hreject⟩
  intro c hc hin
  rw [conjunctionOnly, mem_singleton] at hc
  subst hc
  exact absurd hexceeds hin

end Exhaustive

end Acquisition
