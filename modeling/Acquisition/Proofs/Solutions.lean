import Acquisition.Bias
import Acquisition.Proofs.Complements

/-!
# Solutions of networks

A query stands for a valuation of its variables. Whether a constraint holds on a
query, and which constraints a query violates, is put here in terms of what holds
on that valuation.

The values that a variable may take are given by a predicate `dom`. A network is
satisfiable if it holds on some valuation that gives each variable of its scope
one of these values.
-/
namespace Acquisition

open Checked IndexSet

/-- The values that each variable may take. -/
abbrev Ranges := Var → Value → Prop

/-- The valuation gives each variable of a scope a value that it may take. -/
def Valuation.Within (dom : Ranges) (s : IndexSet) (f : Valuation) : Prop :=
  ∀ v ∈ s, dom v (f v)

theorem Valuation.Within.mono {dom : Ranges} {s t : IndexSet} {f : Valuation}
    (h : f.Within dom t) (hst : s ⊆ t) : f.Within dom s := fun v hv => h v (hst v hv)

namespace Query

/-- The values of a query, with 0 for the variables that it does not mention. -/
def valuation (q : Query) : Valuation := fun v => (q.valueOf v).getD 0

theorem valuation_extends (q : Query) : q.valuation.Extends q.valueOf := fun v x h => by
  rw [valuation, h]
  rfl

theorem mem_scope {q : Query} {v : Var} : v ∈ q.scope ↔ (q.valueOf v).isSome := by
  rw [scope, mem_ofList, vars, valueOf]
  induction q.pairs with
  | nil => simp
  | cons p ps ih =>
    obtain ⟨w, x⟩ := p
    by_cases hv : v = w
    · subst hv
      simp
    · rw [List.map_cons, List.mem_cons, or_iff_right hv, ih, List.lookup_cons,
        beq_false_of_ne hv]

end Query

theorem Arena.eval_eq_ok {A : Arena} {g : Var → Option Value} {c : ConstraintId}
    {r : Option Bool} : A.eval g c = .ok r ↔ ∃ t, A.term c = .ok t ∧ t.eval g = .ok r := by
  rw [eval, bind_eq_ok]

/-- The value of a constraint hangs on its own variables. -/
theorem Arena.eval_congr {A : Arena} {f g : Var → Option Value} {c : ConstraintId}
    (h : ∀ v, A.Mentions c v → f v = g v) : A.eval f c = A.eval g c := by
  rw [eval, eval]
  cases ht : A.term c with
  | error e => rfl
  | ok t => exact t.eval_congr fun v hv => h v ⟨t, ht, hv⟩

/-- A settled value is what the constraint comes to on each valuation that extends the
assignment. -/
theorem Arena.eval_sound {A : Arena} {f : Valuation} {g : Var → Option Value} {c : ConstraintId}
    {b : Bool} (hf : f.Extends g) (h : A.eval g c = .ok (some b)) : b = true ↔ A.Holds f c := by
  obtain ⟨t, ht, hr⟩ := eval_eq_ok.1 h
  rw [t.eval_sound hf hr]
  constructor
  · exact fun hholds => ⟨t, ht, hholds⟩
  · rintro ⟨t', ht', hholds⟩
    rwa [Except.ok.inj (ht.symm.trans ht')]

/-- A constraint is open only if one of its variables has no value. -/
theorem Arena.eval_settled {A : Arena} {g : Var → Option Value} {c : ConstraintId}
    {r : Option Bool} (hg : ∀ v, A.Mentions c v → (g v).isSome) (h : A.eval g c = .ok r) :
    ∃ b, r = some b := by
  obtain ⟨t, ht, hr⟩ := eval_eq_ok.1 h
  exact Option.isSome_iff_exists.1 (t.eval_settled (fun v hv => hg v ⟨t, ht, hv⟩) hr)

theorem Arena.check_eq_ok {A : Arena} {q : Query} {c : ConstraintId} {b : Bool}
    (h : A.check q c = .ok b) (hs : ∀ v, A.Mentions c v → v ∈ q.scope) :
    b = true ↔ A.Holds q.valuation c := by
  rw [check, map_eq_ok] at h
  obtain ⟨r, hr, hb⟩ := h
  obtain ⟨b', rfl⟩ := eval_settled (fun v hv => Query.mem_scope.1 (hs v hv)) hr
  have hb' : b' = b := hb
  rw [← hb', eval_sound q.valuation_extends hr]

/-- A check gives up on a sum that leaves its word, and on nothing else. -/
theorem Arena.check_error {A : Arena} {q : Query} {c : ConstraintId} {e : Fault}
    (hc : A.Registered c) (h : A.check q c = .error e) : e = .overflow := by
  obtain ⟨r, hr⟩ := hc
  have ht : A.term c = .ok r.term := term_eq_ok.2 ⟨r, hr, rfl⟩
  have he : A.eval q.valueOf c = r.term.eval q.valueOf := by rw [eval, ht]; rfl
  cases hv : r.term.eval q.valueOf with
  | ok b => simp [check, he, hv, Functor.map, Except.map] at h
  | error e' =>
    have : e' = e := by simpa [check, he, hv, Functor.map, Except.map] using h
    exact this ▸ r.term.eval_error hv

/-- What holds hangs on the variables of a constraint alone. -/
theorem Arena.holds_congr {A : Arena} {f g : Valuation} {c : ConstraintId}
    (h : ∀ v, A.Mentions c v → f v = g v) : A.Holds f c ↔ A.Holds g c := by
  refine exists_congr fun t => and_congr_right fun ht => t.holds_congr fun v hv => ?_
  exact h v ⟨t, ht, hv⟩

/-- A query violates a constraint if it assigns all of its variables and the
constraint fails. -/
def Query.Violates (A : Arena) (q : Query) (c : ConstraintId) : Prop :=
  (∀ v, A.Mentions c v → v ∈ q.scope) ∧ ¬ A.Holds q.valuation c

theorem Arena.scope_eq_ok {A : Arena} {c : ConstraintId} {s : IndexSet}
    (h : A.scope c = .ok s) {v : Var} : v ∈ s ↔ A.Mentions c v := by
  rw [scope, map_eq_ok] at h
  obtain ⟨r, hr, rfl⟩ := h
  rw [r.scope_eq, mentions_of_place (place_eq_ok.1 hr)]

theorem Arena.vars_eq_ok {A : Arena} {c : ConstraintId} {vs : List Var}
    (h : A.vars c = .ok vs) {v : Var} : v ∈ vs ↔ A.Mentions c v := by
  rw [vars, map_eq_ok] at h
  obtain ⟨r, hr, rfl⟩ := h
  rw [mentions_of_place (place_eq_ok.1 hr), r.vars_eq, ← contains_iff, Term.contains_scope,
    decide_eq_true_iff]

theorem Bias.violates_eq_ok {A : Arena} {q : Query} {c : ConstraintId} {b : Bool}
    (h : violates A q c = .ok b) : b = true ↔ q.Violates A c := by
  rw [violates, bind_eq_ok] at h
  obtain ⟨s, hs, h⟩ := h
  by_cases hsub : s.subset q.scope = true
  · have hm : ∀ v, A.Mentions c v → v ∈ q.scope := fun v hv =>
      (subset_eq_true.1 hsub) v ((Arena.scope_eq_ok hs).2 hv)
    rw [if_pos hsub, bind_eq_ok] at h
    obtain ⟨b', hb', h⟩ := h
    have e : (!b') = b := Except.ok.inj h
    rw [← e, Query.Violates, and_iff_right hm, ← Arena.check_eq_ok hb' hm]
    simp
  · rw [if_neg hsub] at h
    have e : false = b := Except.ok.inj h
    subst e
    refine iff_of_false nofun fun hv => hsub (subset_eq_true.2 fun v hv' => ?_)
    exact hv.1 v ((Arena.scope_eq_ok hs).1 hv')

@[simp] theorem Bias.mem_reduce {B : Bias} {c d : ConstraintId} :
    d ∈ (B.reduce c).constraints ↔ d ∈ B.constraints ∧ d ≠ c := mem_erase

@[simp] theorem Bias.mem_reduceAll {B : Bias} {cs : IndexSet} {d : ConstraintId} :
    d ∈ (B.reduceAll cs).constraints ↔ d ∈ B.constraints ∧ d ∉ cs := by
  have h : ∀ (xs : List ConstraintId) (B : Bias),
      d ∈ (xs.foldl reduce B).constraints ↔ d ∈ B.constraints ∧ d ∉ xs := by
    intro xs
    induction xs with
    | nil => simp
    | cons x xs ih =>
      intro B
      rw [List.foldl_cons, ih, mem_reduce, List.mem_cons]
      tauto
  rw [reduceAll, h, mem_toList']

theorem Bias.violates_error {A : Arena} {q : Query} {c : ConstraintId} {e : Fault}
    (hc : A.Registered c) (h : violates A q c = .error e) : e = .overflow := by
  obtain ⟨r, hr⟩ := hc
  have hs : A.scope c = .ok r.scope := by
    rw [Arena.scope, Arena.place_eq_ok.2 hr]
    rfl
  by_cases hsub : r.scope.subset q.scope = true
  · cases hq : A.check q c with
    | ok b => simp [violates, hs, hsub, hq, bind, Except.bind, pure, Except.pure] at h
    | error e' =>
      have : e' = e := by simpa [violates, hs, hsub, hq, bind, Except.bind] using h
      exact this ▸ Arena.check_error ⟨r, hr⟩ hq
  · simp [violates, hs, hsub, bind, Except.bind, pure, Except.pure] at h

/-- Only a sum that leaves its word keeps the kappa of a query from being told. -/
theorem Bias.kappa_error {A : Arena} {B : Bias} {q : Query} {e : Fault}
    (hB : ∀ c ∈ B.constraints, A.Registered c) (h : B.kappa A q = .error e) : e = .overflow := by
  rw [kappa] at h
  cases hcs : B.toList.filterM (violates A q) with
  | ok cs =>
    rw [hcs] at h
    cases h
  | error e' =>
    rw [hcs] at h
    cases h
    obtain ⟨c, hc, he⟩ := filterM_eq_error hcs
    exact violates_error (hB c (mem_toList'.1 hc)) he

theorem Bias.mem_kappa {A : Arena} {B : Bias} {q : Query} {k : IndexSet}
    (h : B.kappa A q = .ok k) {c : ConstraintId} :
    c ∈ k ↔ c ∈ B.constraints ∧ q.Violates A c := by
  rw [kappa, bind_eq_ok] at h
  obtain ⟨cs, hcs, h⟩ := h
  have e : IndexSet.ofList cs = k := Except.ok.inj h
  subst e
  obtain ⟨htot, -, hmem⟩ := filterM_eq_ok hcs
  have hB : ∀ c, c ∈ B.toList ↔ c ∈ B.constraints := fun c => mem_toList'
  rw [mem_ofList, hmem, hB]
  refine and_congr_right fun hc => ?_
  obtain ⟨b, hb⟩ := htot c ((hB c).2 hc)
  rw [← violates_eq_ok hb, hb]
  simp

namespace Network

/-- Every constraint of the network was handed out by the arena, and the scope
holds its variables. -/
def Closed (A : Arena) (N : Network) : Prop :=
  ∀ c ∈ N.constraints, A.Registered c ∧ ∀ v, A.Mentions c v → v ∈ N.scope

/-- Every constraint of the network holds. -/
def Holds (A : Arena) (f : Valuation) (N : Network) : Prop := ∀ c ∈ N.constraints, A.Holds f c

/-- The network holds on some valuation of its scope. -/
def Satisfiable (A : Arena) (dom : Ranges) (N : Network) : Prop :=
  ∃ f : Valuation, f.Within dom N.scope ∧ N.Holds A f

/-- A network holds on a query if each of its constraints does. -/
theorem check_iff {A : Arena} {N : Network} {q : Query} {b : Bool} (h : N.check A q = .ok b) :
    b = true ↔ ∀ c ∈ N.constraints, A.check q c = .ok true := by
  obtain ⟨htrue, hfalse⟩ := allM_eq_ok h
  constructor
  · exact fun hb c hc => htrue hb c (mem_toList'.2 hc)
  · intro hall
    by_contra hb
    obtain ⟨c, hc, hrejected⟩ := hfalse (Bool.eq_false_iff.2 hb)
    rw [hall c (mem_toList'.1 hc)] at hrejected
    cases hrejected

theorem add_eq_ok {A : Arena} {N M : Network} {c : ConstraintId} (h : N.add A c = .ok M) :
    A.Registered c ∧ M.constraints = N.constraints.insert c ∧
      ∀ v, v ∈ M.scope ↔ v ∈ N.scope ∨ A.Mentions c v := by
  rw [add, bind_eq_ok] at h
  obtain ⟨vs, hvs, h⟩ := h
  have e := Except.ok.inj h
  subst e
  refine ⟨?_, rfl, fun v => ?_⟩
  · rw [Arena.vars, map_eq_ok] at hvs
    obtain ⟨r, hr, -⟩ := hvs
    exact ⟨r, Arena.place_eq_ok.1 hr⟩
  · rw [mem_extend, Arena.vars_eq_ok hvs]

theorem addAll_eq_ok {A : Arena} {N M : Network} {cs : List ConstraintId}
    (h : N.addAll A cs = .ok M) :
    (∀ c ∈ cs, A.Registered c) ∧
      (∀ c, c ∈ M.constraints ↔ c ∈ N.constraints ∨ c ∈ cs) ∧
      ∀ v, v ∈ M.scope ↔ v ∈ N.scope ∨ ∃ c ∈ cs, A.Mentions c v := by
  induction cs generalizing N with
  | nil =>
    have e : N = M := Except.ok.inj h
    subst e
    simp
  | cons c cs ih =>
    rw [addAll, List.foldlM_cons, bind_eq_ok] at h
    obtain ⟨N', hN', h⟩ := h
    obtain ⟨hreg, hcons, hscope⟩ := add_eq_ok hN'
    obtain ⟨hregs, hmem, hvars⟩ := ih h
    refine ⟨fun d hd => ?_, fun d => ?_, fun v => ?_⟩
    · rcases List.mem_cons.1 hd with rfl | hd
      · exact hreg
      · exact hregs d hd
    · rw [hmem, hcons, mem_insert, List.mem_cons]
      tauto
    · rw [hvars, hscope]
      simp only [List.mem_cons, exists_eq_or_imp, or_assoc]

theorem ofList_eq_ok {A : Arena} {s : IndexSet} {M : Network} {cs : List ConstraintId}
    (h : ofList A s cs = .ok M) :
    (∀ c ∈ cs, A.Registered c) ∧ (∀ c, c ∈ M.constraints ↔ c ∈ cs) ∧
      ∀ v, v ∈ M.scope ↔ v ∈ s ∨ ∃ c ∈ cs, A.Mentions c v := by
  obtain ⟨hreg, hmem, hvars⟩ := addAll_eq_ok h
  refine ⟨hreg, fun c => ?_, hvars⟩
  rw [hmem]
  exact or_iff_right (mem_empty c)

theorem exists_add {A : Arena} {c : ConstraintId} (h : A.Registered c) (N : Network) :
    ∃ M, N.add A c = .ok M := by
  obtain ⟨r, hr⟩ := h
  refine ⟨⟨N.scope.extend r.vars, N.constraints.insert c⟩, ?_⟩
  rw [add, Arena.vars, Arena.place_eq_ok.2 hr]
  rfl

theorem exists_addAll {A : Arena} {cs : List ConstraintId} (h : ∀ c ∈ cs, A.Registered c)
    (N : Network) : ∃ M, N.addAll A cs = .ok M := by
  induction cs generalizing N with
  | nil => exact ⟨N, rfl⟩
  | cons c cs ih =>
    obtain ⟨N', hN'⟩ := exists_add (h c List.mem_cons_self) N
    obtain ⟨M, hM⟩ := ih (fun d hd => h d (List.mem_cons_of_mem _ hd)) N'
    refine ⟨M, ?_⟩
    rw [addAll, List.foldlM_cons, hN']
    exact hM

theorem Closed.addAll {A : Arena} {N M : Network} {cs : List ConstraintId} (hN : N.Closed A)
    (h : N.addAll A cs = .ok M) : M.Closed A := by
  obtain ⟨hreg, hmem, hvars⟩ := addAll_eq_ok h
  intro c hc
  rcases (hmem c).1 hc with hc | hc
  · exact ⟨(hN c hc).1, fun v hv => (hvars v).2 (.inl ((hN c hc).2 v hv))⟩
  · exact ⟨hreg c hc, fun v hv => (hvars v).2 (.inr ⟨c, hc, hv⟩)⟩

theorem Closed.add {A : Arena} {N M : Network} {c : ConstraintId} (hN : N.Closed A)
    (h : N.add A c = .ok M) : M.Closed A :=
  have hall : N.addAll A [c] = .ok M := by rw [Network.addAll, List.foldlM_cons, h]; rfl
  hN.addAll hall

theorem closed_ofScope (A : Arena) (s : IndexSet) : (ofScope s).Closed A :=
  fun c hc => absurd hc (mem_empty c)

theorem Closed.union {A : Arena} {N M : Network} (hN : N.Closed A) (hM : M.Closed A) :
    (N.union M).Closed A := by
  intro c hc
  rcases mem_union.1 hc with hc | hc
  · exact ⟨(hN c hc).1, fun v hv => mem_union.2 (.inl ((hN c hc).2 v hv))⟩
  · exact ⟨(hM c hc).1, fun v hv => mem_union.2 (.inr ((hM c hc).2 v hv))⟩

theorem Closed.remove {A : Arena} {N : Network} (hN : N.Closed A) (c : ConstraintId) :
    (N.remove c).Closed A := fun d hd => hN d (mem_erase.1 hd).1

theorem holds_addAll {A : Arena} {N M : Network} {cs : List ConstraintId}
    (h : N.addAll A cs = .ok M) (f : Valuation) :
    M.Holds A f ↔ N.Holds A f ∧ ∀ c ∈ cs, A.Holds f c := by
  obtain ⟨-, hmem, -⟩ := addAll_eq_ok h
  simp only [Holds, hmem, or_imp, forall_and]

theorem holds_union {A : Arena} {N M : Network} (f : Valuation) :
    (N.union M).Holds A f ↔ N.Holds A f ∧ M.Holds A f := by
  simp only [Holds, union, mem_union, or_imp, forall_and]

theorem holds_ofList {A : Arena} {cs : List ConstraintId} {M : Network}
    {s : IndexSet} (h : ofList A s cs = .ok M) (f : Valuation) :
    M.Holds A f ↔ ∀ c ∈ cs, A.Holds f c := by
  simp only [Holds, (ofList_eq_ok h).2.1]

theorem exists_ofList {A : Arena} {cs : List ConstraintId} (s : IndexSet)
    (h : ∀ c ∈ cs, A.Registered c) : ∃ M, ofList A s cs = .ok M := exists_addAll h (ofScope s)

theorem closed_ofList {A : Arena} {cs : List ConstraintId} {M : Network}
    {s : IndexSet} (h : ofList A s cs = .ok M) : M.Closed A := (closed_ofScope A s).addAll h

theorem holds_ofScope (A : Arena) (s : IndexSet) (f : Valuation) : (ofScope s).Holds A f :=
  fun c hc => absurd hc (mem_empty c)

end Network

/-- The query assigns the scope of a network values that its variables may take, and
the network holds on it. It carries no verdict. -/
structure Query.Solves (A : Arena) (dom : Ranges) (N : Network) (q : Query) : Prop where
  covers : N.scope ⊆ q.scope
  within : q.valuation.Within dom N.scope
  holds : N.Holds A q.valuation
  unclassified : q.verdict = none

theorem Query.Solves.satisfiable {A : Arena} {dom : Ranges} {N : Network} {q : Query}
    (h : q.Solves A dom N) : N.Satisfiable A dom := ⟨q.valuation, h.within, h.holds⟩

end Acquisition
