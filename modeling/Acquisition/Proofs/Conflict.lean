import Acquisition.Conflict
import Acquisition.Simplify.Redundancy
import Acquisition.Proofs.Contracts

/-!
# Conflicts are real

A network is refuted if no assignment of the domains satisfies it. A network that is
condensed is still refuted, and so is the part that is searched by halves: whichever half
is looked at, what was found already and what is still to be looked at are refuted
together.

Whether a network is satisfiable is asked over its own variables. As long as the other
variables have a value to take, that is the same.
-/
namespace Acquisition

open Checked IndexSet

/-- No assignment of the scope to values of the domains satisfies the network. -/
def Network.Refuted (A : Arena) (dom : Ranges) (scope : IndexSet) (N : Network) : Prop :=
  ∀ f : Valuation, f.Within dom scope → ¬ N.Holds A f

variable {σ : Type} {A : Arena} {dom : Ranges} {scope : IndexSet}

namespace Network

theorem Refuted.mono {N M : Network} (h : N.Refuted A dom scope)
    (hNM : ∀ f, M.Holds A f → N.Holds A f) : M.Refuted A dom scope :=
  fun f hf hM => h f hf (hNM f hM)

theorem refuted_of_unsatisfiable {N : Network} (h : ¬ N.Satisfiable A dom)
    (hscope : N.scope ⊆ scope) : N.Refuted A dom scope := fun f hf hN =>
  h ⟨f, hf.mono hscope, hN⟩

/-- A solution over the variables of the network is one over more variables, if these
have values at all. -/
theorem Refuted.unsatisfiable {N : Network} (h : N.Refuted A dom scope) (hN : N.Closed A)
    (hdom : ∃ f : Valuation, f.Within dom scope) : ¬ N.Satisfiable A dom := by
  classical
  rintro ⟨g, hg, hNg⟩
  obtain ⟨f, hf⟩ := hdom
  refine h (fun v => if v ∈ N.scope then g v else f v) (fun v hv => ?_) fun c hc => ?_
  · by_cases hvN : v ∈ N.scope
    · simpa only [if_pos hvN] using hg v hvN
    · simpa only [if_neg hvN] using hf v hv
  · refine (Arena.holds_congr fun v hv => ?_).1 (hNg c hc)
    exact (if_pos ((hN c hc).2 v hv)).symm

end Network

namespace Simplify

/-- A disjunction holds wherever one of its members is there. -/
theorem holds_of_subsumedDisjunction (hA : A.Built) {N : Network} {c : ConstraintId}
    (h : subsumedDisjunction A N c = .ok true) {f : Valuation} (hN : N.Holds A f) :
    A.Holds f c := by
  rw [subsumedDisjunction, bind_eq_ok] at h
  obtain ⟨r, hr, h⟩ := h
  cases r with
  | some ms =>
    have hany : ms.toList.any N.contains = true := Except.ok.inj h
    obtain ⟨d, hd, hdN⟩ := List.any_eq_true.1 hany
    exact (hA.holds_disjunction hr f).2 ⟨d, mem_toList'.1 hd, hN d hdN⟩
  | none => cases h

/-- What is subsumed holds wherever the network does. -/
theorem holds_of_subsumed (hA : A.Built) {N : Network} {c : ConstraintId}
    (h : subsumed A N c = .ok true) {f : Valuation} (hN : N.Holds A f) : A.Holds f c := by
  rw [subsumed, bind_eq_ok] at h
  obtain ⟨r, hr, h⟩ := h
  cases r with
  | some ms =>
    have hall : ms.toList.all N.contains = true := Except.ok.inj h
    refine (hA.holds_conjunction hr f).2 fun d hd => hN d ?_
    exact List.all_eq_true.1 hall d (mem_toList'.2 hd)
  | none => exact holds_of_subsumedDisjunction hA h hN

theorem exists_subsumedDisjunction (N : Network) {c : ConstraintId} (hc : A.Registered c) :
    ∃ b, subsumedDisjunction A N c = .ok b := by
  obtain ⟨r, hr⟩ := hc
  have he : A.entry c = .ok r.entry := by rw [Arena.entry, Arena.place_eq_ok.2 hr]; rfl
  cases hentry : r.entry <;>
    exact ⟨_, by
      simp only [subsumedDisjunction, Arena.disjuncts?, he, hentry]
      rfl⟩

theorem exists_subsumed (N : Network) {c : ConstraintId} (hc : A.Registered c) :
    ∃ b, subsumed A N c = .ok b := by
  obtain ⟨r, hr⟩ := hc
  have he : A.entry c = .ok r.entry := by rw [Arena.entry, Arena.place_eq_ok.2 hr]; rfl
  cases hentry : r.entry <;>
    exact ⟨_, by
      simp only [subsumed, subsumedDisjunction, Arena.conjuncts?, Arena.disjuncts?, he, hentry]
      rfl⟩

/-- Constraints are only left out where those that were kept imply them. -/
theorem exists_addUnless {skip : Network → ConstraintId → Checked Bool}
    (hskip : ∀ N c, A.Registered c → ∃ b, skip N c = .ok b)
    (himp : ∀ N c, skip N c = .ok true → ∀ f, N.Holds A f → A.Holds f c)
    {cs : List ConstraintId} {N : Network} (hN : N.Closed A)
    (hcs : ∀ c ∈ cs, A.Registered c ∧ ∀ v, A.Mentions c v → v ∈ N.scope) :
    ∃ M, addUnless A skip N cs = .ok M ∧ M.Closed A ∧ M.scope = N.scope ∧
      (∀ c ∈ M.constraints, c ∈ N.constraints ∨ c ∈ cs) ∧
      ∀ f, M.Holds A f → N.Holds A f ∧ ∀ c ∈ cs, A.Holds f c := by
  induction cs generalizing N with
  | nil => exact ⟨N, rfl, hN, rfl, fun c hc => .inl hc, fun f hf => ⟨hf, nofun⟩⟩
  | cons c cs ih =>
    obtain ⟨hreg, hvars⟩ := hcs c List.mem_cons_self
    have hcs' := fun d hd => hcs d (List.mem_cons_of_mem c hd)
    obtain ⟨b, hb⟩ := hskip N c hreg
    cases b with
    | true =>
      obtain ⟨M, hM, hclosed, hscope, hmem, hholds⟩ := ih hN hcs'
      refine ⟨M, ?_, hclosed, hscope, fun d hd => ?_, fun f hf => ⟨(hholds f hf).1, fun d hd => ?_⟩⟩
      · rw [addUnless, hb]
        exact hM
      · exact (hmem d hd).imp id (List.mem_cons_of_mem c)
      · rcases List.mem_cons.1 hd with rfl | hd
        · exact himp N _ hb f (hholds f hf).1
        · exact (hholds f hf).2 d hd
    | false =>
      obtain ⟨N', hN'⟩ := Network.exists_add hreg N
      obtain ⟨-, hcons, hscope'⟩ := Network.add_eq_ok hN'
      have hscope : N'.scope = N.scope := ext_mem fun v => by
        rw [hscope']
        exact or_iff_left_of_imp (hvars v)
      obtain ⟨M, hM, hclosed, hscopeM, hmem, hholds⟩ := ih (hN.add hN') fun d hd => by
        rw [hscope]
        exact hcs' d hd
      refine ⟨M, ?_, hclosed, hscopeM.trans hscope, fun d hd => ?_, fun f hf => ?_⟩
      · rw [addUnless, hb]
        change (do addUnless A skip (← N.add A c) cs) = _
        rw [hN']
        exact hM
      · rcases hmem d hd with hd | hd
        · rw [hcons, mem_insert] at hd
          exact hd.elim (fun e => .inr (e ▸ List.mem_cons_self)) .inl
        · exact .inr (List.mem_cons_of_mem c hd)
      · obtain ⟨hN'f, hcsf⟩ := hholds f hf
        refine ⟨fun d hd => hN'f d ?_, fun d hd => ?_⟩
        · rw [hcons]
          exact mem_insert.2 (.inr hd)
        · rcases List.mem_cons.1 hd with rfl | hd
          · exact hN'f d (by rw [hcons]; exact mem_insert.2 (.inl rfl))
          · exact hcsf d hd

/-- What is kept of a network has its solutions. -/
theorem exists_kept {skip : Network → ConstraintId → Checked Bool}
    (hskip : ∀ N c, A.Registered c → ∃ b, skip N c = .ok b)
    (himp : ∀ N c, skip N c = .ok true → ∀ f, N.Holds A f → A.Holds f c) {N : Network}
    (hN : N.Closed A) :
    ∃ M, addUnless A skip (.ofScope N.scope) N.toList = .ok M ∧ M.Closed A ∧
      M.scope = N.scope ∧ M.constraints ⊆ N.constraints ∧ ∀ f, M.Holds A f → N.Holds A f := by
  obtain ⟨M, hM, hclosed, hscope, hmem, hholds⟩ := exists_addUnless hskip himp
    (Network.closed_ofScope A N.scope) fun c hc => hN c (mem_toList'.1 hc)
  refine ⟨M, hM, hclosed, hscope, fun c hc => ?_, fun f hf c hc =>
    (hholds f hf).2 c (mem_toList'.2 hc)⟩
  exact mem_toList'.1 ((hmem c hc).resolve_left (mem_empty c))

/-- A condensed network has the same solutions. -/
theorem exists_condense (hA : A.Built) {N : Network} (hN : N.Closed A) :
    ∃ M, condense A N = .ok M ∧ M.Closed A ∧ M.scope = N.scope ∧ M.constraints ⊆ N.constraints ∧
      ∀ f, M.Holds A f → N.Holds A f :=
  exists_kept (fun N _ => exists_subsumed N) (fun _ _ h _ => holds_of_subsumed hA h) hN

end Simplify

namespace Conflict

variable {B : CpBackend σ} {I : σ → Prop} {Err : Failure → σ → Prop} {st : σ}

/-- The network is made of registered constraints over some of the given variables. -/
structure Over (A : Arena) (scope : IndexSet) (N : Network) : Prop where
  closed : N.Closed A
  subset : N.scope ⊆ scope

theorem Over.empty (A : Arena) (scope : IndexSet) : Over A scope {} :=
  ⟨fun c hc => absurd hc (mem_empty c), empty_subset scope⟩

theorem Over.union {N M : Network} (hN : Over A scope N) (hM : Over A scope M) :
    Over A scope (N.union M) :=
  ⟨hN.closed.union hM.closed, fun v hv =>
    (mem_union.1 hv).elim (hN.subset v) (hM.subset v)⟩

theorem Over.ofList (s : IndexSet) (cs : List ConstraintId) {N : Network}
    (h : Network.ofList A s cs = .ok N) (hs : N.scope ⊆ scope) : Over A scope N :=
  ⟨Network.closed_ofList h, hs⟩

/-- The solutions over the variables of a network are told by those over the scope. -/
theorem Over.satisfiable_iff {N : Network} (hN : Over A scope N)
    (hdom : ∃ f : Valuation, f.Within dom scope) :
    N.Satisfiable A dom ↔ ∃ f : Valuation, f.Within dom scope ∧ N.Holds A f := by
  constructor
  · intro hsat
    by_contra hnone
    have href : N.Refuted A dom scope := fun f hf hNf => hnone ⟨f, hf, hNf⟩
    exact href.unsatisfiable hN.closed hdom hsat
  · rintro ⟨f, hf, hNf⟩
    exact ⟨f, hf.mono hN.subset, hNf⟩

/-- The constraints of a list make up a network over variables of the scope. -/
theorem exists_networkOf {N : Network} (hN : Over A scope N) {cs : List ConstraintId}
    (hcs : ∀ c ∈ cs, c ∈ N.constraints) :
    ∃ M, Network.ofList A .empty cs = .ok M ∧ Over A scope M ∧
      (∀ c, c ∈ M.constraints ↔ c ∈ cs) ∧ ∀ f, M.Holds A f ↔ ∀ c ∈ cs, A.Holds f c := by
  obtain ⟨M, hM⟩ := Network.exists_ofList .empty fun c hc => (hN.closed c (hcs c hc)).1
  obtain ⟨-, hmem, hvars⟩ := Network.ofList_eq_ok hM
  refine ⟨M, hM, ⟨Network.closed_ofList hM, fun v hv => ?_⟩, hmem, Network.holds_ofList hM⟩
  obtain ⟨c, hc, hv⟩ := ((hvars v).1 hv).resolve_left (mem_empty v)
  exact hN.subset v ((hN.closed c (hcs c hc)).2 v hv)

theorem leads_networkOf {N : Network} (hN : Over A scope N) {cs : List ConstraintId}
    (hcs : ∀ c ∈ cs, c ∈ N.constraints) (hI : I st) :
    (networkOf A cs : Action σ Network).Leads st
      (fun M t => I t ∧ Over A scope M ∧ M.constraints ⊆ N.constraints ∧
        ∀ f, M.Holds A f ↔ ∀ c ∈ cs, A.Holds f c)
      (fun f t => I t ∧ (f = .error .timeout ∨ Err f t)) := by
  obtain ⟨M, hM, hover, hmem, hholds⟩ := exists_networkOf hN hcs
  rw [networkOf, hM]
  exact ⟨hI, hover, fun c hc => hcs c ((hmem c).1 hc), hholds⟩

/-- A part of a network that is refuted together with the background if the whole network
is. -/
structure Part (A : Arena) (dom : Ranges) (scope : IndexSet) (background N M : Network) :
    Prop where
  inside : Over A scope M
  subset : M.constraints ⊆ N.constraints
  refuted : (background.union N).Refuted A dom scope → (background.union M).Refuted A dom scope

theorem Part.self {background N : Network} (hN : Over A scope N) :
    Part A dom scope background N N := ⟨hN, Subset.refl _, id⟩

/-- The search by halves, once the background is known not to be refuted. -/
def byHalves (B : CpBackend σ) (A : Arena) (deadline : Limit) (fuel : Nat)
    (background N : Network) : Action σ Network :=
  match N.toList with
  | [] | [_] => return N
  | ids => do
    let left ← networkOf A (ids.take (ids.length / 2))
    let right ← networkOf A (ids.drop (ids.length / 2))
    let fromRight ← minimalPart B A deadline fuel (background.union left) true right
    let fromLeft ←
      minimalPart B A deadline fuel (background.union fromRight) (!fromRight.isEmpty) left
    return fromLeft.union fromRight

theorem minimalPart_succ (B : CpBackend σ) (A : Arena) (deadline : Limit) (fuel : Nat)
    (background : Network) (grown : Bool) (N : Network) :
    minimalPart B A deadline (fuel + 1) background grown N = (do
      deadline.poll
      if grown then
        unless ← B.satisfiable A background do return {}
      byHalves B A deadline fuel background N) := rfl

theorem leads_minimalPart (hB : B.Answers I dom Err) (hA : A.Built) {deadline : Limit}
    (fuel : Nat) {background N : Network} (grown : Bool) (hb : Over A scope background)
    (hN : Over A scope N) (hI : I st) :
    (minimalPart B A deadline fuel background grown N).Leads st
      (fun M t => I t ∧ Part A dom scope background N M)
      (fun f t => I t ∧ (f = .error .timeout ∨ Err f t)) := by
  induction fuel generalizing background N grown st with
  | zero => exact ⟨hI, .self hN⟩
  | succ fuel ih =>
    -- With the background refuted nothing of the network is needed.
    have halves : ∀ t, I t → (byHalves B A deadline fuel background N).Leads t
        (fun M t => I t ∧ Part A dom scope background N M)
        (fun f t => I t ∧ (f = .error .timeout ∨ Err f t)) := by
      intro t hI
      rw [byHalves]
      split
      · exact ⟨hI, .self hN⟩
      · exact ⟨hI, .self hN⟩
      · have hmem : ∀ c ∈ N.toList, c ∈ N.constraints := fun c hc => mem_toList'.1 hc
        rw [Action.leads_bind]
        refine (leads_networkOf hN (fun c hc => hmem c (List.mem_of_mem_take hc)) hI).mono
          (fun left t h => ?_) fun _ _ h => h
        obtain ⟨hI, hleft, hsubl, hl⟩ := h
        rw [Action.leads_bind]
        refine (leads_networkOf hN (fun c hc => hmem c (List.mem_of_mem_drop hc)) hI).mono
          (fun right t h => ?_) fun _ _ h => h
        obtain ⟨hI, hright, hsubr, hr⟩ := h
        rw [Action.leads_bind]
        refine (ih true (hb.union hleft) hright hI).mono (fun R t h => ?_) fun _ _ h => h
        obtain ⟨hI, hR⟩ := h
        rw [Action.leads_bind]
        refine (ih _ (hb.union hR.inside) hleft hI).mono (fun M t h => ?_) fun _ _ h => h
        obtain ⟨hI, hM⟩ := h
        refine ⟨hI, hM.inside.union hR.inside, fun c hc => ?_, fun href f hf hall => ?_⟩
        · rcases mem_union.1 hc with hc | hc
          · exact hsubl c (hM.subset c hc)
          · exact hsubr c (hR.subset c hc)
        · rw [Network.holds_union, Network.holds_union] at hall
          obtain ⟨hbf, hMf, hRf⟩ := hall
          refine hM.refuted (fun g hg hall => ?_) f hf
            ((Network.holds_union _).2 ⟨(Network.holds_union _).2 ⟨hbf, hRf⟩, hMf⟩)
          rw [Network.holds_union, Network.holds_union] at hall
          obtain ⟨⟨hbg, hRg⟩, hlg⟩ := hall
          refine hR.refuted (fun h hh hall => ?_) g hg
            ((Network.holds_union _).2 ⟨(Network.holds_union _).2 ⟨hbg, hlg⟩, hRg⟩)
          rw [Network.holds_union, Network.holds_union] at hall
          obtain ⟨⟨hbh, hlh⟩, hrh⟩ := hall
          refine href h hh ((Network.holds_union _).2 ⟨hbh, fun c hc => ?_⟩)
          have hc' := mem_toList'.2 hc
          rw [← List.take_append_drop (N.toList.length / 2) N.constraints.toList,
            List.mem_append] at hc'
          exact hc'.elim ((hl h).1 hlh c) ((hr h).1 hrh c)
    rw [minimalPart_succ, Action.leads_bind, Limit.leads_poll]
    refine ⟨fun _ => ?_, fun _ => ⟨hI, .inl rfl⟩⟩
    cases grown with
    | false => exact halves st hI
    | true =>
      rw [if_pos rfl, Action.leads_bind]
      refine (hB.satisfiable hA hb.closed hI).mono (fun r t h => ?_)
        fun f t h => ⟨h.1, .inr h.2⟩
      obtain ⟨hI, hr⟩ := h
      cases r with
      | true => exact halves t hI
      | false =>
        have hun : ¬ background.Satisfiable A dom := fun h => Bool.false_ne_true (hr.2 h)
        refine ⟨hI, Over.empty A scope, empty_subset _, fun _ f hf hall => ?_⟩
        exact Network.refuted_of_unsatisfiable hun hb.subset f hf ((Network.holds_union _).1 hall).1

/-- A refuted network is never taken to be consistent. -/
theorem leads_confirm (hB : B.Answers I dom Err) (hA : A.Built) {background N : Network}
    (hb : Over A scope background) (hN : Over A scope N) (hI : I st)
    {Q : Unit → σ → Prop} (hQ : ∀ t, I t → Q () t) :
    (confirm B A background N).Leads st Q (fun f t => I t ∧
      ((∃ g : Valuation, g.Within dom scope) → (background.union N).Refuted A dom scope →
        Err f t)) := by
  have hover := hb.union hN
  rw [confirm, Action.leads_bind, Action.leads_attempt]
  refine (hB.satisfiable hA hover.closed hI).mono (fun r t h => ?_) fun f t h => ?_
  · obtain ⟨hI, hr⟩ := h
    cases r with
    | true =>
      refine ⟨hI, fun hsome href => ?_⟩
      -- A solution over the variables at hand extends to all of the scope.
      exact absurd (hr.1 rfl) (href.unsatisfiable hover.closed hsome)
    | false => exact hQ t hI
  · obtain ⟨hI, hf⟩ := h
    cases f with
    | fault e => exact ⟨hI, fun _ _ => hf⟩
    | error e => exact hQ t hI
    | outOfFuel => exact hQ t hI

/-- The conflict found in a refuted network is refuted itself. -/
theorem leads_explain (hB : B.Answers I dom Err) (hA : A.Built) {deadline : Limit} {N : Network}
    (hN : Over A scope N) (hI : I st) :
    (explain B A deadline {} N).Leads st
      (fun M t => I t ∧ Over A scope M ∧ M.constraints ⊆ N.constraints ∧
        (N.Refuted A dom scope → M.Refuted A dom scope))
      (fun f t => I t ∧ ((∃ g : Valuation, g.Within dom scope) → N.Refuted A dom scope →
        f = .error .timeout ∨ Err f t)) := by
  have hnone : ∀ {M : Network}, ((({} : Network).union M).Refuted A dom scope ↔
      M.Refuted A dom scope) := fun {M} => by
    refine forall₂_congr fun f _ => not_congr ?_
    rw [Network.holds_union]
    exact and_iff_right fun c hc => absurd hc (mem_empty c)
  rw [explain]
  split
  · next hempty =>
    have hno : ∀ c, c ∉ N.constraints := isEmpty_eq_true.1 hempty
    refine ⟨hI, .empty A scope, empty_subset _, fun href => href.mono fun f _ c hc => ?_⟩
    exact absurd hc (hno c)
  · rw [Action.leads_bind]
    refine (leads_minimalPart hB hA N.size false (Over.empty A scope) hN hI).mono
      (fun M t ⟨hI, hM⟩ => ?_) fun f t ⟨hI, hf⟩ => ⟨hI, fun _ _ => hf⟩
    rw [Action.leads_bind]
    refine (leads_confirm hB hA (Over.empty A scope) hM.inside hI (Q := fun _ t => I t)
      fun t ht => ht).mono (fun _ t hI => ?_) fun f t ⟨hI, hf⟩ => ⟨hI, fun hdom href => ?_⟩
    · exact ⟨hI, hM.inside, hM.subset, fun href => hnone.1 (hM.refuted (hnone.2 href))⟩
    · exact .inr (hf hdom (hM.refuted (hnone.2 href)))

end Conflict

end Acquisition
