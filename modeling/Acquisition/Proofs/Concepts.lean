import Acquisition.Proofs.Acquiring
import Acquisition.Proofs.MapSearch
import Acquisition.Proofs.TruthVectors

/-!
# Concepts are learnt exactly

An oracle that goes by which constraints of the bias hold says the same of all assignments
that agree with a query on the bias. The queries asked are witnesses of the maximal subsets
of the bias. Over a bias that is closed under negation each assignment agrees with exactly
one of them, and what is learnt holds where the oracle accepts that one.

The enumeration is taken step by step: what a verdict adds to the notes, then one maximal
subset after the other, and in the end that no further one is left.
-/
namespace Acquisition

open Checked IndexSet

variable {σ : Type} {issued : Issued σ} {Err : Failure → σ → Prop} {dom : Ranges} {A : Arena}
  {bias : Bias} {known : Network} {s t : σ}

/-- The answer to a query over the bias hangs on which constraints of the bias hold on it,
and on nothing else. The oracle leaves the atoms that were handed out alone. -/
def Oracle.GoesBy (oracle : Oracle σ) (issued : Issued σ) (A : Arena) (bias : Bias)
    (verdict : IndexSet → Answer) : Prop :=
  ∀ q s, (oracle q).Leads s
    (fun a t => issued.Grows s t ∧
      (bias.scope ⊆ q.scope → a = verdict (bias.holding A q.valuation)))
    (fun _ _ => True)

namespace Concept

/-- A concept of which nothing is learnt yet, with the contradictions recorded so far. -/
structure Fresh (issued : Issued σ) (A : Arena) (bias : Bias) (known : Network)
    (recorded : List Network) (C : Concept) (t : σ) : Prop where
  complete : bias.Complete
  names : C.atoms.Names issued t
  assigns : C.atoms.Assigns issued t bias.constraints
  background : recorded.foldlM (Contradiction.record C.atoms) ClauseStore.empty = .ok C.background
  learned : C.learned = .ofScope bias.scope
  queries : C.queries = []
  arena : C.arena = A
  bias : C.bias = bias
  known : C.known = known

theorem Fresh.grows {recorded : List Network} {C : Concept}
    (h : Fresh issued A bias known recorded C s) (hg : issued.Grows s t) :
    Fresh issued A bias known recorded C t :=
  ⟨h.complete, h.names.grows hg, h.assigns.grows hg, h.background, h.learned, h.queries, h.arena,
    h.bias, h.known⟩

/-- Constraints and their negations, for which atoms are due, are all in the arena. -/
theorem exists_bothSigns (hA : A.Built) {cs : List ConstraintId} (hcs : ∀ c ∈ cs, A.Registered c) :
    ∃ due, cs.mapM (Learner.bothSigns A) = .ok due ∧ (∀ c ∈ cs, c ∈ due.flatten) ∧
      ∀ c ∈ due.flatten, A.Registered c := by
  have htwo : ∀ c ∈ cs, Learner.bothSigns A c = .ok [c, Arena.twin c] := by
    intro c hc
    rw [Learner.bothSigns, (hcs c hc).negation]
    rfl
  obtain ⟨due, hdue⟩ := exists_mapM (Learner.bothSigns A) fun c hc => ⟨_, htwo c hc⟩
  refine ⟨due, hdue, ?_, ?_⟩
  · intro c hc
    exact List.mem_flatten.2 ⟨_, (mem_of_mapM hdue).2 ⟨c, hc, htwo c hc⟩, List.mem_cons_self⟩
  · intro c hc
    obtain ⟨ds, hds, hc⟩ := List.mem_flatten.1 hc
    obtain ⟨d, hd, hdc⟩ := (mem_of_mapM hdue).1 hds
    rw [htwo d hd] at hdc
    cases hdc
    rcases List.mem_pair.1 hc with rfl | rfl
    · exact hcs c hd
    · exact hA.paired.registered_twin (hcs d hd)

/-- A concept is started over each bias that is closed under negation, and no other. -/
theorem leads_start {sat : SatBackend σ} (hsat : sat.Lawful issued Err) (settings : Settings)
    (hA : A.Built) (hb : bias.network.Closed A) (hk : known.Closed A) :
    (start sat settings A bias known).Leads s
      (fun C t => issued.Grows s t ∧ Fresh issued A bias known [] C t)
      (fun f t => issued.Grows s t ∧ (Err f t ∨ ∃ c ∈ bias.constraints,
        Arena.twin c ∉ bias.constraints ∧ f = .error (.incompleteBias c))) := by
  have hbias : ∀ c ∈ bias.toList, A.Registered c := fun c hc => (hb c (mem_toList'.1 hc)).1
  have hknown : ∀ c ∈ known.toList, A.Registered c := fun c hc => (hk c (mem_toList'.1 hc)).1
  obtain ⟨due, hdue, hself, hall⟩ :=
    exists_bothSigns hA (List.forall_mem_append.2 ⟨hbias, hknown⟩)
  rw [start, Action.leads_bind, Action.leads_ofChecked]
  constructor
  · intro r hr
    cases r with
    | some c =>
      obtain ⟨hc, hout⟩ := unpaired_eq_some hr
      rw [Action.leads_bind, Action.leads_fail]
      exact ⟨.refl issued s, .inr ⟨c, hc, hout, rfl⟩⟩
    | none =>
      rw [Action.leads_bind, Action.leads_ofChecked, hdue]
      constructor
      · intro due' e
        cases e
        apply (Learner.leads_registerAll hsat (Learner.tabled_empty issued s A) hall).bind
        · intro T t hT
          obtain ⟨ht, htab, hgains⟩ := hT
          rw [Action.leads_pure]
          refine ⟨ht, complete_of_unpaired hr, htab.names, ⟨?_, ?_⟩, rfl, rfl, rfl, rfl, rfl, rfl⟩
          · intro c hc
            have hin := List.mem_append_left known.toList (mem_toList'.2 hc)
            obtain ⟨l, hl⟩ := hgains.has c (hself c hin)
            exact ⟨l, hl, htab.names.entry c l hl⟩
          · intro c _ d _ l m hl hm
            exact htab.names.apart c d l m hl hm
        · intro f t hf
          exact ⟨hf.1, .inl hf.2⟩
      · intro e he
        cases he
  · intro e he
    obtain ⟨c, hc, he⟩ := findSomeM_eq_error he
    rw [(hbias c hc).negation] at he
    cases he

/-- Contradictions are recorded as long as they have members and these are of the bias. -/
theorem leads_addBackground {recorded : List Network} {C : Concept}
    (hC : Fresh issued A bias known recorded C t) (rest : List Network) :
    Action.Leads (addBackground rest : Procedure Concept σ Unit) (C, t)
      (fun _ p => p.2 = t ∧ Fresh issued A bias known (recorded ++ rest) p.1 t)
      (fun _ _ => ∃ N ∈ rest, (∀ c, c ∉ N.constraints) ∨ ¬ N.constraints ⊆ bias.constraints) := by
  induction rest generalizing recorded C with
  | nil =>
    rw [List.append_nil]
    exact ⟨rfl, hC⟩
  | cons N rest ih =>
    rw [addBackground, Action.leads_bind, Procedure.leads_own, Action.leads_bind,
      Action.leads_ofExcept]
    constructor
    · intro K hK
      rw [Action.leads_bind, Procedure.leads_update]
      have hmore : (recorded ++ [N]).foldlM (Contradiction.record C.atoms) ClauseStore.empty =
          .ok K := by
        rw [List.foldlM_append, hC.background]
        change (Contradiction.record C.atoms C.background N >>= pure) = _
        rw [hK]
        rfl
      have hnext : Fresh issued A bias known (recorded ++ [N]) { C with background := K } t :=
        ⟨hC.complete, hC.names, hC.assigns, hmore, hC.learned, hC.queries, hC.arena, hC.bias,
          hC.known⟩
      have hstep := ih hnext
      rw [List.append_assoc] at hstep
      apply hstep.mono (fun _ _ h => h)
      intro f p hf
      obtain ⟨M, hM, h⟩ := hf
      exact ⟨M, List.mem_cons_of_mem N hM, h⟩
    · intro f hf
      refine ⟨N, List.mem_cons_self, ?_⟩
      by_contra hnot
      rw [not_or, not_not, not_forall] at hnot
      obtain ⟨⟨c, hc⟩, hsub⟩ := hnot
      obtain ⟨K, hK⟩ := Contradiction.exists_record (S := C.background) ⟨c, not_not.1 hc⟩
        fun d hd => by
          obtain ⟨l, hl, -⟩ := hC.assigns.literal d (hsub d hd)
          exact ⟨l, hl⟩
      rw [hK] at hf
      cases hf

/-- What holds throughout an enumeration: what is known, over all variables. -/
def whole (bias : Bias) (known : Network) : Network := (Network.ofScope bias.scope).union known

theorem holds_whole {f : Valuation} : (whole bias known).Holds A f ↔ known.Holds A f := by
  rw [whole, Network.holds_union]
  exact and_iff_right (Network.holds_ofScope A bias.scope f)

theorem closed_whole (hk : known.Closed A) : (whole bias known).Closed A :=
  (Network.closed_ofScope A bias.scope).union hk

theorem spans_whole (hb : bias.network.Closed A) : (whole bias known).Spans A bias.constraints := by
  intro c hc
  obtain ⟨hreg, hvars⟩ := hb c hc
  exact ⟨hreg, fun v hv => mem_union.2 (.inl (hvars v hv))⟩

theorem search_bias (C : Concept) : C.search.bias = C.bias.constraints := by
  ext c
  change c ∈ C.bias.constraints.diff IndexSet.empty ↔ _
  rw [mem_diff]
  exact and_iff_left (mem_empty' c)

theorem search_base (C : Concept) : C.search.base = whole C.bias C.known := by
  have hself : ∀ s : IndexSet, s.union s = s := fun s => by
    ext c
    rw [mem_union, or_self]
  have htwice : (Network.ofScope C.bias.scope).union (.ofScope C.bias.scope) =
      .ofScope C.bias.scope := by
    unfold Network.union
    rw [hself, hself]
  change ((Network.ofScope C.bias.scope).union (.ofScope C.bias.scope)).union C.known = _
  rw [htwice, whole]

/-- What the queries say about the bias, in the order in which they were asked. -/
def vectors (A : Arena) (bias : Bias) (qs : List Query) : List IndexSet :=
  qs.map fun q => bias.holding A q.valuation

/-- What the verdicts on the queries so far left behind. -/
structure Noted (A : Arena) (bias : Bias) (verdict : IndexSet → Answer) (C : Concept)
    (S : Sweep) : Prop where
  atoms : S.concept.atoms = C.atoms
  learned : S.concept.learned = C.learned
  judged : ∀ q ∈ S.concept.queries, verdict (bias.holding A q.valuation) ≠ .unknown
  rejected : ∀ ms ∈ S.rejected, ∃ q ∈ S.concept.queries,
    verdict (bias.holding A q.valuation) = .reject ∧ Excludes A bias q.valuation ms
  excluded : ∀ q ∈ S.concept.queries, verdict (bias.holding A q.valuation) = .reject →
    ∃ ms ∈ S.rejected, Excludes A bias q.valuation ms
  arena : S.concept.arena = A
  bias : S.concept.bias = bias

variable {verdict : IndexSet → Answer} {C : Concept} {S : Sweep}

/-- A query is noted with its verdict, and with what excludes it if that is a rejection. -/
theorem Noted.append (h : Noted A bias verdict C S) (q : Query) (more : List IndexSet)
    (hq : verdict (bias.holding A q.valuation) ≠ .unknown)
    (hmore : ∀ ms ∈ more, verdict (bias.holding A q.valuation) = .reject ∧
      Excludes A bias q.valuation ms)
    (hsome : verdict (bias.holding A q.valuation) = .reject →
      ∃ ms ∈ more, Excludes A bias q.valuation ms)
    (k : Counters) (M : MapSearch) :
    Noted A bias verdict C
      { concept := { S.concept with counters := k, queries := S.concept.queries ++ [q] }
        search := M, rejected := S.rejected ++ more } where
  arena := h.arena
  bias := h.bias
  atoms := h.atoms
  learned := h.learned
  judged := by
    intro r hr
    rcases List.mem_append.1 hr with hr | hr
    · exact h.judged r hr
    · rw [List.mem_singleton.1 hr]
      exact hq
  rejected := by
    intro ms hms
    rcases List.mem_append.1 hms with hms | hms
    · obtain ⟨r, hr, hrej⟩ := h.rejected ms hms
      exact ⟨r, List.mem_append_left _ hr, hrej⟩
    · exact ⟨q, List.mem_append_right _ (List.mem_singleton_self q), hmore ms hms⟩
  excluded := by
    intro r hr hrej
    rcases List.mem_append.1 hr with hr | hr
    · obtain ⟨ms, hms, hex⟩ := h.excluded r hr hrej
      exact ⟨ms, List.mem_append_left _ hms, hex⟩
    · rw [List.mem_singleton.1 hr] at hrej ⊢
      obtain ⟨ms, hms, hex⟩ := hsome hrej
      exact ⟨ms, List.mem_append_right _ hms, hex⟩

/-- The notes say nothing about the search. -/
theorem Noted.searching (h : Noted A bias verdict C S) (M : MapSearch) :
    Noted A bias verdict C { S with search := M } :=
  ⟨h.atoms, h.learned, h.judged, h.rejected, h.excluded, h.arena, h.bias⟩

/-- The sweep after a verdict on a query: it is noted, and if it is a rejection, so is what
excludes the query. -/
inductive Sweep.Notes (S : Sweep) (q : Query) : Bool → Sweep → Prop
  | accepted (k : Counters) : Notes S q true
      { S with concept := { S.concept with
          counters := k, queries := S.concept.queries ++ [{ q with verdict := some true }] } }
  | rejected (k : Counters) {members : IndexSet} : S.concept.exclusion q = .ok members →
      Notes S q false
        { S with
          concept := { S.concept with
            counters := k, queries := S.concept.queries ++ [{ q with verdict := some false }] }
          rejected := S.rejected ++ [members] }

/-- A query is noted with the answer that the oracle gives. Without an answer, nothing is, and
neither if it cannot be told what excludes a rejected query. -/
theorem leads_judge_notes {oracle : Oracle σ} {q : Query} (hfree : q.verdict = none)
    {Q : Answer → σ → Prop} {E : Failure → σ → Prop} (horacle : (oracle q).Leads t Q E) :
    Action.Leads (judge oracle q) (S, t)
      (fun _ p => ∃ b, Q (.ofBool b) p.2 ∧ S.Notes q b p.1)
      (fun f p => (∃ k, p.1 = { S with concept := { S.concept with counters := k } }) ∧
        (E f p.2 ∨ f = .error .oracleUnknown ∧ Q .unknown p.2 ∨
          ∃ e, f = .fault e ∧ S.concept.exclusion q = .error e)) := by
  have hclass : ∀ b, q.classify b = .ok { q with verdict := some b } := by
    intro b
    rw [Query.classify, Query.isClassified, hfree]
    rfl
  simp only [judge, Action.leads_bind, Procedure.leads_update, Procedure.leads_call]
  apply horacle.mono
  · intro a u ha
    cases a with
    | unknown => exact ⟨⟨_, rfl⟩, .inr (.inl ⟨rfl, ha⟩)⟩
    | accept =>
      simp only [Action.leads_pure, Action.leads_ofForeseen, hclass, if_true,
        Procedure.leads_update, Action.leads_bind]
      constructor
      · intro q' hq'
        cases hq'
        exact ⟨true, ha, .accepted _⟩
      · intro e he
        cases he
    | reject =>
      simp only [Action.leads_pure, Action.leads_ofForeseen, hclass, Bool.false_eq_true, if_false,
        Procedure.leads_update, Procedure.leads_check, Action.leads_bind]
      constructor
      · intro q' hq'
        cases hq'
        refine ⟨fun members hmembers => ?_, fun e he => ?_⟩
        · exact ⟨false, ha, .rejected _ hmembers⟩
        · exact ⟨⟨_, rfl⟩, .inr (.inr ⟨e, rfl, he⟩)⟩
      · intro e he
        cases he
  · exact fun f u hf => ⟨⟨_, rfl⟩, .inl hf⟩

theorem leads_judge {oracle : Oracle σ} (horacle : oracle.GoesBy issued A bias verdict)
    (hb : bias.network.Closed A) (h : Noted A bias verdict C S) {q : Query}
    (hcovers : bias.scope ⊆ q.scope) (hfree : q.verdict = none) :
    Action.Leads (judge oracle q) (S, t)
      (fun _ p => issued.Grows t p.2 ∧ Noted A bias verdict C p.1 ∧ p.1.search = S.search ∧
        vectors A bias p.1.concept.queries =
          vectors A bias S.concept.queries ++ [bias.holding A q.valuation])
      (fun _ _ => True) := by
  have hvectors : ∀ b, vectors A bias (S.concept.queries ++ [{ q with verdict := some b }]) =
      vectors A bias S.concept.queries ++ [bias.holding A q.valuation] := by
    intro b
    rw [vectors, List.map_append]
    rfl
  apply (leads_judge_notes hfree (horacle q t)).mono _ fun _ _ _ => trivial
  rintro _ ⟨S', u⟩ ⟨b, ⟨hu, ha⟩, hnotes⟩
  have ha := ha hcovers
  cases hnotes with
  | accepted k =>
    have hnoted := h.append { q with verdict := some true } []
      (fun hno => Answer.noConfusion (ha.trans hno))
      (fun _ hms => absurd hms List.not_mem_nil)
      (fun hno => Answer.noConfusion (ha.trans hno))
    rw [List.append_nil] at hnoted
    exact ⟨hu, hnoted _ _, rfl, hvectors true⟩
  | @rejected k members hmembers =>
    have hspec : Excludes A bias q.valuation members := by
      have harena := h.arena
      have hbias := h.bias
      subst harena hbias
      exact exclusion_spec hb hcovers hmembers
    have hnoted := h.append { q with verdict := some false } [members]
      (fun hno => Answer.noConfusion (ha.trans hno))
      (fun ms hms => ⟨ha.symm, List.mem_singleton.1 hms ▸ hspec⟩)
      (fun _ => ⟨members, List.mem_singleton_self members, hspec⟩)
    exact ⟨hu, hnoted _ _, rfl, hvectors false⟩

/-- How far an enumeration has come: the queries asked stand for the maximal subsets that
the search has found. -/
structure Swept (issued : Issued σ) (dom : Ranges) (A : Arena) (bias : Bias) (known : Network)
    (verdict : IndexSet → Answer) (given : List IndexSet) (C : Concept) (S : Sweep) (t : σ) :
    Prop where
  noted : Noted A bias verdict C S
  assigns : C.atoms.Assigns issued t bias.constraints
  explored : MapSearch.Explored C.atoms ((whole bias known).Admits A dom) bias.constraints given
    (vectors A bias S.concept.queries) S.search
  subsets : S.search.bias = bias.constraints
  base : S.search.base = whole bias known

/-- The enumeration is over: nothing can be known to hold, or every subset was decided. -/
def Sweep.Done (S : Sweep) (dom : Ranges) (A : Arena) (bias : Bias) (known : Network)
    (given : List IndexSet) : Prop :=
  ¬ (whole bias known).Satisfiable A dom ∨
    MapSearch.Decided bias.constraints given (vectors A bias S.concept.queries) S.search

variable {B : Backends σ} {oracle : Oracle σ} {given : List IndexSet}

/-- A call of the search either ends the enumeration or finds a query that says something
new about the bias. -/
theorem Swept.leads_next (hB : B.Lawful issued dom Err) (hA : A.Built)
    (hb : bias.network.Closed A) (hk : known.Closed A) (fuel : Nat)
    (h : Swept issued dom A bias known verdict given C S t) (hex : S.search.exhausted = false) :
    (MapSearch.next? A C.atoms B.sat B.cp fuel).Leads (S.search, t)
      (fun r p => p.1.bias = bias.constraints ∧ p.1.base = whole bias known ∧
        C.atoms.Assigns issued p.2 bias.constraints ∧
        (r = none → { S with search := p.1 }.Done dom A bias known given ∧
          MapSearch.Explored C.atoms ((whole bias known).Admits A dom) bias.constraints given
            (vectors A bias S.concept.queries) p.1) ∧
        ∀ F, r = some F → bias.scope ⊆ F.witness.scope ∧ F.witness.verdict = none ∧
          p.1.exhausted = false ∧
          MapSearch.Explored C.atoms ((whole bias known).Admits A dom) bias.constraints given
            (vectors A bias S.concept.queries ++ [bias.holding A F.witness.valuation]) p.1)
      (fun _ _ => True) := by
  have hframed : S.search.Framed A := by
    constructor
    · rw [h.base]
      exact closed_whole hk
    · rw [h.base, h.subsets]
      exact spans_whole hb
  have hcp : B.cp.Answers (C.atoms.Assigns issued · S.search.bias) dom Err :=
    hB.cp.answers_keeping hB.keeps fun _ _ hT hg => hT.grows hg
  have hexplored : MapSearch.Explored C.atoms (S.search.base.Admits A dom) S.search.bias given
      (vectors A bias S.concept.queries) S.search := by
    rw [h.base, h.subsets]
    exact h.explored
  have hassigns : C.atoms.Assigns issued t S.search.bias := by
    rw [h.subsets]
    exact h.assigns
  have hstep := MapSearch.leads_step hB.sat hA fuel hcp hframed hexplored hex hassigns
  rw [h.base, h.subsets] at hstep
  apply hstep.mono _ fun _ _ _ => trivial
  intro r p hp
  obtain ⟨hbias, hbase, hassigns, hadvance⟩ := hp
  refine ⟨hbias, hbase, hassigns, ?_, ?_⟩
  · intro hr
    subst hr
    rcases hadvance with ⟨hexp, -, hdecided⟩ | ⟨-, hunsat, hexp⟩
    · rw [h.base, h.subsets] at hexp
      rw [h.subsets] at hdecided
      exact ⟨.inr hdecided, hexp⟩
    · exact ⟨.inl hunsat, hexp⟩
  · intro F hr
    subst hr
    rcases hadvance with ⟨hexp, hex, hsup⟩ | ⟨hnone, -⟩
    · rw [h.base, h.subsets] at hexp
      rw [h.base] at hsup
      have hmax : Maximal ((whole bias known).Admits A dom) bias.constraints F.subset :=
        hexp.maximal F.subset (List.mem_append_right _ (List.mem_singleton_self _))
      rw [hmax.eq_holding hsup] at hexp
      exact ⟨fun v hv => hsup.solves.covers v (mem_union.2 (.inl hv)), hsup.solves.unclassified,
        hex, hexp⟩
    · cases hnone

/-- An enumeration takes one maximal subset after the other. What is known of it goes on if it
does so through a call of the search and the verdict on the witness that is found. -/
theorem leads_enumerate_of {K : Sweep → σ → Prop} {Q : Sweep × σ → Prop}
    {E : Failure → Sweep × σ → Prop}
    (hstep : ∀ S t fuel, K S t →
      (MapSearch.next? S.concept.arena S.concept.atoms B.sat B.cp fuel).Leads (S.search, t)
        (fun r p => match r with
          | none => Q ({ S with search := p.1 }, p.2)
          | some F => Action.Leads (judge oracle F.witness) ({ S with search := p.1 }, p.2)
              (fun _ p => K p.1 p.2) E)
        (fun f p => E f ({ S with search := p.1 }, p.2)))
    (hout : ∀ S t, K S t → E .outOfFuel (S, t)) (fuel : Nat) (h : K S t) :
    Action.Leads (enumerate B oracle fuel) (S, t) (fun _ p => Q p) E := by
  induction fuel generalizing S t with
  | zero => exact hout S t h
  | succ fuel ih =>
    simp only [enumerate, Action.leads_bind, Procedure.leads_own, Procedure.leads_within]
    apply (hstep S t fuel h).mono _ fun _ _ hf => hf
    intro r p hp
    cases r with
    | none => exact hp
    | some F =>
      rw [Action.leads_bind]
      exact hp.mono (fun _ p' hp' => ih hp') fun _ _ hf => hf

theorem leads_enumerate (hB : B.Lawful issued dom Err) (hA : A.Built)
    (hb : bias.network.Closed A) (hk : known.Closed A)
    (horacle : oracle.GoesBy issued A bias verdict) (fuel : Nat)
    (h : Swept issued dom A bias known verdict given C S t) (hex : S.search.exhausted = false) :
    Action.Leads (enumerate B oracle fuel) (S, t)
      (fun _ p => Swept issued dom A bias known verdict given C p.1 p.2 ∧
        p.1.Done dom A bias known given)
      (fun _ _ => True) := by
  apply leads_enumerate_of (K := fun S t =>
    Swept issued dom A bias known verdict given C S t ∧ S.search.exhausted = false)
    _ (fun _ _ _ => trivial) fuel ⟨h, hex⟩
  rintro S t fuel ⟨h, hex⟩
  rw [h.noted.arena, h.noted.atoms]
  apply (h.leads_next hB hA hb hk fuel hex).mono _ fun _ _ _ => trivial
  intro r p hp
  obtain ⟨hbias, hbase, hassigns, hnone, hsome⟩ := hp
  cases r with
  | none =>
    obtain ⟨hdone, hexp⟩ := hnone rfl
    exact ⟨⟨h.noted.searching p.1, hassigns, hexp, hbias, hbase⟩, hdone⟩
  | some F =>
    obtain ⟨hcovers, hfree, hex, hexp⟩ := hsome F rfl
    apply (leads_judge horacle hb (h.noted.searching p.1) hcovers hfree).mono _
      fun _ _ _ => trivial
    intro _ p' hp'
    obtain ⟨hgrows, hnoted, hsearch, hvectors⟩ := hp'
    rw [← hvectors] at hexp
    exact ⟨⟨hnoted, hassigns.grows hgrows, hsearch ▸ hexp, hsearch ▸ hbias, hsearch ▸ hbase⟩,
      hsearch ▸ hex⟩

/-- Each assignment agrees with one of the queries, once the enumeration is over. -/
theorem Swept.agrees (h : Swept issued dom A bias known verdict given C S t)
    (hdone : S.Done dom A bias known given) (hA : A.Built) (hb : bias.network.Closed A)
    (hcomplete : bias.Complete) {f : Valuation} (hf : f.Within dom (whole bias known).scope)
    (hknown : known.Holds A f) :
    ∃ q ∈ S.concept.queries, bias.holding A q.valuation = bias.holding A f := by
  have hmax : Maximal ((whole bias known).Admits A dom) bias.constraints (bias.holding A f) :=
    hcomplete.holding_maximal hA hb hf (holds_whole.2 hknown)
  rcases hdone with hunsat | hdecided
  · exact absurd ⟨f, hf, holds_whole.2 hknown⟩ hunsat
  · rcases hdecided _ hmax.subset with ⟨u, hu, hsub⟩ | ⟨u, hu, hsub⟩
    · have heq := hmax.eq_of_subset (h.explored.maximal u hu) hsub
      obtain ⟨q, hq, hqu⟩ := List.mem_map.1 hu
      exact ⟨q, hq, hqu.trans heq⟩
    · exact absurd (Network.hereditary_admits _ u _ hsub hmax.sat) (h.explored.unsat hu).2

/-- No two queries say the same about the bias. -/
theorem Swept.apart (h : Swept issued dom A bias known verdict given C S t) {q r : Query}
    (hq : q ∈ S.concept.queries) (hr : r ∈ S.concept.queries)
    (heq : bias.holding A q.valuation = bias.holding A r.valuation) : q = r :=
  List.inj_on_of_nodup_map h.explored.nodup_found hq hr heq

/-- What excludes the rejected queries leaves the accepted assignments, and no others. -/
theorem Swept.survives_iff (h : Swept issued dom A bias known verdict given C S t)
    (hdone : S.Done dom A bias known given) (hA : A.Built) (hb : bias.network.Closed A)
    (hcomplete : bias.Complete) {A' : Arena} (hext : A.Extends A') (hA' : A'.Built)
    {f : Valuation} (hf : f.Within dom (whole bias known).scope) (hknown : known.Holds A f) :
    (∀ ms ∈ S.rejected, ∃ d ∈ ms, A'.Holds f d) ↔ verdict (bias.holding A f) = .accept := by
  constructor
  · intro hall
    obtain ⟨q, hq, heq⟩ := h.agrees hdone hA hb hcomplete hf hknown
    cases hv : verdict (bias.holding A f) with
    | accept => rfl
    | unknown =>
      rw [← heq] at hv
      exact absurd hv (h.noted.judged q hq)
    | reject =>
      rw [← heq] at hv
      obtain ⟨ms, hms, hex⟩ := h.noted.excluded q hq hv
      have hnot := (hex.exists_holds hb hext hA' f).1 (hall ms hms)
      rw [heq] at hnot
      exact absurd (Subset.refl _) hnot
  · intro haccept ms hms
    obtain ⟨q, hq, hreject, hex⟩ := h.noted.rejected ms hms
    apply (hex.exists_holds hb hext hA' f).2
    intro hsub
    have hmax : Maximal ((whole bias known).Admits A dom) bias.constraints (bias.holding A f) :=
      hcomplete.holding_maximal hA hb hf (holds_whole.2 hknown)
    have hq' := h.explored.maximal _ (List.mem_map_of_mem hq)
    have heq := hq'.maximal _ hmax.subset hmax.sat hsub
    rw [← heq, haccept] at hreject
    cases hreject

/-- A search that has not begun knows of the contradictions recorded for it. -/
theorem Fresh.explored {recorded : List Network} (h : Fresh issued A bias known recorded C t)
    {Sat : IndexSet → Prop}
    (hreal : ∀ N ∈ recorded, N.constraints ⊆ bias.constraints ∧ ¬ Sat N.constraints) :
    MapSearch.Explored C.atoms Sat bias.constraints (recorded.map (·.constraints)) [] C.search := by
  have hsubsets : C.bias.network.constraints.diff (Network.ofScope C.bias.scope).constraints =
      bias.constraints := (search_bias C).trans (by rw [h.bias])
  have hexp : MapSearch.Explored C.atoms Sat
      (C.bias.network.constraints.diff (Network.ofScope C.bias.scope).constraints)
      (recorded.map (·.constraints)) []
      ((MapSearch.start C.bias.network (.ofScope C.bias.scope) C.known C.settings.grow.value
        .unbounded).exclude C.background) :=
    MapSearch.explored_exclude (hsubsets.symm ▸ hreal) h.background
  rw [hsubsets] at hexp
  exact hexp.same rfl rfl

/-- Nothing has been asked when an enumeration begins. -/
theorem Fresh.swept {recorded : List Network} (h : Fresh issued A bias known recorded C t)
    (verdict : IndexSet → Answer)
    (hreal : ∀ N ∈ recorded, N.constraints ⊆ bias.constraints ∧
      ¬ (whole bias known).Admits A dom N.constraints) :
    Swept issued dom A bias known verdict (recorded.map (·.constraints)) C
      { concept := { C with timedOut := false }, search := C.search } t := by
  constructor
  · exact ⟨rfl, rfl, by simp [h.queries], by simp, by simp [h.queries], h.arena, h.bias⟩
  · exact h.assigns
  · rw [h.queries]
    exact h.explored hreal
  · rw [search_bias, h.bias]
  · rw [search_base, h.bias, h.known]

/-- What has been noted by the end of a run is learnt. -/
theorem leads_process (hB : B.Lawful issued dom Err) (hA : A.Built)
    (hb : bias.network.Closed A) (hk : known.Closed A)
    (horacle : oracle.GoesBy issued A bias verdict) (fuel : Nat)
    {recorded : List Network} (h : Fresh issued A bias known recorded C t)
    (hreal : ∀ N ∈ recorded, N.constraints ⊆ bias.constraints ∧
      ¬ (whole bias known).Admits A dom N.constraints) :
    Action.Leads (process B oracle fuel) (C, t)
      (fun o p => o = .converged → ∃ S u,
        Swept issued dom A bias known verdict (recorded.map (·.constraints)) C S u ∧
        S.Done dom A bias known (recorded.map (·.constraints)) ∧
        p.1.queries = S.concept.queries ∧ A.Extends p.1.arena ∧ p.1.arena.Built ∧
        ∀ f, p.1.learned.Holds p.1.arena f ↔ ∀ ms ∈ S.rejected, ∃ d ∈ ms, p.1.arena.Holds f d)
      (fun _ _ => True) := by
  simp only [process, Action.leads_bind, Procedure.leads_own, Procedure.leads_call,
    Action.leads_pure, Procedure.leads_update, Procedure.leads_within, Action.leads_attempt,
    Procedure.leads_check]
  apply (hB.sat.setLimit _ t).mono _ fun _ _ _ => trivial
  intro _ t₁ ht₁
  apply (hB.keeps.setLimit _ t₁).mono _ fun _ _ _ => trivial
  intro _ t₂ ht₂
  have hswept := (h.grows (ht₁.trans ht₂)).swept verdict hreal
  apply (leads_enumerate hB hA hb hk horacle fuel hswept rfl).mono
  · intro _ p hp
    obtain ⟨hend, hdone⟩ := hp
    refine ⟨?_, fun _ _ => trivial⟩
    intro learned hlearned _
    have hbuilt : p.1.concept.arena.Built := hend.noted.arena ▸ hA
    obtain ⟨hext, hbuilt', hqueries, hholds⟩ := learn_spec hbuilt hlearned
    rw [hend.noted.arena] at hext
    refine ⟨p.1, p.2, hend, hdone, hqueries, hext, hbuilt', ?_⟩
    intro f
    have hbefore : p.1.concept.learned.Holds learned.arena f := by
      rw [hend.noted.learned, h.learned]
      exact Network.holds_ofScope learned.arena bias.scope f
    rw [hholds f]
    exact and_iff_right hbefore
  · intro f p _
    refine ⟨?_, fun _ _ => trivial⟩
    intro learned _
    -- A run that fails at a limit ends in a timeout, and any other failure is its own.
    split
    · next he => cases he
    · rw [Action.leads_bind, Procedure.leads_update, Action.leads_pure]
      intro ho
      cases ho
    · rw [Action.leads_bind, Procedure.leads_update, Action.leads_pure]
      intro ho
      cases ho
    · trivial

/-- When a run converges, each assignment that satisfies what is known agrees on the bias with
exactly one of the queries asked, and what is learnt holds on it just if the oracle accepts it:
over all biases that are closed under negation, all real contradictions, all oracles that go by
the bias, both strategies of growth and whatever the backends find. -/
theorem learns_exactly {B : Backends σ} (hB : B.Lawful issued dom Err) (hA : A.Built)
    (hb : bias.network.Closed A) (hk : known.Closed A) {contradictions : List Network}
    (hreal : ∀ N ∈ contradictions, N.constraints ⊆ bias.constraints ∧
      ∀ f : Valuation, f.Within dom (bias.scope.union known.scope) → known.Holds A f →
        ¬ N.Holds A f)
    {oracle : Oracle σ} {verdict : IndexSet → Answer}
    (horacle : oracle.GoesBy issued A bias verdict) (settings : Settings) (fuel : Nat) (s : σ) :
    (start B.sat settings A bias known).Leads s
      (fun C t => Action.Leads (addBackground contradictions) (C, t)
        (fun _ p => Action.Leads (process B oracle fuel) p
          (fun o p => o = .converged → p.1.queries.Nodup ∧
            ∀ f : Valuation, f.Within dom (bias.scope.union known.scope) → known.Holds A f →
              (∃! q, q ∈ p.1.queries ∧
                ∀ c ∈ bias.constraints, (A.Holds q.valuation c ↔ A.Holds f c)) ∧
              (p.1.learned.Holds p.1.arena f ↔ verdict (bias.holding A f) = .accept))
          (fun _ _ => True))
        (fun _ _ => ∃ N ∈ contradictions, ∀ c, c ∉ N.constraints))
      (fun f t => Err f t ∨ ∃ c ∈ bias.constraints, Arena.twin c ∉ bias.constraints ∧
        f = .error (.incompleteBias c)) := by
  have hreal' : ∀ N ∈ contradictions, N.constraints ⊆ bias.constraints ∧
      ¬ (whole bias known).Admits A dom N.constraints := by
    intro N hN
    obtain ⟨hsub, hno⟩ := hreal N hN
    refine ⟨hsub, ?_⟩
    intro hadm
    obtain ⟨f, hf, hwhole, hall⟩ := hadm
    exact hno f hf (holds_whole.1 hwhole) hall
  apply (leads_start hB.sat settings hA hb hk).mono _ fun f t hf => hf.2
  intro C t hC
  apply (leads_addBackground hC.2 contradictions).mono
  · intro _ p hp
    obtain ⟨hstate, hfresh⟩ := hp
    have hprocess := leads_process hB hA hb hk horacle fuel hfresh hreal'
    rw [← hstate] at hprocess
    apply hprocess.mono _ fun _ _ _ => trivial
    intro o p' hend ho
    obtain ⟨S, u, hswept, hdone, hqueries, hext, hbuilt, hholds⟩ := hend ho
    rw [hqueries]
    constructor
    · exact List.Nodup.of_map _ hswept.explored.nodup_found
    · intro f hf hknown
      constructor
      · obtain ⟨q, hq, hagrees⟩ := hswept.agrees hdone hA hb hfresh.complete hf hknown
        refine ⟨q, ⟨hq, Bias.holding_eq_iff.1 hagrees⟩, ?_⟩
        intro r hr
        exact hswept.apart hr.1 hq ((Bias.holding_eq_iff.2 hr.2).trans hagrees.symm)
      · rw [hholds f]
        exact hswept.survives_iff hdone hA hb hfresh.complete hext hbuilt hf hknown
  · intro f p hf
    obtain ⟨N, hN, hempty | hout⟩ := hf
    · exact ⟨N, hN, hempty⟩
    · exact absurd (hreal N hN).1 hout

end Concept

namespace Exhaustive

/-- A network of constraints of the bias goes by the bias. -/
theorem judge_goesBy {T : Network} (hT : T.constraints ⊆ bias.constraints) :
    (judge A T).GoesBy Exhaustive.issued A bias fun s => .ofBool (T.constraints.subset s) := by
  intro q s
  have hsame : T.Holds A q.valuation ↔ T.constraints ⊆ bias.holding A q.valuation := by
    apply forall₂_congr
    intro c hc
    rw [Bias.mem_holding]
    exact (and_iff_right (hT c hc)).symm
  refine ⟨.refl Exhaustive.issued s, fun _ => congrArg Answer.ofBool ?_⟩
  rw [Bool.eq_iff_iff, decide_eq_true_iff, subset_eq_true]
  exact hsame

/-- Two constraints of the small instance with their negations. -/
def signed : Bias := .ofNetwork ⟨.ofList [0, 1], .ofList [0, 1, 4, 5]⟩

theorem closed_signed : signed.network.Closed sample := by
  have h : Network.ofList sample (.ofList [0, 1]) [0, 1, 4, 5] = .ok signed.network := by
    decide +kernel
  exact Network.closed_ofList h

/-- That the first variable is at most zero. -/
def lowered : Network := ⟨.singleton 0, .singleton 2⟩

theorem closed_lowered : lowered.Closed sample := by
  have h : Network.ofList sample (.singleton 0) [2] = .ok lowered := by decide +kernel
  exact Network.closed_ofList h

/-- The concept of the small instance is learnt, and the run does converge. -/
theorem learns_wanted :
    (Concept.start (backends bits).sat {} sample signed lowered).Leads []
      (fun C t => Action.Leads (Concept.addBackground [clash]) (C, t)
        (fun _ p => Action.Leads (Concept.process (backends bits) (judge sample wanted) 20) p
          (fun o p => o = .converged ∧ p.1.queries.Nodup ∧
            ∀ f : Valuation, f.Within bits.Allows (signed.scope.union lowered.scope) →
              lowered.Holds sample f →
                (∃! q, q ∈ p.1.queries ∧
                  ∀ c ∈ signed.constraints, (sample.Holds q.valuation c ↔ sample.Holds f c)) ∧
                (p.1.learned.Holds p.1.arena f ↔
                  Answer.ofBool (wanted.constraints.subset (signed.holding sample f)) = .accept))
          (fun _ _ => False))
        (fun _ _ => False))
      (fun _ _ => False) := by
  have hruns : (Concept.start (backends bits).sat {} sample signed lowered).Leads []
      (fun C t => Action.Leads (Concept.addBackground [clash]) (C, t)
        (fun _ p => Action.Leads (Concept.process (backends bits) (judge sample wanted) 20) p
          (fun o _ => o = .converged) (fun _ _ => False))
        (fun _ _ => False))
      (fun _ _ => False) := by
    decide +kernel
  have hreal : ∀ N ∈ [clash], N.constraints ⊆ signed.constraints ∧
      ∀ f : Valuation, f.Within bits.Allows (signed.scope.union lowered.scope) →
        lowered.Holds sample f → ¬ N.Holds sample f := by
    intro N hN
    rw [List.mem_singleton.1 hN]
    exact ⟨by decide +kernel, fun f hf _ => refuted_clash bits.Allows _ f hf⟩
  have hwanted : wanted.constraints ⊆ signed.constraints := by decide +kernel
  have hlearns := Concept.learns_exactly (backends_lawful bits fun _ _ => False) built_sample
    closed_signed closed_lowered hreal (judge_goesBy hwanted) {} 20 []
  apply (hruns.and hlearns).mono _ fun _ _ h => h.1
  intro C t hC
  apply (hC.1.and hC.2).mono _ fun _ _ h => h.1
  intro _ p hp
  apply (hp.1.and hp.2).mono _ fun _ _ h => h.1
  intro o p' ho
  exact ⟨ho.1, ho.2 ho.1⟩

end Exhaustive

end Acquisition
