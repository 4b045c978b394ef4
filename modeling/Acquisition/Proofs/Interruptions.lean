import Acquisition.Proofs.Concepts

/-!
# Runs that are cut short

A run over a bias that is closed under negation may end anywhere: at a limit, at a backend
that fails, or at a query to which there is no answer. What was rejected until then is
learnt all the same. To tell what that is, the world is taken to keep a log of what the
oracle is asked, and a run is compared with its part of the log.

Nothing is assumed about the contradictions given beforehand until a run converges, and
nothing at all about what the oracle goes by. So the search is followed with whatever sets
the map may refuse, and the queries with the answers that the log has.
-/
namespace Acquisition

open Checked IndexSet

variable {σ : Type} {issued : Issued σ} {Err : Failure → σ → Prop} {dom : Ranges} {s t u : σ}

/-! ### The log -/

/-- A query with the answer given to it. -/
abbrev Exchange := Query × Answer

/-- The verdict of an answer, unless nothing is known. -/
def Answer.verdict? : Answer → Option Bool
  | accept => some true
  | reject => some false
  | unknown => none

theorem Answer.verdict?_eq_some {a : Answer} {b : Bool} : a.verdict? = some b ↔ a = .ofBool b := by
  cases a <;> cases b <;> simp [verdict?, ofBool]

/-- The queries that were answered, each with its verdict, in the order in which they were
asked. -/
def answered (es : List Exchange) : List Query :=
  es.filterMap fun e => e.2.verdict?.map fun b => { e.1 with verdict := some b }

theorem answered_append (es es' : List Exchange) :
    answered (es ++ es') = answered es ++ answered es' := List.filterMap_append

theorem answered_ofBool (q : Query) (b : Bool) :
    answered [(q, .ofBool b)] = [{ q with verdict := some b }] := by
  cases b <;> rfl

theorem mem_answered {es : List Exchange} {q : Query} :
    q ∈ answered es ↔ ∃ e ∈ es, ∃ b, e.2 = .ofBool b ∧ q = { e.1 with verdict := some b } := by
  simp only [answered, List.mem_filterMap, Option.map_eq_some_iff, Answer.verdict?_eq_some]
  exact exists_congr fun e => and_congr_right fun _ => exists_congr fun b =>
    and_congr_right fun _ => eq_comm

/-- Where a world that was in a state `s` has come to: no atom was lost, and the log has
gained some exchanges. -/
structure Logged (issued : Issued σ) (log : σ → List Exchange) (s : σ) (gained : List Exchange)
    (t : σ) : Prop where
  grows : issued.Grows s t
  appends : log t = log s ++ gained

theorem Logged.refl (issued : Issued σ) (log : σ → List Exchange) (s : σ) :
    Logged issued log s [] s := ⟨.refl issued s, (List.append_nil _).symm⟩

theorem Logged.trans {log : σ → List Exchange} {es es' : List Exchange}
    (h : Logged issued log s es t) (h' : Logged issued log t es' u) :
    Logged issued log s (es ++ es') u :=
  ⟨h.grows.trans h'.grows, by rw [h'.appends, h.appends, List.append_assoc]⟩

theorem Logged.silent {log : σ → List Exchange} {es : List Exchange}
    (h : Logged issued log s es t) (hg : issued.Grows t u) (hlog : log u = log t) :
    Logged issued log s es u := ⟨h.grows.trans hg, hlog.trans h.appends⟩

/-- The backends ask nothing, so they leave the log as it is. -/
structure Backends.Silent (B : Backends σ) (log : σ → List Exchange) : Prop where
  solve : ∀ F es, (B.sat.solve F).Preserves (log · = es)
  witness : ∀ A N es, (B.cp.witness A N).Preserves (log · = es)
  limit : ∀ l es, (B.sat.setLimit l).Preserves (log · = es) ∧
    (B.cp.setLimit l).Preserves (log · = es)

/-- The oracle logs each query together with the answer that it gives. It leaves the atoms
that were handed out alone. -/
def Oracle.Logs (oracle : Oracle σ) (issued : Issued σ) (Err : Failure → σ → Prop)
    (log : σ → List Exchange) : Prop :=
  ∀ q s, (oracle q).Leads s (fun a t => Logged issued log s [(q, a)] t)
    (fun f t => Logged issued log s [] t ∧ Err f t)

/-- The oracle may give this answer to the query. -/
def Oracle.Gives (oracle : Oracle σ) (q : Query) (a : Answer) : Prop :=
  ∃ s t, (oracle q).outcome s = (.ok a, t)

theorem Oracle.GoesBy.eq_of_gives {oracle : Oracle σ} {A : Arena} {bias : Bias}
    {verdict : IndexSet → Answer} (h : oracle.GoesBy issued A bias verdict) {q : Query}
    {a : Answer} (hg : oracle.Gives q a) (hq : bias.scope ⊆ q.scope) :
    a = verdict (bias.holding A q.valuation) := by
  obtain ⟨s, t, hst⟩ := hg
  exact ((h q s).of_ok hst).2 hq

section Backends

variable {B : Backends σ} {log : σ → List Exchange} {es : List Exchange}
  (hB : B.Lawful issued dom Err) (hsilent : B.Silent log)
include hB hsilent

theorem Backends.Silent.answers (s : σ) (es : List Exchange) :
    B.cp.Answers (Logged issued log s es) dom Err := by
  intro A N t hA hN ht
  apply (((hB.cp.witness A N t hA hN).and (hB.keeps.witness A N t)).and
    (hsilent.witness A N _ t rfl)).mono
  · rintro r u ⟨⟨hr, hg⟩, hlog⟩
    exact ⟨ht.silent hg hlog, hr⟩
  · rintro f u ⟨⟨hf, hg⟩, hlog⟩
    exact ⟨ht.silent hg hlog, hf⟩

theorem Backends.Silent.solveStore {S : ClauseStore} (hS : S.Known issued t)
    (ht : Logged issued log s es t) : (B.sat.solveStore S).Leads t
      (fun r u => Logged issued log s es u ∧ S.Answered r)
      (fun f u => Logged issued log s es u ∧ Err f u) := by
  apply ((hB.sat.solves.solveStore hS).and (hsilent.solve (.ofStore S) _ t rfl)).mono
  · rintro r u ⟨⟨hg, hr⟩, hlog⟩
    exact ⟨ht.silent hg hlog, hr⟩
  · rintro f u ⟨⟨hg, hf⟩, hlog⟩
    exact ⟨ht.silent hg hlog, hf⟩

theorem Backends.Silent.setLimits (l : Limit) (ht : Logged issued log s es t) :
    (B.sat.setLimit l).Leads t
      (fun _ u => (B.cp.setLimit l).Leads u (fun _ u => Logged issued log s es u)
        (fun f u => Logged issued log s es u ∧ Err f u))
      (fun f u => Logged issued log s es u ∧ Err f u) := by
  apply ((hB.sat.setLimit l t).and ((hsilent.limit l _).1 t rfl)).mono
  · rintro _ u ⟨hg, hlog⟩
    have hu := ht.silent hg hlog
    apply (((hB.setLimit l u).and (hB.keeps.setLimit l u)).and ((hsilent.limit l _).2 u rfl)).mono
    · rintro _ w ⟨⟨-, hg⟩, hlog⟩
      exact hu.silent hg hlog
    · rintro f w ⟨⟨hf, hg⟩, hlog⟩
      exact ⟨hu.silent hg hlog, hf⟩
  · rintro f u ⟨⟨hg, hf⟩, hlog⟩
    exact ⟨ht.silent hg hlog, hf⟩

end Backends

/-- The constraints that have an atom. -/
def AtomTable.domain (T : AtomTable) : IndexSet := .ofList (T.entries.map (·.1))

theorem AtomTable.mem_domain {T : AtomTable} {c : ConstraintId} :
    c ∈ T.domain ↔ ∃ l, T.literal c = .ok l := by
  have hsome : c ∈ T.domain ↔ (T.entries.lookup c).isSome := by
    rw [domain, mem_ofList, List.mem_map, List.lookup_isSome_iff]
    refine exists_congr fun p => and_congr_right fun _ => ?_
    rw [beq_iff_eq]
    exact eq_comm
  rw [hsome, literal]
  cases T.entries.lookup c with
  | none => simp
  | some l => simp

theorem Network.Closed.extend {A B : Arena} {N : Network} (hN : N.Closed A) (hext : A.Extends B) :
    N.Closed B := by
  intro c hc
  obtain ⟨hreg, hvars⟩ := hN c hc
  exact ⟨hext.registered hreg, fun v hv => hvars v ((hext.mentions hreg).1 hv)⟩

namespace Concept

variable {C : Concept}

/-- The state of a concept is well formed, however its runs ended, and what is learnt is what
the rejected queries say. Each contradiction given beforehand is about constraints that have
an atom. -/
structure Wf (issued : Issued σ) (t : σ) (C : Concept) : Prop where
  built : C.arena.Built
  bias : C.bias.network.Closed C.arena
  known : C.known.Closed C.arena
  complete : C.bias.Complete
  assigns : C.atoms.Assigns issued t C.atoms.domain
  listed : C.bias.constraints ⊆ C.atoms.domain
  kept : C.background.Valid
  background : ∀ d ∈ C.background.clauses,
    ∃ N, N ⊆ C.atoms.domain ∧ MapSearch.Refuses C.atoms N d
  registered : ∀ c ∈ C.learned.constraints, C.arena.Registered c
  learned : ∀ f, C.learned.Holds C.arena f ↔ ∀ q ∈ C.queries, q.verdict = some false →
    C.bias.holding C.arena q.valuation ≠ C.bias.holding C.arena f

/-- A set that the map of a search may refuse: it cannot be known to hold, or was given as a
contradiction. -/
def Refusable (dom : Ranges) (C : Concept) (N : IndexSet) : Prop :=
  N ⊆ C.bias.constraints ∧ ¬ (whole C.bias C.known).Admits C.arena dom N ∨
    N ⊆ C.atoms.domain ∧ ∃ d ∈ C.background.clauses, MapSearch.Refuses C.atoms N d

/-- A search over the bias that goes on, with the maximal subsets found so far. -/
structure Scans (dom : Ranges) (C : Concept) (found : List IndexSet) (M : MapSearch) : Prop where
  subsets : M.bias = C.bias.constraints
  base : M.base = whole C.bias C.known
  goes : M.exhausted = false
  blocks : MapSearch.Blocks C.atoms ((whole C.bias C.known).Admits C.arena dom)
    (C.Refusable dom) C.bias.constraints found M

/-- Nothing can be known to hold, or each subset of the bias lies in one that was found or
contains one that may be refused. -/
def Exhausts (dom : Ranges) (C : Concept) (found : List IndexSet) : Prop :=
  ¬ (whole C.bias C.known).Satisfiable C.arena dom ∨ ∀ N, N ⊆ C.bias.constraints →
    (∃ u ∈ found, N ⊆ u) ∨ ∃ u, C.Refusable dom u ∧ u ⊆ N

theorem Wf.refusable_subset (h : C.Wf issued t) (N : IndexSet) (hN : C.Refusable dom N) :
    N ⊆ C.atoms.domain := by
  rcases hN with ⟨hN, -⟩ | ⟨hN, -⟩
  · exact Subset.trans hN h.listed
  · exact hN

/-- A search that has not begun refuses the contradictions given beforehand. -/
theorem Wf.scans (h : C.Wf issued t) (dom : Ranges) : Scans dom C [] C.search where
  subsets := search_bias C
  base := search_base C
  goes := rfl
  blocks :=
    { valid := ClauseStore.valid_empty.concat C.background
      clauses := by
        intro d hd
        rcases ClauseStore.mem_of_mem_concat ClauseStore.valid_empty hd with hd | hd
        · obtain ⟨N, hN, href⟩ := h.background d hd
          exact .inr ⟨N, .inr ⟨hN, d, hd, href⟩, href⟩
        · cases hd
      down := nofun
      maximal := nofun
      nodup := .nil }

variable {B : Backends σ} {log : σ → List Exchange} {found : List IndexSet} {M : MapSearch}
  {gained es : List Exchange}

/-- What is known of a search goes on from seed to seed. -/
theorem Wf.carries (h : C.Wf issued s) (hB : B.Lawful issued dom Err) (hsilent : B.Silent log)
    (found : List IndexSet) (gained : List Exchange) :
    MapSearch.Carries issued C.arena dom C.atoms B.sat (Logged issued log s gained) Err
      (Scans dom C found) where
  framed := fun M hM => by
    constructor
    · rw [hM.base]
      exact closed_whole h.known
    · rw [hM.base, hM.subsets]
      exact spans_whole h.bias
  assigns := fun M t hM ht => by
    rw [hM.subsets]
    exact (h.assigns.grows ht.grows).mono h.listed
  solve := fun M t hM ht => by
    apply hsilent.solveStore hB _ ht
    exact hM.blocks.known_map h.listed h.refusable_subset (h.assigns.grows ht.grows)
  refuse := fun M t m N d hM _ _ _ hmin href => by
    rw [hM.subsets, hM.base] at hmin
    have hN : C.Refusable dom N := .inl ⟨hmin.subset, hmin.unsat⟩
    exact ⟨hM.subsets, hM.base, hM.goes, hM.blocks.adding_refused hN href _⟩

/-- How a run may be cut short: its fuel or its time is up, a sum leaves its word, a backend
or the oracle fails, or a query remains without an answer. -/
def Interrupts (Err : Failure → σ → Prop) (f : Failure) (t : σ) : Prop :=
  Learner.Spent Err f t ∨ f = .error .oracleUnknown

/-- A call of the search finds a query that says something new about the bias, or nothing is
left to find. -/
theorem Wf.leads_next (h : C.Wf issued s) (hB : B.Lawful issued dom Err)
    (hsilent : B.Silent log) (fuel : Nat) (hM : Scans dom C found M)
    (ht : Logged issued log s gained t) :
    (MapSearch.next? C.arena C.atoms B.sat B.cp fuel).Leads (M, t)
      (fun r p => Logged issued log s gained p.2 ∧ match r with
        | none => Exhausts dom C found
        | some F => C.bias.scope ⊆ F.witness.scope ∧ F.witness.verdict = none ∧
            Scans dom C (found ++ [C.bias.holding C.arena F.witness.valuation]) p.1)
      (fun f p => Logged issued log s gained p.2 ∧ Interrupts Err f p.2) := by
  have hstarted : Scans dom C found { M with started := true } :=
    ⟨hM.subsets, hM.base, hM.goes, hM.blocks.same rfl⟩
  apply (MapSearch.leads_next_seeds (h.carries hB hsilent found gained) h.built
    (hsilent.answers hB s gained) fuel hM hstarted hM.goes ht).mono
  · rintro r ⟨M', t⟩ ⟨ht, hr | ⟨rfl, hunsat, -⟩⟩
    · refine ⟨ht, ?_⟩
      cases hr with
      | @ended M₁ hK hnone =>
        refine .inr fun N hN => ?_
        exact hK.blocks.decided h.listed h.refusable_subset (h.assigns.grows ht.grows) hnone hN
      | @found M₁ m F d hK hm hsub hmax hsup hoff =>
        rw [hK.subsets] at hsub hmax hoff
        rw [hK.base] at hmax hsup
        have hassigns := (h.assigns.grows ht.grows).mono h.listed
        have hnew := fun hmem => hK.blocks.seed_new hassigns hm hmem hsub
        refine ⟨fun v hv => hsup.solves.covers v (mem_union.2 (.inl hv)),
          hsup.solves.unclassified, hK.subsets, hK.base, hK.goes, ?_⟩
        rw [← hmax.eq_holding hsup]
        exact hK.blocks.adding_found hmax hnew hoff
    · rw [hM.base] at hunsat
      exact ⟨ht, .inl hunsat⟩
  · rintro f ⟨M', t⟩ ⟨ht, -, ⟨-, htime | herr | hover⟩ | ⟨hfuel, -⟩⟩
    · exact ⟨ht, .inl (.inr (.inl htime.1))⟩
    · exact ⟨ht, .inl (.inr (.inr (.inr herr)))⟩
    · exact ⟨ht, .inl (.inr (.inr (.inl hover.1)))⟩
    · exact ⟨ht, .inl (.inl hfuel)⟩

/-! ### What a run notes -/

variable {oracle : Oracle σ} {S : Sweep} {q : Query} {a : Answer}

/-- The exchanges of a run: the oracle gave the answers, and no two queries say the same about
the bias. -/
structure Asked (oracle : Oracle σ) (C : Concept) (gained : List Exchange) : Prop where
  covers : ∀ e ∈ gained, C.bias.scope ⊆ e.1.scope
  gives : ∀ e ∈ gained, oracle.Gives e.1 e.2
  apart : (vectors C.arena C.bias (gained.map (·.1))).Nodup

/-- What a sweep from `C` has noted of the exchanges so far: the queries that were answered,
and what excludes those that were rejected. -/
structure Records (C : Concept) (gained : List Exchange) (S : Sweep) : Prop where
  concept : ∃ k, S.concept = { C with
    timedOut := false, counters := k, queries := C.queries ++ answered gained }
  rejected : ∀ ms ∈ S.rejected, ∃ q ∈ answered gained, q.verdict = some false ∧
    Excludes C.arena C.bias q.valuation ms
  excluded : ∀ q ∈ answered gained, q.verdict = some false →
    ∃ ms ∈ S.rejected, Excludes C.arena C.bias q.valuation ms

theorem vectors_append (A : Arena) (bias : Bias) (es : List Exchange) (e : Exchange) :
    vectors A bias ((es ++ [e]).map (·.1)) =
      vectors A bias (es.map (·.1)) ++ [bias.holding A e.1.valuation] := by
  rw [vectors, vectors, List.map_append, List.map_append]
  rfl

theorem Asked.append (h : Asked oracle C gained) (hcovers : C.bias.scope ⊆ q.scope)
    (hgives : oracle.Gives q a) (hnew : (vectors C.arena C.bias (gained.map (·.1)) ++
      [C.bias.holding C.arena q.valuation]).Nodup) : Asked oracle C (gained ++ [(q, a)]) where
  covers := List.forall_mem_append.2 ⟨h.covers, List.forall_mem_singleton.2 hcovers⟩
  gives := List.forall_mem_append.2 ⟨h.gives, List.forall_mem_singleton.2 hgives⟩
  apart := by
    rw [vectors_append]
    exact hnew

theorem Records.exclusion_eq (h : Records C gained S) (q : Query) :
    S.concept.exclusion q = C.exclusion q := by
  obtain ⟨⟨k, hk⟩, -, -⟩ := h
  rw [hk]
  rfl

/-- Only the counters tell of a query that was not answered. -/
theorem Records.count (h : Records C gained S) (k : Counters)
    (hsame : answered es = answered gained) :
    Records C es { S with concept := { S.concept with counters := k } } := by
  obtain ⟨⟨k', hk'⟩, hrejected, hexcluded⟩ := h
  refine ⟨⟨k, ?_⟩, ?_, ?_⟩
  · rw [hk', hsame]
  · rw [hsame]
    exact hrejected
  · rw [hsame]
    exact hexcluded

theorem Records.note (h : Records C gained S) (hb : C.bias.network.Closed C.arena)
    (hcovers : C.bias.scope ⊆ q.scope) {b : Bool} {S' : Sweep} (hnotes : S.Notes q b S') :
    Records C (gained ++ [(q, .ofBool b)]) S' := by
  have hexclusion := h.exclusion_eq q
  obtain ⟨⟨k', hk'⟩, hrejected, hexcluded⟩ := h
  have hadd : answered (gained ++ [(q, .ofBool b)]) =
      answered gained ++ [{ q with verdict := some b }] := by
    rw [answered_append, answered_ofBool]
  cases hnotes with
  | accepted k =>
    refine ⟨⟨k, ?_⟩, ?_, ?_⟩
    · rw [hadd, hk', List.append_assoc]
    · intro ms hms
      obtain ⟨r, hr, h⟩ := hrejected ms hms
      rw [hadd]
      exact ⟨r, List.mem_append_left _ hr, h⟩
    · intro r hr hv
      rw [hadd] at hr
      rcases List.mem_append.1 hr with hr | hr
      · exact hexcluded r hr hv
      · rw [List.mem_singleton.1 hr] at hv
        cases hv
  | @rejected k members hmembers =>
    have hspec : Excludes C.arena C.bias q.valuation members :=
      exclusion_spec hb hcovers (hexclusion ▸ hmembers)
    refine ⟨⟨k, ?_⟩, ?_, ?_⟩
    · rw [hadd, hk', List.append_assoc]
    · rw [hadd]
      intro ms hms
      rcases List.mem_append.1 hms with hms | hms
      · obtain ⟨r, hr, h⟩ := hrejected ms hms
        exact ⟨r, List.mem_append_left _ hr, h⟩
      · rw [List.mem_singleton.1 hms]
        exact ⟨_, List.mem_append_right _ (List.mem_singleton_self _), rfl, hspec⟩
    · rw [hadd]
      intro r hr hv
      rcases List.mem_append.1 hr with hr | hr
      · obtain ⟨ms, hms, hex⟩ := hexcluded r hr hv
        exact ⟨ms, List.mem_append_left _ hms, hex⟩
      · rw [List.mem_singleton.1 hr]
        exact ⟨members, List.mem_append_right _ (List.mem_singleton_self _), hspec⟩

/-- How the enumeration of a run may be cut short. Unless a promise is broken, the log has no
exchange that is not accounted for. -/
def CutShort (issued : Issued σ) (Err : Failure → σ → Prop) (log : σ → List Exchange)
    (oracle : Oracle σ) (C : Concept) (s : σ) (f : Failure) (p : Sweep × σ) : Prop :=
  Interrupts Err f p.2 ∧ ∃ gained, Asked oracle C gained ∧ Records C gained p.1 ∧
    ((∀ e, f ≠ .fault e) → Logged issued log s gained p.2)

/-- A query is noted if it is answered. -/
theorem Records.leads_judge (h : Records C gained S) (hasked : Asked oracle C gained)
    (hb : C.bias.network.Closed C.arena) (horacle : oracle.Logs issued Err log)
    (ht : Logged issued log s gained t) (hcovers : C.bias.scope ⊆ q.scope)
    (hfree : q.verdict = none) (hnew : (vectors C.arena C.bias (gained.map (·.1)) ++
      [C.bias.holding C.arena q.valuation]).Nodup) :
    Action.Leads (judge oracle q) (S, t)
      (fun _ p => p.1.search = S.search ∧ ∃ b, Asked oracle C (gained ++ [(q, .ofBool b)]) ∧
        Records C (gained ++ [(q, .ofBool b)]) p.1 ∧
        Logged issued log s (gained ++ [(q, .ofBool b)]) p.2)
      (CutShort issued Err log oracle C s) := by
  apply (leads_judge_notes hfree ((horacle q t).and (Action.leads_outcome (oracle q) t))).mono
  · rintro _ ⟨S', u⟩ ⟨b, ⟨hlog, hgives⟩, hnotes⟩
    refine ⟨?_, b, hasked.append hcovers ⟨_, _, hgives⟩ hnew,
      h.note hb hcovers hnotes, ht.trans hlog⟩
    cases hnotes <;> rfl
  · rintro f ⟨S', u⟩ ⟨⟨k, rfl⟩, ⟨⟨hlog, herr⟩, -⟩ | ⟨rfl, hlog, hgives⟩ | ⟨e, rfl, he⟩⟩
    · refine ⟨.inl (.inr (.inr (.inr herr))), gained, hasked, h.count k rfl, fun _ => ?_⟩
      rw [← List.append_nil gained]
      exact ht.trans hlog
    · refine ⟨.inr rfl, gained ++ [(q, .unknown)], hasked.append hcovers ⟨_, _, hgives⟩ hnew,
        h.count k ?_, fun _ => ht.trans hlog⟩
      rw [answered_append]
      exact List.append_nil _
    · cases exclusion_error hb (h.exclusion_eq q ▸ he)
      exact ⟨.inl (.inr (.inr (.inl rfl))), gained, hasked, h.count k rfl,
        fun hno => absurd rfl (hno _)⟩

/-- How far a run that goes on has come. All its queries were answered. -/
def Ongoing (issued : Issued σ) (log : σ → List Exchange) (dom : Ranges) (oracle : Oracle σ)
    (C : Concept) (s : σ) (S : Sweep) (t : σ) : Prop :=
  ∃ gained, Asked oracle C gained ∧ Records C gained S ∧ Logged issued log s gained t ∧
    (∀ e ∈ gained, e.2 ≠ .unknown) ∧
    Scans dom C (vectors C.arena C.bias (gained.map (·.1))) S.search

theorem Wf.leads_enumerate (h : C.Wf issued s) (hB : B.Lawful issued dom Err)
    (hsilent : B.Silent log) (horacle : oracle.Logs issued Err log) (fuel : Nat)
    (hS : Ongoing issued log dom oracle C s S t) :
    Action.Leads (enumerate B oracle fuel) (S, t)
      (fun _ p => ∃ gained, Asked oracle C gained ∧ Records C gained p.1 ∧
        Logged issued log s gained p.2 ∧ (∀ e ∈ gained, e.2 ≠ .unknown) ∧
        Exhausts dom C (vectors C.arena C.bias (gained.map (·.1))))
      (CutShort issued Err log oracle C s) := by
  have hsearch : ∀ {gained S} (M : MapSearch), Records C gained S →
      Records C gained { S with search := M } :=
    fun M hrec => ⟨hrec.concept, hrec.rejected, hrec.excluded⟩
  apply leads_enumerate_of _ _ fuel hS
  · rintro S t fuel ⟨gained, hasked, hrec, hlog, hanswers, hscans⟩
    obtain ⟨k, hk⟩ := hrec.concept
    have harena : S.concept.arena = C.arena := by rw [hk]
    have hatoms : S.concept.atoms = C.atoms := by rw [hk]
    rw [harena, hatoms]
    apply (h.leads_next hB hsilent fuel hscans hlog).mono
    · rintro r p ⟨hlog, hr⟩
      cases r with
      | none => exact ⟨gained, hasked, hsearch p.1 hrec, hlog, hanswers, hr⟩
      | some F =>
        obtain ⟨hcovers, hfree, hscans⟩ := hr
        apply ((hsearch p.1 hrec).leads_judge hasked h.bias horacle hlog hcovers hfree
          hscans.blocks.nodup).mono _ fun _ _ hf => hf
        rintro _ p' ⟨hsame, b, hasked, hrec, hlog⟩
        refine ⟨_, hasked, hrec, hlog, ?_, ?_⟩
        · apply List.forall_mem_append.2 ⟨hanswers, List.forall_mem_singleton.2 _⟩
          cases b <;> exact Answer.noConfusion
        · rw [vectors_append, hsame]
          exact hscans
    · rintro f p ⟨hlog, hf⟩
      exact ⟨hf, gained, hasked, hsearch p.1 hrec, fun _ => hlog⟩
  · rintro S t ⟨gained, hasked, hrec, hlog, -, -⟩
    exact ⟨.inl (.inl rfl), gained, hasked, hrec, fun _ => hlog⟩

/-! ### What a run leaves behind -/

/-- Where a run from `C` has led that had these exchanges. -/
structure Leaves (issued : Issued σ) (log : σ → List Exchange) (C : Concept) (s : σ)
    (gained : List Exchange) (p : Concept × σ) : Prop where
  logged : Logged issued log s gained p.2
  wf : p.1.Wf issued p.2
  arena : C.arena.Extends p.1.arena
  bias : p.1.bias = C.bias
  known : p.1.known = C.known
  background : p.1.background = C.background
  queries : p.1.queries = C.queries ++ answered gained

theorem Wf.grows (h : C.Wf issued s) (hg : issued.Grows s t) : C.Wf issued t :=
  ⟨h.built, h.bias, h.known, h.complete, h.assigns.grows hg, h.listed, h.kept, h.background,
    h.registered, h.learned⟩

/-- The disjunctions that are still to be learnt can all be learnt, and with them a valuation
is excluded if it agrees on the bias with a rejected query. -/
theorem Records.exists_learn (hrec : Records C gained S) (h : C.Wf issued s) :
    ∃ A N, S.concept.learn S.rejected = .ok { S.concept with arena := A, learned := N } ∧
      C.arena.Extends A ∧ A.Built ∧ (∀ c ∈ N.constraints, A.Registered c) ∧
      ∀ f, N.Holds A f ↔ ∀ q ∈ C.queries ++ answered gained, q.verdict = some false →
        C.bias.holding C.arena q.valuation ≠ C.bias.holding C.arena f := by
  obtain ⟨⟨k, hk⟩, hrejected, hexcluded⟩ := hrec
  have harena : S.concept.arena = C.arena := by rw [hk]
  have hlearned : S.concept.learned = C.learned := by rw [hk]
  have hbuilt : S.concept.arena.Built := harena ▸ h.built
  have hregistered : ∀ c ∈ S.concept.learned.constraints, S.concept.arena.Registered c := by
    rw [hlearned, harena]
    exact h.registered
  have hmembers : ∀ ms ∈ S.rejected, ∀ d ∈ ms, S.concept.arena.Registered d := by
    intro ms hms d hd
    obtain ⟨q, -, -, hex⟩ := hrejected ms hms
    obtain ⟨c, hc, rfl⟩ := (hex d).1 hd
    rw [harena]
    exact h.built.paired.registered_twin (h.bias c (Bias.mem_holding.1 hc).1).1
  obtain ⟨A, N, hlearn, hreg⟩ := Concept.exists_learn hbuilt hregistered hmembers
  obtain ⟨hext, hA, -, hholds⟩ := learn_spec hbuilt hlearn
  rw [harena] at hext
  refine ⟨A, N, hlearn, hext, hA, hreg, fun f => ?_⟩
  have hbefore : S.concept.learned.Holds A f ↔ C.learned.Holds C.arena f := by
    rw [hlearned]
    exact forall₂_congr fun c hc => hext.holds (h.registered c hc) f
  have hnew : (∀ ms ∈ S.rejected, ∃ d ∈ ms, A.Holds f d) ↔ ∀ q ∈ answered gained,
      q.verdict = some false → C.bias.holding C.arena q.valuation ≠ C.bias.holding C.arena f := by
    have hapart : ∀ {q : Query} {ms : IndexSet}, Excludes C.arena C.bias q.valuation ms →
        ((∃ d ∈ ms, A.Holds f d) ↔
          C.bias.holding C.arena q.valuation ≠ C.bias.holding C.arena f) := by
      intro q ms hex
      rw [hex.exists_holds h.bias hext hA f]
      apply not_congr
      exact ⟨h.complete.holding_eq_of_subset h.built h.bias, fun heq => heq ▸ Subset.refl _⟩
    constructor
    · intro hall q hq hv
      obtain ⟨ms, hms, hex⟩ := hexcluded q hq hv
      exact (hapart hex).1 (hall ms hms)
    · intro hall ms hms
      obtain ⟨q, hq, hv, hex⟩ := hrejected ms hms
      exact (hapart hex).2 (hall q hq hv)
  rw [List.forall_mem_append, ← h.learned f, ← hnew, ← hbefore]
  exact hholds f

/-- What has been noted is learnt, also if the run fails. -/
theorem Records.exists_leaves (hrec : Records C gained S) (h : C.Wf issued s) :
    ∃ A N, S.concept.learn S.rejected = .ok { S.concept with arena := A, learned := N } ∧
      ∀ (log : σ → List Exchange) t, Logged issued log s gained t → ∀ k ms o,
        Leaves issued log C s gained
          ({ S.concept with arena := A, learned := N, counters := k, muses := ms, timedOut := o },
            t) := by
  obtain ⟨A, N, hlearn, hext, hA, hreg, hholds⟩ := hrec.exists_learn h
  refine ⟨A, N, hlearn, fun log t ht k ms o => ?_⟩
  obtain ⟨k', hk'⟩ := hrec.concept
  rw [hk']
  refine ⟨ht, ?_, hext, rfl, rfl, rfl, rfl⟩
  refine ⟨hA, h.bias.extend hext, h.known.extend hext, h.complete, h.assigns.grows ht.grows,
    h.listed, h.kept, h.background, hreg, fun f => ?_⟩
  dsimp only
  simp only [Bias.holding_of_extends hext h.bias]
  exact hholds f

theorem asked_nil (oracle : Oracle σ) (C : Concept) : Asked oracle C [] :=
  ⟨List.forall_mem_nil _, List.forall_mem_nil _, .nil⟩

/-- Nothing has been noted when a run begins. -/
theorem records_start (C : Concept) (M : MapSearch) :
    Records C [] { concept := { C with timedOut := false }, search := M } := by
  refine ⟨⟨C.counters, ?_⟩, List.forall_mem_nil _, List.forall_mem_nil _⟩
  rw [show answered [] = [] from rfl, List.append_nil]

/-- However a run ends, unless it breaks a promise, it leaves behind what it was told. -/
theorem Wf.leads_process (h : C.Wf issued s) (hB : B.Lawful issued dom Err)
    (hsilent : B.Silent log) (horacle : oracle.Logs issued Err log) (fuel : Nat) :
    Action.Leads (process B oracle fuel) (C, s)
      (fun o p => ∃ gained, Asked oracle C gained ∧ Leaves issued log C s gained p ∧
        (o = .converged → (∀ e ∈ gained, e.2 ≠ .unknown) ∧
          Exhausts dom C (vectors C.arena C.bias (gained.map (·.1)))))
      (fun f p => Interrupts Err f p.2 ∧ ((∀ e, f ≠ .fault e) →
        ∃ gained, Asked oracle C gained ∧ Leaves issued log C s gained p)) := by
  have hnone := asked_nil oracle C
  have hidle : ∀ t, Logged issued log s [] t → Leaves issued log C s [] (C, t) := fun t ht =>
    ⟨ht, h.grows ht.grows, .refl _, rfl, rfl, rfl, (List.append_nil _).symm⟩
  simp only [process, Action.leads_bind, Procedure.leads_own, Procedure.leads_call,
    Action.leads_pure, Procedure.leads_update, Procedure.leads_within, Action.leads_attempt]
  have hfails : ∀ f t, Logged issued log s [] t ∧ Err f t →
      Interrupts Err f t ∧ ((∀ e, f ≠ .fault e) →
        ∃ gained, Asked oracle C gained ∧ Leaves issued log C s gained (C, t)) :=
    fun f t hf => ⟨.inl (.inr (.inr (.inr hf.2))), fun _ => ⟨[], hnone, hidle t hf.1⟩⟩
  apply (hsilent.setLimits hB _ (.refl issued log s)).mono _ hfails
  intro _ t₁ ht₁
  apply ht₁.mono _ hfails
  intro _ t ht
  have hstart : Ongoing issued log dom oracle C s
      { concept := { C with timedOut := false }, search := C.search } t :=
    ⟨[], hnone, records_start C C.search, ht, List.forall_mem_nil _, h.scans dom⟩
  apply (h.leads_enumerate hB hsilent horacle fuel hstart).mono
  · rintro _ p ⟨gained, hasked, hrec, hlog, hanswers, hdone⟩
    obtain ⟨A, N, hlearn, hleaves⟩ := hrec.exists_leaves h
    apply (Procedure.leads_check_of hlearn).2
    exact ⟨gained, hasked, hleaves _ _ hlog _ _ _, fun _ => ⟨hanswers, hdone⟩⟩
  · rintro f p ⟨hf, gained, hasked, hrec, hlog⟩
    obtain ⟨A, N, hlearn, hleaves⟩ := hrec.exists_leaves h
    apply (Procedure.leads_check_of hlearn).2
    -- A run that fails at a limit ends in a timeout, and any other failure is its own.
    split
    · next he => cases he
    · next he =>
      cases he
      rw [Action.leads_bind, Procedure.leads_update, Action.leads_pure]
      exact ⟨gained, hasked, hleaves _ _ (hlog fun _ => Failure.noConfusion) _ _ _,
        Outcome.noConfusion⟩
    · next he =>
      cases he
      rw [Action.leads_bind, Procedure.leads_update, Action.leads_pure]
      exact ⟨gained, hasked, hleaves _ _ (hlog fun _ => Failure.noConfusion) _ _ _,
        Outcome.noConfusion⟩
    · next he =>
      cases he
      exact ⟨hf, fun hno => ⟨gained, hasked, hleaves _ _ (hlog hno) _ _ _⟩⟩

end Concept

end Acquisition
