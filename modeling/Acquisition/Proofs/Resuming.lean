import Acquisition.Proofs.Interruptions
import Acquisition.Proofs.Simplification

/-!
# A run that goes on where others were cut short

A concept may be run any number of times, with other settings and another oracle each time,
and be simplified in between. However these runs ended, what is learnt are the rejected
queries and nothing else. So when the next run converges, what is learnt is what the oracle
goes by, as if nothing had been asked before.
-/
namespace Acquisition

open Checked IndexSet

variable {σ : Type} {issued : Issued σ} {Err : Failure → σ → Prop} {dom : Ranges} {A : Arena}
  {bias : Bias} {known : Network} {s t : σ}

/-! ### Calls of the constraint backend -/

section Calls

variable {cp : CpBackend σ} {I : σ → Prop} (h : ∀ A N, (cp.witness A N).Preserves I)
include h

theorem CpBackend.preserves_impliesAll (A : Arena) (N : Network) (cs : List ConstraintId) :
    (cp.impliesAll A N cs).Preserves I := by
  induction cs with
  | nil => exact Action.preserves_pure _ I
  | cons c cs ih =>
    apply (Action.preserves_ofChecked _ I).bind
    intro M
    have hsat : (cp.satisfiable A M).Preserves I := fun s hs =>
      (Action.leads_map _ _ s _ _).2 (h A M s hs)
    apply hsat.bind
    intro b
    cases b with
    | true => exact Action.preserves_pure _ I
    | false => exact ih

theorem CpBackend.preserves_equivalent (A : Arena) (N M known : Network) :
    (cp.equivalent A N M known).Preserves I := by
  apply (cp.preserves_impliesAll h A _ _).bind
  intro b
  cases b with
  | true => exact cp.preserves_impliesAll h A _ _
  | false => exact Action.preserves_pure _ I

theorem Simplify.preserves_dropRedundant (A : Arena) (known N : Network)
    (cs : List ConstraintId) : (dropRedundant cp A known N cs).Preserves I := by
  induction cs generalizing N with
  | nil => exact Action.preserves_pure _ I
  | cons c cs ih =>
    apply (cp.preserves_equivalent h A N _ known).bind
    intro b
    cases b with
    | true => exact ih (N.remove c)
    | false => exact ih N

/-- Redundant constraints are found by calls of the backend alone. -/
theorem Simplify.preserves_removeRedundant (A : Arena) (N known : Network) :
    (removeRedundant cp A N known).Preserves I :=
  (Action.preserves_ofChecked _ I).bind fun _ => preserves_dropRedundant h A known _ _

end Calls

namespace Concept

/-! ### What a concept goes through -/

/-- A concept over the bias, whose arena may have grown since it was started. -/
structure Stands (issued : Issued σ) (A : Arena) (bias : Bias) (known : Network)
    (p : Concept × σ) : Prop where
  wf : p.1.Wf issued p.2
  arena : A.Extends p.1.arena
  bias : p.1.bias = bias
  known : p.1.known = known

variable {C : Concept} {p p' : Concept × σ}

theorem Fresh.stands (h : Fresh issued A bias known [] C t) (hA : A.Built)
    (hb : bias.network.Closed A) (hk : known.Closed A) : Stands issued A bias known (C, t) := by
  obtain ⟨hcomplete, hnames, hassigns, hbackground, hlearned, hqueries, rfl, rfl, rfl⟩ := h
  have hempty : C.background = .empty := (Except.ok.inj hbackground).symm
  refine ⟨⟨hA, hb, hk, hcomplete, ⟨?_, ?_⟩, ?_, ?_, ?_, ?_, ?_⟩, .refl _, rfl, rfl⟩
  · intro c hc
    obtain ⟨l, hl⟩ := AtomTable.mem_domain.1 hc
    exact ⟨l, hl, hnames.entry c l hl⟩
  · exact fun c _ d _ l m hl hm => hnames.apart c d l m hl hm
  · intro c hc
    obtain ⟨l, hl, -⟩ := hassigns.literal c hc
    exact AtomTable.mem_domain.2 ⟨l, hl⟩
  · exact hempty ▸ ClauseStore.valid_empty
  · rw [hempty]
    exact nofun
  · rw [hlearned]
    exact fun c hc => absurd hc (mem_empty c)
  · intro f
    rw [hlearned, hqueries]
    exact iff_of_true (Network.holds_ofScope _ _ f) nofun

theorem Stands.grows (h : Stands issued A bias known (C, s)) (hg : issued.Grows s t) :
    Stands issued A bias known (C, t) := ⟨h.wf.grows hg, h.arena, h.bias, h.known⟩

/-- Whatever else is registered, the concept stays well formed. -/
theorem Wf.extend (h : C.Wf issued t) {B : Arena} (hext : C.arena.Extends B) (hB : B.Built) :
    Wf issued t { C with arena := B } where
  built := hB
  bias := h.bias.extend hext
  known := h.known.extend hext
  complete := h.complete
  assigns := h.assigns
  listed := h.listed
  kept := h.kept
  background := h.background
  registered := fun c hc => hext.registered (h.registered c hc)
  learned := by
    intro f
    simp only [Bias.holding_of_extends hext h.bias]
    rw [← h.learned f]
    exact forall₂_congr fun c hc => hext.holds (h.registered c hc) f

theorem Wf.record (h : C.Wf issued t) {N : Network} {K : ClauseStore}
    (hK : Contradiction.record C.atoms C.background N = .ok K) :
    Wf issued t { C with background := K } := by
  obtain ⟨d, rfl, -, hlisted, hd⟩ := Contradiction.record_eq_ok hK
  refine ⟨h.built, h.bias, h.known, h.complete, h.assigns, h.listed, h.kept.adding d, ?_,
    h.registered, h.learned⟩
  intro e he
  rcases ClauseStore.mem_of_mem_adding h.kept he with rfl | he
  · exact ⟨N.constraints, fun c hc => AtomTable.mem_domain.2 (hlisted c hc), hd⟩
  · exact h.background e he

theorem preserves_addBackground (Ns : List Network) :
    Action.Preserves (addBackground Ns : Procedure Concept σ Unit)
      (Stands issued A bias known) := by
  induction Ns with
  | nil => exact Action.preserves_pure _ _
  | cons N Ns ih =>
    intro p hp
    rw [addBackground, Action.leads_bind, Procedure.leads_own, Action.leads_bind,
      Action.leads_ofExcept]
    refine ⟨fun K hK => ?_, fun _ _ => hp⟩
    rw [Action.leads_bind, Procedure.leads_update]
    exact ih _ ⟨hp.wf.record hK, hp.arena, hp.bias, hp.known⟩

theorem preserves_simplify (muses : List IndexSet) (fuel : Nat) :
    Action.Preserves (simplify muses fuel : Procedure Concept σ Network)
      (Stands issued A bias known) := by
  intro p hp
  rw [simplify, Action.leads_bind, Procedure.leads_own, Action.leads_bind,
    Action.leads_ofExcept]
  refine ⟨fun r hr => ?_, fun _ _ => hp⟩
  have hrewrites := Simplify.rounds_rewrites hr
  have hbuilt := hrewrites.built hp.wf.built
  rw [Action.leads_bind, Procedure.leads_update]
  exact ⟨hp.wf.extend hrewrites.grows hbuilt, hp.arena.trans hrewrites.grows, hp.bias, hp.known⟩

theorem preserves_removeRedundant {cp : CpBackend σ} (hk : cp.Keeps issued) (N M : Network) :
    Action.Preserves (removeRedundant cp N M) (Stands issued A bias known) := by
  rintro ⟨C, s⟩ hp
  have hcalls : ∀ A N, (cp.witness A N).Preserves (issued.Grows s) := fun A N t ht =>
    (hk.witness A N t).mono (fun _ _ hg => ht.trans hg) fun _ _ hg => ht.trans hg
  rw [removeRedundant, Procedure.leads_callWith]
  apply (Simplify.preserves_removeRedundant hcalls C.arena N M s (.refl issued s)).mono
  · exact fun _ _ hg => hp.grows hg
  · exact fun _ _ hg => hp.grows hg

theorem preserves_simplified {cp : CpBackend σ} (hk : cp.Keeps issued) (fuel : Nat) :
    Action.Preserves (simplified cp fuel) (Stands issued A bias known) := by
  intro p hp
  rw [simplified, Action.leads_bind, Procedure.leads_own]
  exact (preserves_simplify _ fuel).bind (fun N => preserves_removeRedundant hk N _) p hp

/-- The states of a concept over the bias: it was started, and since then run any number of
times without breaking a promise, warned of contradictions, simplified, or given other settings
and counters, and the world went on. -/
inductive Reached (B : Backends σ) (issued : Issued σ) (Err : Failure → σ → Prop)
    (log : σ → List Exchange) (A : Arena) (bias : Bias) (known : Network) :
    Concept × σ → Prop
  | start {settings : Settings} {s t : σ} {C : Concept} :
      (start B.sat settings A bias known).outcome s = (.ok C, t) →
      Reached B issued Err log A bias known (C, t)
  | addBackground (Ns : List Network) {p p' : Concept × σ} {r : Except Failure Unit} :
      Reached B issued Err log A bias known p → Action.outcome (addBackground Ns) p = (r, p') →
      Reached B issued Err log A bias known p'
  | process {oracle : Oracle σ} (fuel : Nat) {p p' : Concept × σ} {r : Except Failure Outcome} :
      Reached B issued Err log A bias known p → oracle.Logs issued Err log →
      Action.outcome (process B oracle fuel) p = (r, p') → (∀ e, r ≠ .error (.fault e)) →
      Reached B issued Err log A bias known p'
  | simplify (muses : List IndexSet) (fuel : Nat) {p p' : Concept × σ}
      {r : Except Failure Network} : Reached B issued Err log A bias known p →
      Action.outcome (simplify muses fuel) p = (r, p') →
      Reached B issued Err log A bias known p'
  | removeRedundant (N M : Network) {p p' : Concept × σ} {r : Except Failure Network} :
      Reached B issued Err log A bias known p →
      Action.outcome (removeRedundant B.cp N M) p = (r, p') →
      Reached B issued Err log A bias known p'
  | simplified (fuel : Nat) {p p' : Concept × σ} {r : Except Failure Network} :
      Reached B issued Err log A bias known p →
      Action.outcome (simplified B.cp fuel) p = (r, p') →
      Reached B issued Err log A bias known p'
  | prepare (settings : Settings) (counters : Counters) {p : Concept × σ} :
      Reached B issued Err log A bias known p → Reached B issued Err log A bias known
        ({ p.1 with settings := settings, counters := counters }, p.2)
  | world {C : Concept} {s t : σ} : Reached B issued Err log A bias known (C, s) →
      issued.Grows s t → Reached B issued Err log A bias known (C, t)

variable {B : Backends σ} {log : σ → List Exchange} {oracle : Oracle σ} {gained : List Exchange}

theorem Leaves.stands (h : Leaves issued log C s gained p)
    (hC : Stands issued A bias known (C, s)) : Stands issued A bias known p :=
  ⟨h.wf, hC.arena.trans h.arena, h.bias.trans hC.bias, h.known.trans hC.known⟩

/-- Whatever a concept went through, what is learnt is what the rejected queries say. -/
theorem Reached.stands (hB : B.Lawful issued dom Err) (hsilent : B.Silent log) (hA : A.Built)
    (hb : bias.network.Closed A) (hk : known.Closed A)
    (hp : Reached B issued Err log A bias known p) : Stands issued A bias known p := by
  induction hp with
  | @start settings s t C hstart =>
    exact ((leads_start hB.sat settings hA hb hk).of_ok hstart).2.stands hA hb hk
  | addBackground Ns _ hrun ih => exact (preserves_addBackground Ns).of_outcome ih hrun
  | @process oracle fuel p p' r _ horacle hrun hr ih =>
    have hends := ih.wf.leads_process hB hsilent horacle fuel
    cases r with
    | ok o =>
      obtain ⟨gained, -, hleaves, -⟩ := hends.of_ok hrun
      exact hleaves.stands ih
    | error f =>
      obtain ⟨gained, -, hleaves⟩ := (hends.of_error hrun).2 fun e he => hr e (he ▸ rfl)
      exact hleaves.stands ih
  | simplify muses fuel _ hrun ih => exact (preserves_simplify muses fuel).of_outcome ih hrun
  | removeRedundant N M _ hrun ih =>
    exact (preserves_removeRedundant hB.keeps N M).of_outcome ih hrun
  | simplified fuel _ hrun ih => exact (preserves_simplified hB.keeps fuel).of_outcome ih hrun
  | prepare settings counters _ ih =>
    obtain ⟨hwf, harena, hbias, hknown⟩ := ih
    exact ⟨⟨hwf.built, hwf.bias, hwf.known, hwf.complete, hwf.assigns, hwf.listed, hwf.kept,
      hwf.background, hwf.registered, hwf.learned⟩, harena, hbias, hknown⟩
  | world _ hg ih => exact ih.grows hg

/-! ### What a run keeps -/

/-- A run from `p` to `p'` keeps what it asked: the queries that were answered are noted in
their order, no two queries agree on the bias, and what is learnt excludes the assignments that
agree on the bias with a rejected query. -/
structure Kept (log : σ → List Exchange) (A : Arena) (bias : Bias) (p : Concept × σ)
    (gained : List Exchange) (p' : Concept × σ) : Prop where
  appends : log p'.2 = log p.2 ++ gained
  queries : p'.1.queries = p.1.queries ++ answered gained
  covers : ∀ e ∈ gained, bias.scope ⊆ e.1.scope
  apart : gained.Pairwise fun e e' =>
    ¬ ∀ c ∈ bias.constraints, (A.Holds e.1.valuation c ↔ A.Holds e'.1.valuation c)
  learned : ∀ f, ¬ p'.1.learned.Holds p'.1.arena f ↔ ∃ q ∈ p'.1.queries,
    q.verdict = some false ∧ ∀ c ∈ bias.constraints, (A.Holds q.valuation c ↔ A.Holds f c)

theorem Leaves.kept {p : Concept × σ} (h : Leaves issued log p.1 p.2 gained p')
    (hasked : Asked oracle p.1 gained) (hp : Stands issued A bias known p)
    (hb : bias.network.Closed A) : Kept log A bias p gained p' := by
  have hholding : ∀ f, p'.1.bias.holding p'.1.arena f = bias.holding A f := by
    intro f
    rw [h.bias, hp.bias, Bias.holding_of_extends (hp.arena.trans h.arena) hb]
  have hbefore : ∀ f, p.1.bias.holding p.1.arena f = bias.holding A f := by
    intro f
    rw [hp.bias, Bias.holding_of_extends hp.arena hb]
  refine ⟨h.logged.appends, h.queries, hp.bias ▸ hasked.covers, ?_, fun f => ?_⟩
  · have hapart := hasked.apart
    rw [vectors, List.map_map, List.Nodup, List.pairwise_map] at hapart
    apply hapart.imp
    intro e e' hne hall
    apply hne
    dsimp only [Function.comp]
    rw [hbefore, hbefore]
    exact Bias.holding_eq_iff.2 hall
  · rw [h.wf.learned f]
    push Not
    simp only [hholding, Bias.holding_eq_iff]

/-! ### What a run converges to -/

/-- The verdicts on the queries so far are those that an oracle would give again. -/
def Confirms (A : Arena) (verdict : IndexSet → Answer) (C : Concept) : Prop :=
  ∀ q ∈ C.queries, ∀ b, q.verdict = some b → verdict (C.bias.holding A q.valuation) = .ofBool b

instance (A : Arena) (verdict : IndexSet → Answer) (C : Concept) :
    Decidable (C.Confirms A verdict) :=
  inferInstanceAs (Decidable (∀ q ∈ C.queries, ∀ b, q.verdict = some b →
    verdict (C.bias.holding A q.valuation) = .ofBool b))

/-- The contradictions given beforehand are real: where what is known holds, one of the
constraints fails. -/
def Forewarned (dom : Ranges) (A : Arena) (C : Concept) : Prop :=
  ∀ d ∈ C.background.clauses, ∀ f : Valuation, f.Within dom (C.bias.scope.union C.known.scope) →
    C.known.Holds A f → ∃ l ∈ d.literals, ¬ A.Holds f l.constraint

/-- Once the search is over, each assignment that satisfies what is known agrees on the bias
with a query of the run. -/
theorem Wf.exists_agreeing (h : C.Wf issued s) (hext : A.Extends C.arena)
    (hb : C.bias.network.Closed A) (hk : C.known.Closed A) (hreal : C.Forewarned dom A)
    (hdone : Exhausts dom C (vectors C.arena C.bias (gained.map (·.1)))) {f : Valuation}
    (hf : f.Within dom (C.bias.scope.union C.known.scope)) (hknown : C.known.Holds A f) :
    ∃ e ∈ gained, C.bias.holding A e.1.valuation = C.bias.holding A f := by
  have hwhole : (whole C.bias C.known).Holds C.arena f :=
    holds_whole.2 fun c hc => (hext.holds (hk c hc).1 f).2 (hknown c hc)
  have hholding : ∀ g, C.bias.holding C.arena g = C.bias.holding A g :=
    Bias.holding_of_extends hext hb
  rcases hdone with hunsat | hdecided
  · exact absurd ⟨f, hf, hwhole⟩ hunsat
  · rcases hdecided _ (Bias.holding_subset f) with
      ⟨N, hN, hsub⟩ | ⟨N, ⟨-, hno⟩ | ⟨hN, d, hd, href⟩, hsub⟩
    · obtain ⟨q, hq, rfl⟩ := List.mem_map.1 hN
      obtain ⟨e, he, rfl⟩ := List.mem_map.1 hq
      have heq := h.complete.holding_eq_of_subset h.built h.bias hsub
      rw [hholding, hholding] at heq
      exact ⟨e, he, heq.symm⟩
    · exact absurd ⟨f, hf, hwhole, fun c hc => (Bias.mem_holding.1 (hsub c hc)).2⟩ hno
    · obtain ⟨l, hl, hfails⟩ := hreal d hd f hf hknown
      obtain ⟨c, hc, hcl⟩ := (href l).1 hl
      obtain ⟨m, hm, -, hmc, -⟩ := h.assigns.literal c (hN c hc)
      have hlc : l.constraint = c := by
        rw [← hmc, Except.ok.inj (hm.symm.trans hcl)]
        rfl
      rw [hholding] at hsub
      exact absurd (Bias.mem_holding.1 (hsub c hc)).2 (hlc ▸ hfails)

/-- After a run that converges, what is learnt is what the oracle goes by. -/
theorem Leaves.learned_iff (h : Leaves issued log p.1 p.2 gained p')
    (hasked : Asked oracle p.1 gained) (hp : Stands issued A bias known p)
    (hb : bias.network.Closed A) (hk : known.Closed A)
    (hanswers : ∀ e ∈ gained, e.2 ≠ .unknown)
    (hdone : Exhausts dom p.1 (vectors p.1.arena p.1.bias (gained.map (·.1))))
    {verdict : IndexSet → Answer} (horacle : oracle.GoesBy issued A bias verdict)
    (hconfirms : p.1.Confirms A verdict) (hreal : p.1.Forewarned dom A) {f : Valuation}
    (hf : f.Within dom (bias.scope.union known.scope)) (hknown : known.Holds A f) :
    p'.1.learned.Holds p'.1.arena f ↔ verdict (bias.holding A f) = .accept := by
  obtain ⟨hwf, hext, rfl, rfl⟩ := hp
  obtain ⟨e, he, hagrees⟩ := hwf.exists_agreeing hext hb hk hreal hdone hf hknown
  have hgiven : ∀ e ∈ gained, e.2 = verdict (p.1.bias.holding A e.1.valuation) := fun e he =>
    horacle.eq_of_gives (hasked.gives e he) (hasked.covers e he)
  have hholding : ∀ g, p'.1.bias.holding p'.1.arena g = p.1.bias.holding A g := fun g => by
    rw [h.bias, Bias.holding_of_extends (hext.trans h.arena) hb]
  have hall : p'.1.learned.Holds p'.1.arena f ↔
      ∀ q ∈ p.1.queries ++ answered gained, q.verdict = some false →
        p.1.bias.holding A q.valuation ≠ p.1.bias.holding A f := by
    rw [h.wf.learned f, h.queries]
    simp only [hholding]
  rw [hall]
  constructor
  · intro hnone
    cases hv : verdict (p.1.bias.holding A f) with
    | accept => rfl
    | unknown => exact absurd ((hgiven e he).trans (hagrees ▸ hv)) (hanswers e he)
    | reject =>
      have hreject : e.2 = .ofBool false := (hgiven e he).trans (hagrees ▸ hv)
      have hmem : { e.1 with verdict := some false } ∈ answered gained :=
        mem_answered.2 ⟨e, he, false, hreject, rfl⟩
      have hapart := hnone { e.1 with verdict := some false } (List.mem_append_right _ hmem) rfl
      exact absurd hagrees hapart
  · intro haccept q hq hv heq
    rw [← heq] at haccept
    rcases List.mem_append.1 hq with hq | hq
    · exact Answer.noConfusion (haccept.symm.trans (hconfirms q hq false hv))
    · obtain ⟨e', he', b, hb', rfl⟩ := mem_answered.1 hq
      cases Option.some.inj hv
      exact Answer.noConfusion (haccept.symm.trans ((hgiven e' he').symm.trans hb'))

/-- Where a run leads that converges and before which nothing was asked. The oracle goes by
what holds of the bias. -/
inductive Uninterrupted (B : Backends σ) (issued : Issued σ) (Err : Failure → σ → Prop)
    (log : σ → List Exchange) (dom : Ranges) (A : Arena) (bias : Bias) (known : Network)
    (verdict : IndexSet → Answer) : Concept × σ → Prop
  | run {oracle : Oracle σ} (fuel : Nat) {r r' : Concept × σ} :
      Reached B issued Err log A bias known r → r.1.queries = [] → r.1.Forewarned dom A →
      oracle.Logs issued Err log → oracle.GoesBy issued A bias verdict →
      Action.outcome (process B oracle fuel) r = (.ok .converged, r') →
      Uninterrupted B issued Err log dom A bias known verdict r'

theorem Uninterrupted.learned_iff (hB : B.Lawful issued dom Err) (hsilent : B.Silent log)
    (hA : A.Built) (hb : bias.network.Closed A) (hk : known.Closed A)
    {verdict : IndexSet → Answer} {r' : Concept × σ}
    (h : Uninterrupted B issued Err log dom A bias known verdict r') {f : Valuation}
    (hf : f.Within dom (bias.scope.union known.scope)) (hknown : known.Holds A f) :
    r'.1.learned.Holds r'.1.arena f ↔ verdict (bias.holding A f) = .accept := by
  rcases h with @⟨oracle, fuel, r, _, hr, hnothing, hreal, hlogs, horacle, hrun⟩
  have hstands := hr.stands hB hsilent hA hb hk
  obtain ⟨gained, hasked, hleaves, hdone⟩ :=
    (hstands.wf.leads_process hB hsilent hlogs fuel).of_ok hrun
  obtain ⟨hanswers, hdone⟩ := hdone rfl
  have hconfirms : r.1.Confirms A verdict := by
    rw [Confirms, hnothing]
    exact nofun
  exact hleaves.learned_iff hasked hstands hb hk hanswers hdone horacle hconfirms hreal hf hknown

/-- However a run ends, unless it breaks a promise, it keeps just what it asked, whatever the
concept went through before: the queries that were answered are noted, no two of the run agree
on the bias, and the assignments that are excluded are those that agree on it with a rejected
query. A run that converges with the same answers as before, from an oracle that goes by the
bias, has learnt what a run learns that is not interrupted. -/
theorem process_keeps_asked (hB : B.Lawful issued dom Err) (hsilent : B.Silent log) (hA : A.Built)
    (hb : bias.network.Closed A) (hk : known.Closed A)
    (hp : Reached B issued Err log A bias known p) (horacle : oracle.Logs issued Err log)
    (fuel : Nat) :
    Action.Leads (process B oracle fuel) p
      (fun o p' => (∃ gained, Kept log A bias p gained p') ∧
        (o = .converged → ∀ verdict, oracle.GoesBy issued A bias verdict →
          p.1.Confirms A verdict → p.1.Forewarned dom A →
          ∀ f : Valuation, f.Within dom (bias.scope.union known.scope) → known.Holds A f →
            (p'.1.learned.Holds p'.1.arena f ↔ verdict (bias.holding A f) = .accept) ∧
            ∀ r', Uninterrupted B issued Err log dom A bias known verdict r' →
              (p'.1.learned.Holds p'.1.arena f ↔ r'.1.learned.Holds r'.1.arena f)))
      (fun f p' => Interrupts Err f p'.2 ∧
        ((∀ e, f ≠ .fault e) → ∃ gained, Kept log A bias p gained p')) := by
  have hstands := hp.stands hB hsilent hA hb hk
  apply (hstands.wf.leads_process hB hsilent horacle fuel).mono
  · rintro o p' ⟨gained, hasked, hleaves, hdone⟩
    refine ⟨⟨gained, hleaves.kept hasked hstands hb⟩, ?_⟩
    intro ho verdict hgoes hconfirms hreal f hf hknown
    obtain ⟨hanswers, hdone⟩ := hdone ho
    have hlearned := hleaves.learned_iff hasked hstands hb hk hanswers hdone hgoes hconfirms hreal
      hf hknown
    refine ⟨hlearned, fun r' hr' => ?_⟩
    rw [hlearned, hr'.learned_iff hB hsilent hA hb hk hf hknown]
  · rintro f p' ⟨hf, hkept⟩
    refine ⟨hf, fun hno => ?_⟩
    obtain ⟨gained, hasked, hleaves⟩ := hkept hno
    exact ⟨gained, hleaves.kept hasked hstands hb⟩

end Concept

/-! ### A log beside a world -/

section Beside

variable {ρ α : Type}

/-- The world works, and what stands beside it stays as it is. -/
def Action.beside (x : Action σ α) (ρ : Type) : Action (σ × ρ) α :=
  x.zoom (·.1) fun s p => (s, p.2)

theorem Action.leads_beside (x : Action σ α) (p : σ × ρ) (Q : α → σ × ρ → Prop)
    (E : Failure → σ × ρ → Prop) : (x.beside ρ).Leads p Q E ↔
      x.Leads p.1 (fun a t => Q a (t, p.2)) fun f t => E f (t, p.2) := leads_zoom ..

theorem Action.preserves_beside (x : Action σ α) (I : ρ → Prop) :
    (x.beside ρ).Preserves fun p => I p.2 := fun p hp =>
  (x.leads_beside p _ _).2 ((x.leads_trivial p.1).mono (fun _ _ _ => hp) fun _ _ _ => hp)

/-- Backends of the world that know nothing of what stands beside it. -/
def Backends.beside (B : Backends σ) (ρ : Type) : Backends (σ × ρ) where
  sat :=
    { allocate := fun c name => (B.sat.allocate c name).beside ρ
      solve := fun F => (B.sat.solve F).beside ρ
      setLimit := fun l => (B.sat.setLimit l).beside ρ
      timedOut := fun p => B.sat.timedOut p.1 }
  cp :=
    { witness := fun A N => (B.cp.witness A N).beside ρ
      setLimit := fun l => (B.cp.setLimit l).beside ρ
      timedOut := fun p => B.cp.timedOut p.1 }
  draws := fun p => B.draws p.1

theorem Backends.beside_silent (B : Backends σ) :
    (B.beside (List Exchange)).Silent Prod.snd where
  solve := fun F es => (B.sat.solve F).preserves_beside (· = es)
  witness := fun A N es => (B.cp.witness A N).preserves_beside (· = es)
  limit := fun l es => ⟨(B.sat.setLimit l).preserves_beside (· = es),
    (B.cp.setLimit l).preserves_beside (· = es)⟩

theorem Backends.Lawful.beside {B : Backends σ} (h : B.Lawful issued dom Err) (ρ : Type) :
    (B.beside ρ).Lawful (fun p => issued p.1) dom fun f p => Err f p.1 where
  sat :=
    { allocate := fun c name p =>
        ((B.sat.allocate c name).leads_beside p _ _).2 (h.sat.allocate c name p.1)
      solve := fun F p hF => ((B.sat.solve F).leads_beside p _ _).2 (h.sat.solve F p.1 hF)
      setLimit := fun l p => ((B.sat.setLimit l).leads_beside p _ _).2 (h.sat.setLimit l p.1) }
  cp := ⟨fun A N p hA hN =>
    ((B.cp.witness A N).leads_beside p _ _).2 (h.cp.witness A N p.1 hA hN)⟩
  keeps :=
    { witness := fun A N p => ((B.cp.witness A N).leads_beside p _ _).2 (h.keeps.witness A N p.1)
      setLimit := fun l p => ((B.cp.setLimit l).leads_beside p _ _).2 (h.keeps.setLimit l p.1) }
  setLimit := fun l p => ((B.cp.setLimit l).leads_beside p _ _).2 (h.setLimit l p.1)

/-- An oracle that looks at what it was asked before, and logs what it answers beside the
world. -/
def Oracle.noting (answer : List Exchange → Query → Answer) : Oracle (σ × List Exchange) :=
  fun q => do
    let p ← get
    let a := answer p.2 q
    set (p.1, p.2 ++ [(q, a)])
    return a

theorem Oracle.noting_logs (answer : List Exchange → Query → Answer) (issued : Issued σ)
    (Err : Failure → σ × List Exchange → Prop) :
    (Oracle.noting answer).Logs (fun p => issued p.1) Err Prod.snd := fun _ p =>
  ⟨.refl issued p.1, rfl⟩

end Beside

namespace Exhaustive

open Acquisition.Concept

/-- The backends that try everything, beside a log. -/
def logged : Backends (World × List Exchange) := (backends bits).beside (List Exchange)

/-- An oracle that goes by the wanted network. -/
def steady : Oracle (World × List Exchange) :=
  .noting fun _ q => .ofBool (decide (wanted.Holds sample q.valuation))

/-- The same oracle, which does not know what to say to the second query. -/
def faltering : Oracle (World × List Exchange) :=
  .noting fun es q =>
    if es.length = 1 then .unknown else .ofBool (decide (wanted.Holds sample q.valuation))

theorem steady_goesBy : steady.GoesBy (fun p => Exhaustive.issued p.1) sample signed
    fun N => .ofBool (wanted.constraints.subset N) := by
  have hwanted : wanted.constraints ⊆ signed.constraints := by decide +kernel
  exact fun q p => judge_goesBy hwanted q p.1

/-- Each contradiction given beforehand names the first constraint and its negation. -/
def warned (C : Concept) : Bool :=
  C.background.clauses.all fun d =>
    d.literals.any (·.constraint == 0) && d.literals.any (·.constraint == 1)

theorem forewarned_of_warned {C : Concept} (h : warned C = true) (dom : Ranges) :
    C.Forewarned dom sample := by
  intro d hd f _ _
  have hd' := List.all_eq_true.1 h d hd
  simp only [Bool.and_eq_true, List.any_eq_true, beq_iff_eq] at hd'
  obtain ⟨⟨l, hl, hl0⟩, m, hm, hm1⟩ := hd'
  have hreg : sample.Registered 0 := (closed_clash 0 (by simp [clash])).1
  by_cases h0 : sample.Holds f 0
  · refine ⟨m, hm, ?_⟩
    rw [hm1]
    exact fun h1 => (built_sample.paired.holds_twin hreg f).1 h1 h0
  · exact ⟨l, hl, hl0 ▸ h0⟩

/-- A run that stops at its second query keeps the first one. The next run asks it again,
converges, and has learnt what the oracle goes by, like a run that does not stop. -/
theorem process_keeps_asked_faltering :
    ∃ p p' p'' r' : Concept × World × List Exchange,
      Reached logged (fun p => Exhaustive.issued p.1) (fun _ _ => False) Prod.snd sample signed
        lowered p ∧
      Action.outcome (process logged faltering 20) p = (.error (.error .oracleUnknown), p') ∧
      (p'.1.queries.length = 1 ∧ ∃ gained, Kept Prod.snd sample signed p gained p') ∧
      Action.outcome (process logged steady 20) p' = (.ok .converged, p'') ∧
      (∃ gained, Kept Prod.snd sample signed p' gained p'') ∧
      Action.outcome (process logged steady 20) p = (.ok .converged, r') ∧
      ∀ f : Valuation, f.Within bits.Allows (signed.scope.union lowered.scope) →
        lowered.Holds sample f →
          (p''.1.learned.Holds p''.1.arena f ↔ r'.1.learned.Holds r'.1.arena f) := by
  have hsteady : (start logged.sat {} sample signed lowered).Leads ([], [])
      (fun C t => Action.Leads (addBackground [clash]) (C, t)
        (fun _ p => p.1.queries = [] ∧ warned p.1 = true ∧
          Action.Leads (process logged steady 20) p (fun o _ => o = .converged) fun _ _ => False)
        (fun _ _ => False))
      (fun _ _ => False) := by
    decide +kernel
  have hfaltering : (start logged.sat {} sample signed lowered).Leads ([], [])
      (fun C t => Action.Leads (addBackground [clash]) (C, t)
        (fun _ p => Action.Leads (process logged faltering 20) p (fun _ _ => False)
          (fun f p' => f = .error .oracleUnknown ∧ p'.1.queries.length = 1 ∧ warned p'.1 = true ∧
            p'.1.Confirms sample (fun N => .ofBool (wanted.constraints.subset N)) ∧
            Action.Leads (process logged steady 20) p' (fun o _ => o = .converged)
              fun _ _ => False))
        (fun _ _ => False))
      (fun _ _ => False) := by
    decide +kernel
  have hB : logged.Lawful (fun p => Exhaustive.issued p.1) bits.Allows fun _ _ => False :=
    (backends_lawful bits fun _ _ => False).beside _
  have hsilent : logged.Silent Prod.snd := (backends bits).beside_silent
  have hsteady' : steady.Logs (fun p => Exhaustive.issued p.1) (fun _ _ => False) Prod.snd :=
    Oracle.noting_logs _ _ _
  have hfaltering' : faltering.Logs (fun p => Exhaustive.issued p.1) (fun _ _ => False) Prod.snd :=
    Oracle.noting_logs _ _ _
  obtain ⟨C, t, hstart, hsteady, hfaltering⟩ :=
    ((hsteady.and hfaltering).mono (fun _ _ h => h) fun _ _ h => h.1).exists_outcome
  obtain ⟨_, p, hadd, ⟨hnothing, hwarned, hsteady⟩, hfaltering⟩ :=
    ((hsteady.and hfaltering).mono (fun _ _ h => h) fun _ _ h => h.1).exists_outcome
  have hp : Reached logged (fun p => Exhaustive.issued p.1) (fun _ _ => False) Prod.snd sample
      signed lowered p := .addBackground [clash] (.start hstart) hadd
  obtain ⟨_, r', hr', rfl⟩ := hsteady.exists_outcome
  obtain ⟨_, p', hp', rfl, hlength, hwarned', hconfirms, hagain⟩ := hfaltering.exists_failure
  obtain ⟨_, p'', hp'', rfl⟩ := hagain.exists_outcome
  have hfirst := (process_keeps_asked hB hsilent built_sample closed_signed closed_lowered hp
    hfaltering' 20).of_error hp'
  have hsecond := (process_keeps_asked hB hsilent built_sample closed_signed closed_lowered
    (.process 20 hp hfaltering' hp' nofun) hsteady' 20).of_ok hp''
  refine ⟨p, p', p'', r', hp, hp', ⟨hlength, hfirst.2 nofun⟩, hp'', hsecond.1, hr', ?_⟩
  intro f hf hknown
  apply (hsecond.2 rfl _ steady_goesBy hconfirms (forewarned_of_warned hwarned' _) f hf hknown).2
  exact .run 20 hp hnothing (forewarned_of_warned hwarned _) hsteady' steady_goesBy hr'

end Exhaustive

end Acquisition
