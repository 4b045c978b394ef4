import Acquisition.Proofs.VersionSpace

/-!
# Constraints known from the start

A learner may be told constraints that belong to the target but not to the bias. Queries that
split a clause pay no attention to them, and a rejection is put down to undecided constraints
alone. So a query that only violates what is known from the start misleads a run.

Nothing else does. As long as each rejected query violates a constraint of the target in the
bias, all that is learnt follows from the target, and in the end what is learnt has the
solutions of the target where what is known from the start holds.
-/
namespace Acquisition

open Checked IndexSet

/-- The oracle accepts no query that violates a constraint of the network. So it is with an
oracle that accepts exactly the queries on which the network holds. -/
def Oracle.Spares {σ : Type} (oracle : Oracle σ) (issued : Issued σ) (A : Arena) (T : Network) :
    Prop :=
  ∀ q s, (oracle q).Leads s
    (fun a t => issued.Grows s t ∧ (a = .accept → ∀ c ∈ T.constraints, ¬ q.Violates A c))
    fun _ t => issued.Grows s t

theorem Oracle.Spares.keeps {σ : Type} {oracle : Oracle σ} {issued : Issued σ} {A : Arena}
    {T : Network} (h : oracle.Spares issued A T) : oracle.Keeps issued :=
  fun q s => (h q s).mono (fun _ _ h => h.1) fun _ _ h => h

theorem Oracle.Spares.says {σ : Type} {oracle : Oracle σ} {issued : Issued σ} {A : Arena}
    {T : Network} (h : oracle.Spares issued A T) : Learner.OracleSays oracle issued
      (fun _ => False) (fun q a => a = .accept → ∀ c ∈ T.constraints, ¬ q.Violates A c)
      fun _ _ => True :=
  fun q s => (h q s).mono (fun _ _ h => h) fun _ _ h => ⟨h, nofun⟩

/-- The constraint holds on each solution of the network that gives values to some variables. -/
def Network.Entails (A : Arena) (dom : Ranges) (scope : IndexSet) (T : Network)
    (c : ConstraintId) : Prop :=
  ∀ f : Valuation, f.Within dom scope → T.Holds A f → A.Holds f c

namespace Learner

variable {σ : Type} {issued : Issued σ} {s t : σ} {dom : Ranges} {Err : Failure → σ → Prop}
  {L L' : Learner} {A : Arena} {bias : Bias} {known T : Network} {oracle : Oracle σ}
  {q : Query} {b : Bool} {r : Learnt} {p : Learner × σ} {c : ConstraintId}

/-- The learner under other settings, with nothing set for replay. -/
def under (L : Learner) (settings : Settings) : Learner :=
  { L with settings := settings, replay := [] }

theorem alike_under (L : Learner) (settings : Settings) : L.Alike (L.under settings) :=
  ⟨rfl, rfl, rfl, rfl, rfl, fun _ => id, rfl, rfl, rfl⟩

/-- The states that are reached from a fresh learner by runs, with nothing set for replay. -/
inductive Processed (B : Backends σ) (oracle : Oracle σ) (A : Arena) (bias : Bias)
    (known : Network) : Learner × σ → Prop
  | start {settings : Settings} {s t : σ} {L : Learner} :
      (start B.sat settings A bias known).outcome s = (.ok L, t) →
        Processed B oracle A bias known (L, t)
  | process (settings : Settings) (fuel : Nat) {p : Learner × σ} :
      Processed B oracle A bias known p → Processed B oracle A bias known
        (Action.outcome (process B oracle fuel) (p.1.under settings, p.2)).2

/-- The constraint belongs both to the target and to the bias. -/
def Sought (T : Network) (L : Learner) (c : ConstraintId) : Prop :=
  c ∈ T.constraints ∧ c ∈ L.bias.constraints

/-- Each rejected query violates a constraint of the target that belongs to the bias. -/
def Blames (T : Network) (L : Learner) : Prop :=
  ∀ q ∈ L.rejected, ∃ c, Sought T L c ∧ q.Violates L.arena c

/-- The target has a solution and is made of constraints known from the start and of
constraints of the bias. It is to be learnt from queries that are generated. -/
structure Aims (dom : Ranges) (A : Arena) (bias : Bias) (known T : Network) (L : Learner) :
    Prop where
  arena : L.arena = A
  known : L.known = known
  scope : L.bias.scope = bias.scope
  active : L.passive = false
  strategies : L.strategies = []
  grounded : L.Grounded dom
  solution : ∃ f : Valuation, f.Within dom L.span ∧ T.Holds L.arena f
  includes : ∀ c ∈ L.known.constraints, c ∈ T.constraints
  covered : ∀ c ∈ T.constraints, c ∈ L.known.constraints ∨ c ∈ L.bias.constraints

/-- What is learnt so far, and what of the bias belongs to the target. -/
def Due (T : Network) (L : Learner) (c : ConstraintId) : Prop := Sought T L c ∨ L.Decided c

/-- All that is learnt follows from the target, and nothing of the target was lost. -/
structure Guided (dom : Ranges) (T : Network) (L : Learner) : Prop where
  sound : L.Sound dom (Due T L)
  entailed : ∀ c, L.Decided c → T.Entails L.arena dom L.span c

theorem Evolves.aims (h : L.Evolves L') (hL : L.Aims dom A bias known T) :
    L'.Aims dom A bias known T where
  arena := h.arena.trans hL.arena
  known := h.known.trans hL.known
  scope := (congrArg Bias.scope h.bias).trans hL.scope
  active := h.passive.trans hL.active
  strategies := by
    apply List.eq_nil_iff_forall_not_mem.2
    intro N hN
    have := h.strategies N hN
    rw [hL.strategies] at this
    cases this
  grounded := h.grounded hL.grounded
  solution := by
    rw [h.span, h.arena]
    exact hL.solution
  includes := h.known ▸ hL.includes
  covered := by
    rw [h.known, h.bias]
    exact hL.covered

theorem Evolves.sought (h : L.Evolves L') : Sought T L' c ↔ Sought T L c := by
  rw [Sought, Sought, h.bias]

theorem Evolves.entails (h : L.Evolves L') :
    T.Entails L'.arena dom L'.span c ↔ T.Entails L.arena dom L.span c := by
  rw [h.span, h.arena]

theorem Evolves.blames (h : L.Evolves L') (hanswers : L'.answers = L.answers)
    (hblames : Blames T L') : Blames T L := by
  intro q hq
  rw [rejected, ← (Prod.mk.inj hanswers).1] at hq
  obtain ⟨c, hc, hv⟩ := hblames q hq
  exact ⟨c, h.sought.1 hc, h.arena ▸ hv⟩

/-- What is due follows from the target. -/
theorem Guided.implied (h : L.Guided dom T) (hc : Due T L c) : L.Implied dom T c := by
  apply And.intro (h.sound.undecided c hc)
  intro f hf hTf
  cases hc with
  | inl hsought => exact hTf c hsought.1
  | inr hdecided => exact h.entailed c hdecided f hf hTf

/-- What is due follows from the target, and so all that follows from it satisfies what is
known. -/
theorem Guided.sound_implied (h : L.Guided dom T) (hL : L.Wf issued s)
    (haims : L.Aims dom A bias known T) : L.Sound dom (L.Implied dom T) where
  theory := by
    intro d hd
    obtain ⟨l, hl, hdue⟩ := h.sound.theory d hd
    exact ⟨l, hl, h.implied hdue⟩
  undecided := fun c hc => hc.1
  apart := fun c hc => hc.apart hL haims.solution
  background := h.sound.background

/-- A learner that knows of some constraints that they are true is guided if these are the
ones due. -/
theorem Sound.guided {W : ConstraintId → Prop} (hW : L.Sound dom W)
    (hdue : ∀ c, W c ↔ Due T L c) (hentailed : ∀ c, W c → T.Entails L.arena dom L.span c) :
    L.Guided dom T := by
  obtain rfl : W = Due T L := funext fun c => propext (hdue c)
  exact ⟨hW, fun c hc => hentailed c (.inr hc)⟩

/-- To generate a query decides only what follows from the target, and loses nothing. -/
theorem Guided.generate (h : L.Guided dom T) (hL : L.Wf issued s)
    (haims : L.Aims dom A bias known T)
    (hp : L.Continues issued dom (fun W => L.Grounded dom ∧ L.Confined dom p.1.Decided W) p) :
    p.1.Guided dom T := by
  have hsolution := haims.solution
  have hconfined := confined_implied (L := L) hsolution haims.includes
  have himplied : ∀ c, p.1.Decided c → L.Implied dom T c := by
    intro c hc
    have hsound := hp.sound _ ⟨haims.grounded, hconfined _⟩ (h.sound_implied hL haims)
    exact hsound.decided hc
  have hdue : ∀ c, Sought T L c ∨ p.1.Decided c → L.Implied dom T c := by
    rintro c (hc | hc)
    · exact h.implied (.inl hc)
    · exact himplied c hc
  have hsound : L.Sound dom fun c => Sought T L c ∨ p.1.Decided c := by
    apply Sound.mk
    · intro d hd
      obtain ⟨l, hl, hl'⟩ := h.sound.theory d hd
      exact ⟨l, hl, hl'.imp id hp.evolves.decided⟩
    · exact fun c hc => (hdue c hc).1
    · exact fun c hc hn => (hdue c hc).apart hL hsolution (hdue _ hn)
    · exact h.sound.background
  have hwithin : L.Confined dom p.1.Decided fun c => Sought T L c ∨ p.1.Decided c := by
    obtain ⟨X, hX, hwithin, hholds, -⟩ := hconfined fun _ => True
    exact ⟨X, hX, hwithin, fun c hc => hholds c (hc.imp (hdue c) id), fun c _ _ hc => .inr hc⟩
  apply (hp.sound _ ⟨haims.grounded, hwithin⟩ hsound).guided
  · exact fun c => or_congr_left hp.evolves.sought.symm
  · exact fun c hc => hp.evolves.entails.2 (hdue c hc).2

/-- A query to ask violates nothing that is decided. -/
theorem Poses.spares (hq : L.Poses dom q) (hL : L.Wf issued s) (hc : L.Decided c) :
    ¬ q.Violates L.arena c := by
  intro hviolates
  obtain ⟨v, hv, hcons⟩ := hq.consistent
  obtain ⟨d, hd, hdc⟩ := hc
  obtain ⟨l, hl, hlv⟩ := hv d hd
  have hlist := (hL.theory.listed d hd l hl).2
  apply hviolates.2
  exact hdc l hl ▸ hcons _ ((hL.names.holds_iff hlist).1 hlv)

/-- A verdict that the constraints of the target in the bias give leads to nothing that does
not follow from the target. -/
theorem Guided.digests (h : L.Guided dom T) (hL : L.Wf issued s) (hq : L.Poses dom q)
    (hverdict : b = true ↔ ∀ c, Sought T L c → ¬ q.Violates L.arena c)
    (hp : L.Digests issued dom { q with verdict := some b } r p) : p.1.Guided dom T := by
  have htruly : q.Truly L.arena (Due T L) b := by
    constructor
    · rintro hb c (hc | hc)
      · exact hverdict.1 hb c hc
      · exact hq.spares hL hc
    · exact fun hno => hverdict.2 fun c hc => hno c (.inl hc)
  have hsound := hp.sound _ (h.sound.agrees htruly) h.sound
  apply hsound.guided
  · intro c
    constructor
    · rintro (hc | hc)
      · exact .inl (hp.evolves.sought.2 hc)
      · exact .inr (hp.evolves.decided hc)
    · rintro (hc | hc)
      · exact .inl (hp.evolves.sought.1 hc)
      · exact hsound.decided hc
  · exact fun c hc => hp.evolves.entails.2 (h.implied hc).2

/-- What holds of a learner throughout its runs. -/
structure Steered (issued : Issued σ) (dom : Ranges) (A : Arena) (bias : Bias)
    (known T : Network) (p : Learner × σ) : Prop where
  wf : p.1.Wf issued p.2
  aims : p.1.Aims dom A bias known T
  guided : Blames T p.1 → p.1.Guided dom T

theorem Steered.alike {L L' : Learner} {s t : σ} (h : Steered issued dom A bias known T (L, s))
    (halike : L.Alike L') (hanswers : L'.answers = L.answers) (hgrows : issued.Grows s t) :
    Steered issued dom A bias known T (L', t) := by
  apply Steered.mk
  · exact halike.wf (h.wf.grows hgrows)
  · exact halike.evolves.aims h.aims
  · intro hblames
    have hguided := h.guided (halike.evolves.blames hanswers hblames)
    have hdecided : ∀ c, L'.Decided c ↔ L.Decided c := fun c => by
      rw [Decided, Decided, halike.theory]
    apply (halike.sound hguided.sound).guided
    · exact fun c => or_congr halike.evolves.sought.symm (hdecided c).symm
    · exact fun c hc => halike.evolves.entails.2 (hguided.implied hc).2

theorem steady_steered : Steady issued (Steered issued dom A bias known T) :=
  fun _ _ _ _ h halike hanswers _ => h.alike halike hanswers

theorem Fresh.steered (hL : Fresh issued A bias known L s)
    (hincludes : ∀ c ∈ known.constraints, c ∈ T.constraints)
    (hcovered : ∀ c ∈ T.constraints, c ∈ known.constraints ∨
      c ∈ bias.constraints ∧ A.conjuncts? c = .ok none)
    (hsolution : ∃ f : Valuation, f.Within dom (bias.scope.union known.scope) ∧ T.Holds A f) :
    Steered issued dom A bias known T (L, s) := by
  have hspan : L.span = bias.scope.union known.scope := by rw [span, hL.scope, hL.known]
  obtain ⟨g, hg, hTg⟩ := hsolution
  rw [← hspan] at hg
  rw [← hL.arena] at hTg
  have haims : L.Aims dom A bias known T := by
    apply Aims.mk hL.arena hL.known hL.scope hL.passive hL.strategies (hL.grounded_span hg)
      ⟨g, hg, hTg⟩
    · exact hL.known.symm ▸ hincludes
    · intro c hc
      rw [hL.known]
      exact (hcovered c hc).imp id (hL.bias c).2
  apply Steered.mk hL.wf haims
  intro _
  have hfresh : ∀ c, ¬ L.Decided c := by
    rintro c ⟨d, hd, -⟩
    rw [hL.theory] at hd
    cases hd
  have hcandidate : L.Candidate (Due T L) := by
    apply Candidate.mk
    · exact fun c hc => (hc.resolve_right (hfresh c)).2
    · intro c hc hn
      have hbias := (hc.resolve_right (hfresh c)).2
      have hreg := (hL.wf.closed c hbias).1
      apply (hL.wf.built.paired.holds_twin hreg g).1
      · exact hTg _ (hn.resolve_right (hfresh _)).1
      · exact hTg c (hc.resolve_right (hfresh c)).1
  apply Guided.mk
  · apply hL.exact.sound _ hcandidate
    intro q hq
    rw [hL.answers.1] at hq
    cases hq
  · exact fun c hc => absurd hc (hfresh c)

/-- To generate a query decides nothing that does not follow from the target. -/
theorem Steered.generate {L : Learner} (h : Steered issued dom A bias known T (L, s))
    (hp : L.Continues issued dom (fun W => L.Grounded dom ∧ L.Confined dom p.1.Decided W) p)
    (hanswers : p.1.answers = L.answers) : Steered issued dom A bias known T p := by
  apply Steered.mk hp.wf (hp.evolves.aims h.aims)
  intro hblames
  exact (h.guided (hp.evolves.blames hanswers hblames)).generate h.wf h.aims hp

theorem Digests.blames {q : Query} (hp : L.Digests issued dom q r p) (hblames : Blames T p.1) :
    Blames T L ∧ (q.verdict = some false → ∃ c, Sought T L c ∧ q.Violates L.arena c) := by
  have hall : ∀ e, e ∈ L.asked ∨ e = q → e.isNegative = true →
      ∃ c, Sought T L c ∧ e.Violates L.arena c := by
    intro e he hnegative
    have hin : e ∈ p.1.rejected := by
      apply List.mem_filter.2
      rw [hp.asked]
      exact ⟨List.mem_append.2 (he.imp id List.mem_singleton.2), hnegative⟩
    obtain ⟨c, hc, hv⟩ := hblames e hin
    exact ⟨c, hp.evolves.sought.1 hc, hp.evolves.arena ▸ hv⟩
  constructor
  · intro e he
    obtain ⟨hasked, hnegative⟩ := List.mem_filter.1 he
    exact hall e (.inl hasked) hnegative
  · intro hq
    exact hall q (.inr rfl) (beq_iff_eq.2 hq)

/-- To ask a query decides nothing that does not follow from the target either, as long as a
constraint of the bias is to blame if the query is rejected. -/
theorem Steered.digests (h : Steered issued dom A bias known T (L, s)) (hq : L.Poses dom q)
    (hspares : b = true → ∀ c ∈ T.constraints, ¬ q.Violates A c)
    (hp : L.Digests issued dom { q with verdict := some b } r p) :
    Steered issued dom A bias known T p := by
  apply Steered.mk hp.wf (hp.evolves.aims h.aims)
  intro hblames
  obtain ⟨hbefore, hblamed⟩ := hp.blames hblames
  apply (h.guided hbefore).digests h.wf hq _ hp
  rw [h.aims.arena]
  constructor
  · exact fun hb c hc => hspares hb c hc.1
  · intro hno
    by_contra hb
    rw [Bool.not_eq_true] at hb
    obtain ⟨c, hc, hv⟩ := hblamed (congrArg some hb)
    rw [h.aims.arena] at hv
    exact hno c hc hv

/-- Where there is nothing left to ask, each undecided constraint is learnt or was known. -/
def Exhausted (p : Learner × σ) : Prop :=
  ∀ c ∈ p.1.undecided.constraints, p.1.Decided c ∨ c ∈ p.1.known.constraints

theorem leads_generate_steered {B : Backends σ} (hB : B.Lawful issued dom Err) (fuel : Nat)
    (hp : Steered issued dom A bias known T p) : Action.Leads (generate B fuel) p
      (fun r p' => Steered issued dom A bias known T p' ∧ (r = none → Exhausted p') ∧
        ∀ q, r = some q → p'.1.Poses dom q) fun _ => Steered issued dom A bias known T := by
  obtain ⟨L, s⟩ := p
  apply ((leads_generate hB fuel hp.wf).and (rests_generate aside_answers B fuel (L, s) rfl)).mono
  · rintro r p' ⟨⟨hc, hposes, hnone⟩, hanswers⟩
    refine ⟨hp.generate hc hanswers, ?_, fun q hr => (hposes q hr).1⟩
    intro hr
    rw [Exhausted, hc.evolves.known]
    exact hnone hr
  · exact fun f p' h => hp.generate h.1.continues h.2

theorem leads_ask_steered (horacle : oracle.Spares issued A T) (hq : p.1.Poses dom q)
    (hp : Steered issued dom A bias known T p) : Action.Leads (ask oracle q) p
      (After (Steered issued dom A bias known T) (Steered issued dom A bias known T))
      fun _ => Steered issued dom A bias known T := by
  obtain ⟨L, s⟩ := p
  rw [ask, Action.leads_bind]
  apply ((leads_classify horacle.says hp.wf q).and
    (steady_steered.classify horacle.keeps (excuses_all oracle) q hp)).mono _
    fun f p' (h : Falters issued dom _ L _ f p' ∧ _) => h.2.1
  rintro q' ⟨L', t⟩ ⟨⟨halike, -, b, rfl, hsays⟩, -, hp'⟩
  apply (leads_learn_digests dom hp'.wf { q with verdict := some b } false).mono
  · intro r p'' hdigests
    have hspares : b = true → ∀ c ∈ T.constraints, ¬ q.Violates A c := by
      rintro rfl
      exact hsays rfl
    have hp'' := hp'.digests (halike.poses hq) hspares hdigests
    cases r with
    | consistent => exact hp''
    | collapse => exact hp''
  · rintro f p'' ⟨-, rfl⟩
    exact hp'

/-- What is learnt has the solutions of the target where what is known from the start holds. -/
def Completes (dom : Ranges) (T : Network) (L : Learner) : Prop :=
  ∃ N, L.learned = some N ∧ ∀ f : Valuation, f.Within dom L.span →
    ((N.union L.known).Holds L.arena f ↔ T.Holds L.arena f)

/-- A network that is read off when nothing is left to ask completes what is known. -/
theorem Guided.solves (h : L.Guided dom T) (haims : L.Aims dom A bias known T)
    (hL : L.Wf issued s) (hready : Exhausted (L, s)) {S : ClauseStore} (hS : L.Closes S)
    {v : Atom → Bool} (hv : S.Holds v) {N : Network}
    (hN : ∀ c, c ∈ N.constraints ↔
      ∃ d ∈ S.clauses, ∃ l ∈ d.literals, l.constraint = c ∧ v l.atom = true)
    {f : Valuation} (hf : f.Within dom L.span) :
    (N.union L.known).Holds L.arena f ↔ T.Holds L.arena f := by
  constructor
  · intro hholds c hc
    have hknown : c ∈ L.known.constraints → L.arena.Holds f c :=
      fun hk => hholds c (mem_union.2 (.inr hk))
    rcases haims.covered c hc with hk | hbias
    · exact hknown hk
    · rcases hready c (h.sound.undecided c (.inl ⟨hc, hbias⟩)) with ⟨d, hd, hdc⟩ | hk
      · obtain ⟨l, hl, e, he, hle, hlv⟩ := hS.hits hL hv hd
        exact hholds c (mem_union.2 (.inl ((hN c).2 ⟨e, he, l, hle, hdc l hl, hlv⟩)))
      · exact hknown hk
  · intro hTf c hc
    have hknown : c ∈ L.known.constraints → L.arena.Holds f c :=
      fun hk => hTf c (haims.includes c hk)
    rcases mem_union.1 hc with hlearned | hk
    · obtain ⟨d, hd, l, hl, rfl, hlv⟩ := (hN c).1 hlearned
      rcases hready _ (hS.undecided hv hd hl hlv) with hdecided | hk
      · exact h.entailed _ hdecided f hf hTf
      · exact hknown hk
    · exact hknown hk

/-- How a run ends: no constraint was learnt that does not follow from the target, and on
convergence nothing of the target is missing. -/
structure Arrives (issued : Issued σ) (dom : Ranges) (A : Arena) (bias : Bias)
    (known T : Network) (o : Outcome) (p : Learner × σ) : Prop where
  steered : Steered issued dom A bias known T p
  completes : o = .converged → Blames T p.1 → p.1.Completes dom T

theorem leads_extract_arrives {sat : SatBackend σ} (hsat : sat.Lawful issued Err)
    (hp : Steered issued dom A bias known T p) (hready : Exhausted p) :
    Action.Leads (extract sat) p (Arrives issued dom A bias known T)
      fun _ => Steered issued dom A bias known T := by
  obtain ⟨L, s⟩ := p
  apply (leads_extract_reads hsat.solves hp.wf).mono
  · rintro o ⟨L', t⟩ ⟨ht, S, hS, hreads⟩
    have hafter : L'.answers = L.answers → Steered issued dom A bias known T (L', t) :=
      fun hanswers => hp.alike hreads.alike hanswers ht
    cases hreads with
    | @converged k N v hv hN =>
      apply Arrives.mk (hafter rfl)
      intro _ hblames
      have hguided := hp.guided hblames
      exact ⟨N, rfl, fun f hf => hguided.solves hp.aims hp.wf hready hS hv hN hf⟩
    | collapsed _ => exact ⟨hafter rfl, nofun⟩
  · rintro f ⟨L', t⟩ ⟨ht, ⟨k, rfl⟩, -⟩
    exact hp.alike (L.alike_counters k) rfl ht

/-- Runs are steered throughout. -/
theorem carries_steered {B : Backends σ} (hB : B.Lawful issued dom Err)
    (horacle : oracle.Spares issued A T) :
    Carries B oracle issued (Steered issued dom A bias known T)
      (Steered issued dom A bias known T) (fun q p => p.1.Poses dom q) Exhausted
      (Arrives issued dom A bias known T) (fun _ => True) where
  steady := steady_steered
  excuses := excuses_all oracle
  generate := fun fuel _ hp => leads_bears_all.2 (leads_generate_steered hB fuel hp)
  ask := fun _ _ hp hq => leads_bears_all.2 (leads_ask_steered horacle hq hp)
  settled := fun _ _ hempty c hc => absurd hc (isEmpty_eq_true.1 hempty c)
  extract := by
    intro p hp hready
    rw [leads_bears_all]
    apply leads_extract_arrives hB.sat hp
    apply hready.resolve_left
    rw [hp.aims.active]
    exact Bool.false_ne_true
  collapsed := fun p hp => ⟨hp, nofun⟩
  stopped := by
    intro p hp
    constructor
    · exact ⟨hp, nofun⟩
    · have halike : p.1.Alike { p.1 with timedOut := true } :=
        ⟨rfl, rfl, rfl, rfl, rfl, fun _ => id, rfl, rfl, rfl⟩
      exact ⟨hp.alike halike rfl (.refl issued p.2), nofun⟩

theorem leads_process_arrives {B : Backends σ} (hB : B.Lawful issued dom Err)
    (horacle : oracle.Spares issued A T) (settings : Settings) (fuel : Nat)
    (hp : Steered issued dom A bias known T p) :
    Action.Leads (process B oracle fuel) (p.1.under settings, p.2)
      (Arrives issued dom A bias known T) fun _ => Steered issued dom A bias known T := by
  have hready := hp.alike (p.1.alike_under settings) rfl (.refl issued p.2)
  rw [← leads_bears_all]
  apply (carries_steered hB horacle).process (limits_all hB.sat.solves hB.keeps) fuel hready
  intro L' t _ _ hreplay hp'
  exact leads_preprocess_idle hreplay hp'.aims.strategies hp'

theorem Processed.steered {B : Backends σ} (hB : B.Lawful issued dom Err) (hA : A.Built)
    (hbias : bias.network.Closed A) (hknown : known.Closed A)
    (hincludes : ∀ c ∈ known.constraints, c ∈ T.constraints)
    (hcovered : ∀ c ∈ T.constraints, c ∈ known.constraints ∨
      c ∈ bias.constraints ∧ A.conjuncts? c = .ok none)
    (hsolution : ∃ f : Valuation, f.Within dom (bias.scope.union known.scope) ∧ T.Holds A f)
    (horacle : oracle.Spares issued A T) (hp : Processed B oracle A bias known p) :
    Steered issued dom A bias known T p := by
  induction hp with
  | start hL =>
    obtain ⟨-, hfresh⟩ := (leads_start hB.sat _ hA hbias hknown).of_ok hL
    exact hfresh.steered hincludes hcovered hsolution
  | process settings fuel _ ih =>
    exact (leads_process_arrives hB horacle settings fuel ih).outcome (fun _ _ h => h.steered)
      fun _ _ h => h

theorem Aims.span (h : L.Aims dom A bias known T) :
    L.span = bias.scope.union known.scope := by rw [Learner.span, h.scope, h.known]

/-- A constraint that stands alone in a clause follows from the target. -/
theorem Steered.units (h : Steered issued dom A bias known T p) (hblames : Blames T p.1) :
    ∀ d ∈ p.1.theory.clauses, ∀ l, d.literals = [l] → l.negated = false →
      T.Entails A dom (bias.scope.union known.scope) l.constraint := by
  intro d hd l hl _
  have hdecided : p.1.Decided l.constraint := by
    apply Exists.intro d
    apply And.intro hd
    intro m hm
    rw [hl, List.mem_singleton] at hm
    rw [hm]
  rw [← h.aims.span, ← h.aims.arena]
  exact (h.guided hblames).entailed _ hdecided

/-- Constraints known from the start do not mislead a run, unless a query is rejected that
violates no constraint of the target in the bias: each constraint that stands alone in a
clause follows from the target, and on convergence the learned network together with what was
known has the solutions of the target. -/
theorem known_never_misleads {B : Backends σ} (hB : B.Lawful issued dom Err) (hA : A.Built)
    (hbias : bias.network.Closed A) (hknown : known.Closed A)
    (hincludes : ∀ c ∈ known.constraints, c ∈ T.constraints)
    (hcovered : ∀ c ∈ T.constraints, c ∈ known.constraints ∨
      c ∈ bias.constraints ∧ A.conjuncts? c = .ok none)
    (hsolution : ∃ f : Valuation, f.Within dom (bias.scope.union known.scope) ∧ T.Holds A f)
    (horacle : oracle.Spares issued A T) (hp : Processed B oracle A bias known p)
    (settings : Settings) (fuel : Nat) :
    Action.Leads (process B oracle fuel) (p.1.under settings, p.2)
      (fun o p' => Blames T p'.1 →
        (∀ d ∈ p'.1.theory.clauses, ∀ l, d.literals = [l] → l.negated = false →
          T.Entails A dom (bias.scope.union known.scope) l.constraint) ∧
        (o = .converged → ∃ N, p'.1.learned = some N ∧
          ∀ f : Valuation, f.Within dom (bias.scope.union known.scope) →
            ((N.union known).Holds A f ↔ T.Holds A f)))
      fun _ p' => Blames T p'.1 →
        ∀ d ∈ p'.1.theory.clauses, ∀ l, d.literals = [l] → l.negated = false →
          T.Entails A dom (bias.scope.union known.scope) l.constraint := by
  have hsteered := hp.steered hB hA hbias hknown hincludes hcovered hsolution horacle
  apply (leads_process_arrives hB horacle settings fuel hsteered).mono
  · intro o p' h hblames
    apply And.intro (h.steered.units hblames)
    intro ho
    obtain ⟨N, hN, hsolutions⟩ := h.completes ho hblames
    rw [h.steered.aims.span, h.steered.aims.known, h.steered.aims.arena] at hsolutions
    exact ⟨N, hN, hsolutions⟩
  · exact fun f p' h hblames => h.units hblames

end Learner

namespace Exhaustive

open Learner

theorem judge_spares (A : Arena) (T : Network) : (judge A T).Spares issued A T := by
  intro q s
  apply And.intro (.refl issued s)
  intro haccepts c hc hviolates
  by_cases hT : T.Holds A q.valuation
  · exact hviolates.2 (hT c hc)
  · rw [decide_eq_false hT] at haccepts
    cases haccepts

/-- Whether a run of a fresh learner, with an oracle that goes by a network, ends as is
checked. -/
def ends (D : Domain) (A : Arena) (bias : Bias) (known T : Network)
    (check : Outcome → Learner → Bool) : Bool :=
  match (start sat {} A bias known).outcome [] with
  | (.ok L, t) =>
    match Action.outcome (process (backends D) (judge A T) 20) (L.under {}, t) with
    | (.ok o, p) => check o p.1
    | (.error _, _) => false
  | (.error _, _) => false

theorem exists_of_ends {D : Domain} {A : Arena} {bias : Bias} {known T : Network}
    {check : Outcome → Learner → Bool} (h : ends D A bias known T check = true) :
    ∃ p o p', Processed (backends D) (judge A T) A bias known p ∧
      Action.outcome (process (backends D) (judge A T) 20)
        (p.1.under {}, p.2) = (.ok o, p') ∧ check o p'.1 = true := by
  rw [ends] at h
  split at h
  · next L t hL =>
    split at h
    · next o p hp => exact ⟨(L, t), o, p, .start hL, hp, h⟩
    · cases h
  · cases h

/-- That the first variable of the small instance is zero is known from the start. -/
def given : Network := ⟨.singleton 0, .singleton 0⟩

theorem closed_given : given.Closed sample := by
  have h : Network.ofList sample (.singleton 0) [0] = .ok given := by decide +kernel
  exact Network.closed_ofList h

/-- The other constraints of the small instance. -/
def rest : Bias := .ofNetwork ⟨.ofList [0, 1], .ofList [2, 4]⟩

theorem closed_rest : rest.network.Closed sample := by
  have h : Network.ofList sample (.ofList [0, 1]) [2, 4] = .ok rest.network := by
    decide +kernel
  exact Network.closed_ofList h

/-- The target of the small instance is learnt where half of it is known from the start and
does not belong to the bias. The query that is rejected violates the other half. -/
theorem completes_wanted : ∃ p p' N,
    Processed (backends bits) (judge sample wanted) sample rest given p ∧
    Action.outcome (process (backends bits) (judge sample wanted) 20)
      (p.1.under {}, p.2) = (.ok .converged, p') ∧
    p'.1.rejected.length = 1 ∧ Blames wanted p'.1 ∧ p'.1.learned = some N ∧
    (∀ d ∈ p'.1.theory.clauses, ∀ l, d.literals = [l] → l.negated = false →
      wanted.Entails sample bits.Allows (rest.scope.union given.scope) l.constraint) ∧
    ∀ f : Valuation, f.Within bits.Allows (rest.scope.union given.scope) →
      ((N.union given).Holds sample f ↔ wanted.Holds sample f) := by
  have h : ends bits sample rest given wanted (fun o L => decide (o = .converged ∧
      L.rejected.length = 1 ∧ 4 ∈ L.bias.constraints ∧
        ∀ q ∈ L.rejected, L.bias.scope ⊆ q.scope ∧ ¬ L.arena.Holds q.valuation 4)) = true := by
    decide +kernel
  obtain ⟨p, o, p', hp, hprocess, hcheck⟩ := exists_of_ends h
  obtain ⟨rfl, hone, hmember, hviolates⟩ := of_decide_eq_true hcheck
  have hB := backends_lawful bits fun _ _ => True
  have horacle := judge_spares sample wanted
  have hincludes : ∀ c ∈ given.constraints, c ∈ wanted.constraints := by
    decide +kernel
  have hcovered : ∀ c ∈ wanted.constraints, c ∈ given.constraints ∨
      c ∈ rest.constraints ∧ sample.conjuncts? c = .ok none := by
    decide +kernel
  have hsolution : ∃ f : Valuation, f.Within bits.Allows (rest.scope.union given.scope) ∧
      wanted.Holds sample f :=
    ⟨fun v => if v = 0 then 0 else 1, by decide +kernel, by decide +kernel⟩
  have hsteered := hp.steered hB built_sample closed_rest closed_given hincludes hcovered
    hsolution horacle
  have harrives := (leads_process_arrives hB horacle {} 20 hsteered).of_ok hprocess
  have hblames : Blames wanted p'.1 := by
    intro q hq
    obtain ⟨hcovers, hfails⟩ := hviolates q hq
    have hviolated := (harrives.steered.wf.violates_iff hcovers hmember).2 hfails
    exact ⟨4, ⟨by decide +kernel, hmember⟩, hviolated⟩
  have hends := (known_never_misleads hB built_sample closed_rest closed_given hincludes hcovered
    hsolution horacle hp {} 20).of_ok hprocess hblames
  obtain ⟨N, hN, hsolutions⟩ := hends.2 rfl
  exact ⟨p, p', N, hp, hprocess, hone, hblames, hN, hends.1, hsolutions⟩

/-- The first variable is zero or one, and the second one zero, one or two. -/
def trits : Domain := .ofList [⟨0, 1⟩, ⟨0, 2⟩]

/-- The first variable is one, the second one is not zero, and it is at least two. -/
def bounds : Arena :=
  ([.unary 0 .eq 1 1, .unary 1 .ne 0 1, .unary 1 .ge 2 1] : List Predicate).foldl
    (fun A p => (A.add p).2) .empty

/-- The constraints of the second variable. -/
def second : Bias := .ofNetwork ⟨.ofList [0, 1], .ofList [2, 4]⟩

/-- The first variable is one and the second one is not zero. -/
def desired : Network := ⟨.ofList [0, 1], .ofList [0, 2]⟩

/-- A query that only violates what is known from the start is rejected, and the second
variable is taken to be at least two. In a solution of the target it is one. -/
theorem known_misleads : ∃ p p' f,
    Processed (backends trits) (judge bounds desired) bounds second given p ∧
    Action.outcome (process (backends trits) (judge bounds desired) 20)
      (p.1.under {}, p.2) = (.ok .converged, p') ∧
    f.Within trits.Allows (second.scope.union given.scope) ∧ desired.Holds bounds f ∧
    (∃ d ∈ p'.1.theory.clauses, ∃ l ∈ d.literals, d.literals = [l] ∧ l.negated = false ∧
      ¬ bounds.Holds f l.constraint) ∧
    ∃ N, p'.1.learned = some N ∧ ¬ (N.union given).Holds bounds f := by
  have h : ends trits bounds second given desired (fun o L => decide (o = .converged ∧
      ∃ d ∈ L.theory.clauses, ∃ l ∈ d.literals, d.literals = [l] ∧ l.negated = false ∧
        ¬ bounds.Holds (fun _ => 1) l.constraint) &&
      L.learned.any fun N => decide ¬ (N.union given).Holds bounds fun _ => 1) = true := by
    decide +kernel
  obtain ⟨p, o, p', hp, hprocess, hcheck⟩ := exists_of_ends h
  obtain ⟨htheory, hlearned⟩ := Bool.and_eq_true_iff.1 hcheck
  obtain ⟨rfl, hunit⟩ := of_decide_eq_true htheory
  obtain ⟨N, hN, hfails⟩ := (Option.any_eq_true _ _).1 hlearned
  exact ⟨p, p', fun _ => 1, hp, hprocess, by decide +kernel, by decide +kernel, hunit, N, hN,
    of_decide_eq_true hfails⟩

end Exhaustive

end Acquisition
