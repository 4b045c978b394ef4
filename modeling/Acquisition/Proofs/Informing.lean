import Mathlib.Logic.Relation
import Acquisition.Proofs.Acquiring

/-!
# Queries that inform

A query that is generated violates an undecided constraint, and then either answer brings
something new: a constraint is ruled out, or a clause is learnt that the theory did not
imply. Nothing of this is ever lost, and so no such query comes up a second time.

There is one exception. A constraint is also ruled out where its negation is committed, but
the clauses that name the constraint are not shortened then. A pivot that names such a
constraint may be split at it, by a query that violates nothing undecided.
-/
namespace Acquisition

open Checked IndexSet ClauseStore

section Runs

variable {σ : Type} {issued : Issued σ} {s : σ} {dom : Ranges} {Err : Failure → σ → Prop}

/-- An oracle leaves the atoms that were handed out alone. -/
def Oracle.Keeps (oracle : Oracle σ) (issued : Issued σ) : Prop :=
  ∀ q s, (oracle q).Leads s (fun _ t => issued.Grows s t) fun _ t => issued.Grows s t

theorem Oracle.Keeps.speaks {oracle : Oracle σ} (h : oracle.Keeps issued)
    (Err : Failure → σ → Prop) :
    Learner.OracleSays oracle issued (fun _ => False) (fun _ _ => True) Err := fun q s =>
  (h q s).mono (fun _ _ h => ⟨h, trivial⟩) fun _ _ h => ⟨h, nofun⟩

/-- What holds wherever an action ends holds where it ended. -/
theorem Action.Leads.outcome {τ α : Type} {x : Action τ α} {t : τ} {Q : α → τ → Prop}
    {E : Failure → τ → Prop} {P : τ → Prop} (h : x.Leads t Q E) (hQ : ∀ a u, Q a u → P u)
    (hE : ∀ f u, E f u → P u) : P (x.outcome t).2 := by
  revert h
  unfold Leads
  split
  · next hx =>
    rw [hx]
    exact hQ _ _
  · next hx =>
    rw [hx]
    exact hE _ _

namespace Learner

/-- What may be done with a learner, whatever comes of it. -/
inductive Step (B : Backends σ) (issued : Issued σ) : Learner × σ → Learner × σ → Prop
  | ask {oracle : Oracle σ} (q : Query) {p : Learner × σ} :
      oracle.Keeps issued → Step B issued p (Action.outcome (ask oracle q) p).2
  | generate (fuel : Nat) {p : Learner × σ} :
      Step B issued p (Action.outcome (generate B fuel) p).2
  | preprocess {oracle : Oracle σ} {p : Learner × σ} :
      oracle.Keeps issued → Step B issued p (Action.outcome (preprocess B.cp oracle) p).2
  | process {oracle : Oracle σ} (fuel : Nat) {p : Learner × σ} :
      oracle.Keeps issued → Step B issued p (Action.outcome (process B oracle fuel) p).2
  | background (Ns : List Network) {p : Learner × σ} :
      Step B issued p (Action.outcome (addBackground Ns) p).2
  | configure (settings : Settings) (passive : Bool) {p : Learner × σ} :
      Step B issued p ({ p.1 with settings := settings, passive := passive }, p.2)
  | replay (qs : List Query) {p : Learner × σ} :
      Step B issued p ({ p.1 with replay := qs }, p.2)
  | strategies {Ns : List Network} {p : Learner × σ} :
      (∀ N ∈ Ns, N.Closed p.1.arena) → Step B issued p ({ p.1 with strategies := Ns }, p.2)

/-- The states that are reached from a fresh learner. -/
inductive Reachable (B : Backends σ) (issued : Issued σ) : Learner × σ → Prop
  | start {settings : Settings} {A : Arena} {bias : Bias} {known : Network} {s t : σ}
      {L : Learner} : A.Built → bias.network.Closed A → known.Closed A →
      (start B.sat settings A bias known).outcome s = (.ok L, t) → Reachable B issued (L, t)
  | step {p p' : Learner × σ} : Reachable B issued p → Step B issued p p' → Reachable B issued p'

/-- What every state that is reached satisfies. -/
structure Sane (issued : Issued σ) (p : Learner × σ) : Prop where
  wf : p.1.Wf issued p.2
  strategies : ∀ N ∈ p.1.strategies, N.Closed p.1.arena

/-- The settings and what is to be learnt first may be changed at any time. -/
theorem Wf.set {L : Learner} (hL : L.Wf issued s) {settings : Settings} {qs : List Query}
    {b : Bool} {Ns : List Network} : { L with passive := b, strategies := Ns }.Stops issued
      ({ L with settings := settings, replay := qs, passive := b, strategies := Ns }, s) :=
  ⟨⟨hL.built, hL.closed, hL.known, hL.names, hL.atoms, hL.registered, hL.undecided, hL.theory,
    hL.background, hL.kept⟩, rfl, rfl, rfl, rfl, rfl, fun _ => id, Subset.refl _,
    fun c hc => ⟨c, hc, fun _ => id⟩⟩

/-- What was ruled out stays so, and each clause learnt is covered by one learnt later. -/
structure Remembers (L L' : Learner) : Prop where
  arena : L'.arena = L.arena
  undecided : L'.undecided.constraints ⊆ L.undecided.constraints
  theory : ∀ c ∈ L.theory.clauses, ∃ d ∈ L'.theory.clauses, ∀ l ∈ d.literals, l ∈ c.literals

theorem Evolves.remembers {L L' : Learner} (h : L.Evolves L') : L.Remembers L' :=
  ⟨h.arena, h.undecided, h.theory⟩

theorem Remembers.refl (L : Learner) : L.Remembers L := (Evolves.refl L).remembers

theorem Remembers.trans {L L' L'' : Learner} (h : L.Remembers L') (h' : L'.Remembers L'') :
    L.Remembers L'' where
  arena := h'.arena.trans h.arena
  undecided := Subset.trans h'.undecided h.undecided
  theory := fun c hc => by
    obtain ⟨d, hd, hdc⟩ := h.theory c hc
    obtain ⟨e, he, hed⟩ := h'.theory d hd
    exact ⟨e, he, fun l hl => hdc l (hed l hl)⟩

theorem Sane.of_stops {p p' : Learner × σ} (h : Sane issued p) (hp : p.1.Stops issued p') :
    Sane issued p' ∧ p.1.Remembers p'.1 := by
  refine ⟨⟨hp.wf, fun N hN => ?_⟩, hp.evolves.remembers⟩
  rw [hp.evolves.arena]
  exact h.strategies N (hp.evolves.strategies N hN)

/-- Each step goes on from what a learner has learnt, under other strategies perhaps, and
active or passive. -/
theorem Step.stops {B : Backends σ} (hB : B.Lawful issued dom Err) {p p' : Learner × σ}
    (hstep : Step B issued p p') (h : Sane issued p) :
    ∃ b Ns, (∀ N ∈ Ns, N.Closed p.1.arena) ∧
      { p.1 with passive := b, strategies := Ns }.Stops issued p' := by
  have hsame : p.1.Stops issued p' → ∃ b Ns, (∀ N ∈ Ns, N.Closed p.1.arena) ∧
      { p.1 with passive := b, strategies := Ns }.Stops issued p' :=
    fun hp => ⟨p.1.passive, p.1.strategies, h.strategies, hp⟩
  cases hstep with
  | ask q horacle =>
    exact hsame ((leads_ask dom (horacle.speaks Err) h.wf q).outcome
      (fun _ _ ⟨_, _, hc, _⟩ => hc.stops) fun _ _ hf => hf.1)
  | generate fuel =>
    exact hsame ((leads_generate hB fuel h.wf).outcome (fun _ _ hp => hp.1.stops)
      fun _ _ hf => hf.toStops)
  | preprocess horacle =>
    exact hsame ((leads_preprocess hB.cp hB.keeps (horacle.speaks Err) h.wf
      h.strategies).outcome (fun _ _ hp => hp.1.stops) fun _ _ hf => hf.1)
  | process fuel horacle =>
    exact hsame ((leads_process hB (horacle.speaks Err) fuel h.wf h.strategies).outcome
      (fun _ _ hp => hp.1) fun _ _ hf => hf.1)
  | background Ns =>
    exact hsame ((leads_addBackground dom h.wf Ns).outcome (fun _ _ hp => hp.2.stops)
      fun _ _ hf => hf.1)
  | configure settings passive => exact ⟨passive, p.1.strategies, h.strategies, h.wf.set⟩
  | replay qs => exact hsame h.wf.set
  | @strategies Ns _ hNs => exact ⟨p.1.passive, Ns, hNs, h.wf.set⟩

/-- Each step keeps a learner sane and loses nothing of what it has learnt. -/
theorem Step.sane {B : Backends σ} (hB : B.Lawful issued dom Err) {p p' : Learner × σ}
    (hstep : Step B issued p p') (h : Sane issued p) : Sane issued p' ∧ p.1.Remembers p'.1 := by
  obtain ⟨b, Ns, hNs, hwf, hevolves⟩ := hstep.stops hB h
  refine ⟨⟨hwf, fun N hN => ?_⟩, hevolves.arena, hevolves.undecided, hevolves.theory⟩
  rw [hevolves.arena]
  exact hNs N (hevolves.strategies N hN)

theorem Reachable.sane {B : Backends σ} (hB : B.Lawful issued dom Err) {p : Learner × σ}
    (h : Reachable B issued p) : Sane issued p := by
  induction h with
  | start hA hbias hknown hL =>
    obtain ⟨-, hfresh⟩ := (leads_start hB.sat _ hA hbias hknown).of_ok hL
    refine ⟨hfresh.wf, fun N hN => ?_⟩
    rw [hfresh.strategies] at hN
    cases hN
  | step _ hstep ih => exact (hstep.sane hB ih).1

/-- Each constraint with an atom is one of the bias or one known from the start, or the negation
of such a constraint. -/
def Sourced (L : Learner) : Prop := ∀ c l, L.atoms.literal c = .ok l →
  ∃ d, (d ∈ L.bias.constraints ∨ d ∈ L.known.constraints) ∧ (c = d ∨ c = Arena.twin d)

theorem Fresh.sourced {A : Arena} {bias : Bias} {known : Network} {L : Learner} {s : σ}
    (h : Fresh issued A bias known L s) : L.Sourced := by
  rw [Sourced, h.known]
  exact h.table

theorem Reachable.sourced {B : Backends σ} (hB : B.Lawful issued dom Err) {p : Learner × σ}
    (h : Reachable B issued p) : p.1.Sourced := by
  induction h with
  | start hA hbias hknown hL =>
    exact ((leads_start hB.sat _ hA hbias hknown).of_ok hL).2.sourced
  | step hreach hstep ih =>
    obtain ⟨b, Ns, -, hstops⟩ := hstep.stops hB (hreach.sane hB)
    rw [Sourced, hstops.evolves.atoms, hstops.evolves.bias, hstops.evolves.known]
    exact ih

/-- The constraints with an atom are about the variables of the bias and of what is known. -/
theorem Sourced.confined {L : Learner} (h : L.Sourced) (hL : L.Wf issued s) {c : ConstraintId}
    {l : Literal} (hl : L.atoms.literal c = .ok l) {v : Var} (hv : L.arena.Mentions c v) :
    v ∈ L.span := by
  obtain ⟨d, hd, hcd⟩ := h c l hl
  have hmentions : L.arena.Mentions d v := by
    rcases hcd with rfl | rfl
    · exact hv
    · exact hL.built.paired.mentions_twin.1 hv
  rcases hd with hd | hd
  · exact L.bias_subset_span v ((hL.closed d hd).2 v hmentions)
  · exact mem_union.2 (.inr ((hL.known d hd).2 v hmentions))

/-- The state comes after some steps. -/
abbrev Later (B : Backends σ) (issued : Issued σ) : Learner × σ → Learner × σ → Prop :=
  Relation.ReflTransGen (Step B issued)

theorem Sane.later {B : Backends σ} (hB : B.Lawful issued dom Err) {p p' : Learner × σ}
    (h : Sane issued p) (hlater : Later B issued p p') :
    Sane issued p' ∧ p.1.Remembers p'.1 := by
  induction hlater with
  | refl => exact ⟨h, .refl p.1⟩
  | tail _ hstep ih =>
    obtain ⟨hsane, hremembers⟩ := hstep.sane hB ih.1
    exact ⟨hsane, ih.2.trans hremembers⟩

/-- No answer to the query would bring anything new: it violates nothing undecided, or some
clause of the theory only names constraints that it violates. -/
def Settled (L : Learner) (q : Query) : Prop :=
  (∀ c ∈ L.undecided.constraints, ¬ q.Violates L.arena c) ∨
    ∃ d ∈ L.theory.clauses, ∀ l ∈ d.literals, q.Violates L.arena l.constraint

theorem Remembers.settled {L L' : Learner} (h : L.Remembers L') {q : Query} (hq : L.Settled q) :
    L'.Settled q := by
  rw [Settled, h.arena]
  refine hq.imp (fun hq c hc => hq c (h.undecided c hc)) fun ⟨d, hd, hdq⟩ => ?_
  obtain ⟨e, he, hed⟩ := h.theory d hd
  exact ⟨e, he, fun l hl => hdq l (hed l hl)⟩

/-- A verdict settles a query. -/
theorem Learns.settled {L L' : Learner} {q : Query} {r : Learnt} (h : L.Learns q r L')
    (hremembers : L.Remembers L') : L'.Settled q := by
  rw [Settled, hremembers.arena]
  cases hq : q.isPositive with
  | true => exact .inl (h.accepted hq).2
  | false =>
    by_cases hk : ∃ c, L.Kappa q c
    · exact .inr (h.rejected hq hk).2
    · exact .inl fun c hc hv => hk ⟨c, hremembers.undecided c hc, hv⟩

/-- What a query violates only hangs on its values. -/
theorem violates_congr {A : Arena} {q q' : Query} (h : q'.pairs = q.pairs) (c : ConstraintId) :
    q'.Violates A c ↔ q.Violates A c := by
  have hscope : q'.scope = q.scope := by rw [Query.scope, Query.scope, Query.vars, Query.vars, h]
  have hvalues : q'.valuation = q.valuation := funext fun v => by
    rw [Query.valuation, Query.valuation, Query.valueOf, Query.valueOf, h]
  rw [Query.Violates, Query.Violates, hscope, hvalues]

theorem settled_congr {L : Learner} {q q' : Query} (h : q'.pairs = q.pairs) :
    L.Settled q' ↔ L.Settled q := by
  simp only [Settled, violates_congr h]

/-- A query to ask that violates an undecided constraint is not settled. -/
theorem Poses.not_settled {L : Learner} (hL : L.Wf issued s) {q : Query} (hq : L.Poses dom q)
    (hk : ∃ c, L.Kappa q c) : ¬ L.Settled q := by
  rintro (hnone | ⟨d, hd, hdq⟩)
  · obtain ⟨c, hc, hv⟩ := hk
    exact hnone c hc hv
  · obtain ⟨v, hv, hcons⟩ := hq.consistent
    obtain ⟨l, hl, hlv⟩ := hv d hd
    have hlist := (hL.theory.listed d hd l hl).2
    exact (hdq l hl).2 (hcons _ ((hL.names.holds_iff hlist).1 hlv))

/-- Something new is known: a constraint was ruled out, or there is a clause that the theory
did not imply. -/
def Advances (L L' : Learner) : Prop :=
  (∃ c ∈ L.undecided.constraints, c ∉ L'.undecided.constraints) ∨
    ∃ d ∈ L'.theory.clauses, ∃ v, L.theory.Holds v ∧ ¬ d.Holds v

/-- Either answer to such a query advances. -/
theorem Learns.advances {L L' : Learner} {t : σ} (hL' : L'.Wf issued t)
    (hatoms : L'.atoms = L.atoms) {q : Query} {r : Learnt} {b : Bool}
    (h : L.Learns { q with verdict := some b } r L') (hq : L.Poses dom q)
    (hk : ∃ c, L.Kappa q c) : L.Advances L' := by
  cases b with
  | true =>
    obtain ⟨c, hc, hv⟩ := hk
    exact .inl ⟨c, hc, fun hc' => (h.accepted rfl).2 c hc' hv⟩
  | false =>
    obtain ⟨-, d, hd, hdq⟩ := h.rejected rfl hk
    obtain ⟨v, hv, hcons⟩ := hq.consistent
    refine .inr ⟨d, hd, v, hv, fun ⟨l, hl, hlv⟩ => (hdq l hl).2 (hcons _ ?_)⟩
    exact hatoms ▸ (hL'.names.holds_iff (hL'.theory.listed d hd l hl).2).1 hlv

/-- A query whose answer is worth having, in a state that it was generated in. -/
structure Informs (B : Backends σ) (issued : Issued σ) (q : Query) (p : Learner × σ) : Prop where
  /-- The query violates an undecided constraint. -/
  violates : ∃ c ∈ p.1.undecided.constraints, q.Violates p.1.arena c
  /-- Whatever the answer is, it brings something new. -/
  advances : ∀ oracle : Oracle σ, oracle.Keeps issued →
    Action.Leads (ask oracle q) p (fun _ p' => p.1.Advances p'.1) fun _ _ => True
  /-- Once it is answered the query does not come up again, unless at a stale pivot. -/
  once : ∀ oracle : Oracle σ, oracle.Keeps issued → Action.Leads (ask oracle q) p
    (fun _ p' => ∀ p'' fuel, Later B issued p' p'' → Action.Leads (generate B fuel) p''
      (fun r p₁ => ∀ q', r = some q' → q'.pairs = q.pairs → p₁.1.Stale) fun _ _ => True)
    fun _ _ => True

theorem Poses.informs {B : Backends σ} (hB : B.Lawful issued dom Err) {p : Learner × σ}
    (hp : Sane issued p) {q : Query} (hq : p.1.Poses dom q) (hk : ∃ c, p.1.Kappa q c) :
    Informs B issued q p where
  violates := hk
  advances := fun oracle horacle => by
    refine (leads_ask dom (horacle.speaks Err) hp.wf q).mono ?_ fun _ _ _ => trivial
    rintro r p' ⟨b, -, hc, hl⟩
    exact hl.advances hc.wf hc.evolves.atoms hq hk
  once := fun oracle horacle => by
    refine (leads_ask dom (horacle.speaks Err) hp.wf q).mono ?_ fun _ _ _ => trivial
    rintro r p' ⟨b, -, hc, hl⟩ p'' fuel hlater
    have hsettled : p'.1.Settled q := hl.settled hc.evolves.remembers
    obtain ⟨hsane', -⟩ := hp.of_stops hc.stops
    obtain ⟨hsane, hremembers⟩ := hsane'.later hB hlater
    refine (leads_generate hB fuel hsane.wf).mono (fun r p₁ ⟨hc₁, hposes, _⟩ q' hr hpairs => ?_)
      fun _ _ _ => trivial
    obtain ⟨hq', hk' | hstale⟩ := hposes q' hr
    · refine absurd ((settled_congr hpairs).2 ?_) (hq'.not_settled hc₁.wf hk')
      exact (hremembers.trans hc₁.evolves.remembers).settled hsettled
    · exact hstale

/-- In every state that is reached each query that is generated informs, unless the pivot is
stale. -/
theorem generated_informs {B : Backends σ} (hB : B.Lawful issued dom Err) {p : Learner × σ}
    (hp : Reachable B issued p) (fuel : Nat) :
    Action.Leads (generate B fuel) p
      (fun r p' => ∀ q, r = some q → ¬ p'.1.Stale → Informs B issued q p') fun _ _ => True := by
  have hsane := hp.sane hB
  refine (leads_generate hB fuel hsane.wf).mono (fun r p' ⟨hc, hposes, _⟩ q hr hfresh => ?_)
    fun _ _ _ => trivial
  obtain ⟨hq, hk⟩ := hposes q hr
  exact hq.informs hB (hsane.of_stops hc.stops).1 (hk.resolve_right hfresh)

/-- No pivot is stale where the bias has no constraint together with its negation. -/
theorem Sane.not_stale {p : Learner × σ} (hp : Sane issued p)
    (hbias : ∀ c ∈ p.1.bias.constraints, Arena.twin c ∉ p.1.bias.constraints) : ¬ p.1.Stale := by
  rintro ⟨k, c, -, hc, -, l, hl, -, htwin, -⟩
  exact hbias _ (hp.wf.theory.listed c (get?_mem hc) l hl).1 htwin

end Learner

end Runs

namespace Exhaustive

/-- The constraints of the small instance that are not negated, and the negation of the
first one. -/
def doubled : Bias := .ofNetwork ⟨.ofList [0, 1], .ofList [0, 1, 2, 4]⟩

theorem closed_doubled : doubled.network.Closed sample := by
  have h : Network.ofList sample (.ofList [0, 1]) [0, 1, 2, 4] = .ok doubled.network := by
    decide +kernel
  exact Network.closed_ofList h

/-- A learner of the small instance that was started and asked some queries. -/
def afterAsking (qs : List Query) : Option (Learner × World) :=
  match (Learner.start sat {} sample doubled {}).outcome [] with
  | (.ok L, t) => some (qs.foldl
      (fun p q => (Action.outcome (Learner.ask (judge sample wanted) q) p).2) (L, t))
  | (.error _, _) => none

theorem judge_keeps (A : Arena) (T : Network) : (judge A T).Keeps issued :=
  fun _ s => .refl issued s

theorem reachable_afterAsking {qs : List Query} {p : Learner × World}
    (h : afterAsking qs = some p) : Learner.Reachable (backends bits) issued p := by
  rw [afterAsking] at h
  split at h
  · next L t hL =>
    cases h
    have hstart : Learner.Reachable (backends bits) issued (L, t) :=
      .start built_sample closed_doubled (Network.closed_ofScope sample .empty) hL
    revert hstart
    generalize (L, t) = p
    intro hstart
    induction qs generalizing p with
    | nil => exact hstart
    | cons q qs ih => exact ih _ (.step hstart (.ask q (judge_keeps sample wanted)))
  · cases h

/-- After some queries were asked a query is generated that passes the check. -/
def generates (qs : List Query) (check : Query → Learner → Bool) : Bool :=
  match afterAsking qs with
  | some p =>
    match Action.outcome (Learner.generate (backends bits) 20) p with
    | (.ok (some q), p') => check q p'.1
    | _ => false
  | none => false

theorem exists_of_generates {qs : List Query} {check : Query → Learner → Bool}
    (h : generates qs check = true) : ∃ p q p', Learner.Reachable (backends bits) issued p ∧
      Action.outcome (Learner.generate (backends bits) 20) p = (.ok (some q), p') ∧
        check q p'.1 = true := by
  rw [generates] at h
  split at h
  · next p hp =>
    split at h
    · next q p' hq => exact ⟨p, q, p', reachable_afterAsking hp, hq, h⟩
    · cases h
  · cases h

/-- The first query that is generated informs. -/
theorem first_informs : ∃ p q p', Learner.Reachable (backends bits) issued p ∧
    Action.outcome (Learner.generate (backends bits) 20) p = (.ok (some q), p') ∧
      Learner.Informs (backends bits) issued q p' := by
  have h : generates [] (fun _ L => L.pivot.isNone) = true := by
    decide +kernel
  obtain ⟨p, q, p', hp, hq, hpivot⟩ := exists_of_generates h
  have hinforms := Learner.generated_informs (backends_lawful bits fun _ _ => True) hp 20
  refine ⟨p, q, p', hp, hq, hinforms.of_ok hq q rfl ?_⟩
  rintro ⟨k, c, hk, -⟩
  rw [hk] at hpivot
  cases hpivot

/-- A query that violates both the first constraint and the second is rejected, and so is one
that violates the negation of the first and the third. -/
def rejected : List Query := [.ofPairs [(0, 1), (1, 1)], .ofPairs [(0, 0), (1, 0)]]

/-- After the first two constraints were committed, the clause that names the negation of the
first is split at it by a query that violates nothing undecided. -/
theorem stale_misleads : ∃ p q p', Learner.Reachable (backends bits) issued p ∧
    Action.outcome (Learner.generate (backends bits) 20) p = (.ok (some q), p') ∧
      ∀ c ∈ p'.1.undecided.constraints, ¬ q.Violates p'.1.arena c := by
  have h : generates rejected
      (fun q L => decide (L.undecided.kappa L.arena q = .ok .empty)) = true := by
    decide +kernel
  obtain ⟨p, q, p', hp, hq, hkappa⟩ := exists_of_generates h
  refine ⟨p, q, p', hp, hq, fun c hc hv => ?_⟩
  have hmem := (Bias.mem_kappa (of_decide_eq_true hkappa)).2 ⟨hc, hv⟩
  exact mem_empty c hmem

end Exhaustive

end Acquisition
