import Acquisition.Learner.Run
import Acquisition.Proofs.Replaying

/-!
# Runs

What is true of a target stays true along a run, first of the constraints of the target
itself, while queries are replayed that may lie outside the domains, and then of all
undecided constraints that hold on each solution of the target. When generation finds no
further query these are the undecided constraints, and they are what is read off the
theory in the end.

Whatever the answers are, a run leaves the learner well formed, however it ends.
-/
namespace Acquisition

open Checked IndexSet ClauseStore

namespace Learner

variable {σ : Type} {issued : Issued σ} {s : σ} {dom : Ranges} {Err : Failure → σ → Prop}
  {L : Learner} {asks : Query → Prop} {Says : Query → Answer → Prop} {oracle : Oracle σ}

/-- The theory together with the negations of the constraints that were ruled out. -/
structure Closes (L : Learner) (S : ClauseStore) : Prop where
  holds_iff : ∀ v, S.Holds v ↔ L.theory.Holds v ∧
    ∀ c ∈ L.bias.constraints, c ∉ L.undecided.constraints → ¬ L.atoms.Affirms v c
  listed : ∀ d ∈ S.clauses, ∀ l ∈ d.literals, l.constraint ∈ L.bias.constraints ∧
    ∃ m, L.atoms.literal l.constraint = .ok m ∧ m.atom = l.atom
  theory : ∀ d ∈ L.theory.clauses, ∃ e ∈ S.clauses, e.literals = d.literals

theorem leads_closedTheory (hL : L.Wf issued s) {E : Failure → Learner × σ → Prop} :
    Action.Leads (closedTheory : Procedure Learner σ ClauseStore) (L, s)
      (fun S p => p = (L, s) ∧ L.Closes S) E := by
  have hmem : ∀ c, c ∈ L.bias.toList.filter (!L.undecided.contains ·) ↔
      c ∈ L.bias.constraints ∧ c ∉ L.undecided.constraints := fun c => by
    rw [List.mem_filter, Bool.not_eq_true', ← Bool.not_eq_true]
    exact and_congr_left fun _ => mem_toList'
  rw [closedTheory, Action.leads_bind, Procedure.leads_own, Action.leads_bind]
  refine leads_literals (fun c hc => (hL.atoms c ((hmem c).1 hc).1).1) fun ls hls => ⟨rfl, ?_⟩
  have hfold : ls.foldl (fun S l => S.adding (.ofLiteral l.negate)) L.theory =
      (ls.map fun l => Clause.ofLiteral l.negate).foldl adding L.theory := by
    rw [List.foldl_map]
  have hentry : ∀ l ∈ ls, L.atoms.Lists l ∧ l.constraint ∈ L.bias.constraints ∧
      l.constraint ∉ L.undecided.constraints := fun l hl => by
    obtain ⟨c, hc, hlc⟩ := (hls l).1 hl
    have := (hmem c).1 hc
    rw [← (hL.names.entry c l hlc).2.1] at this
    exact ⟨hL.names.lists hlc, this⟩
  dsimp only
  rw [hfold]
  refine ⟨fun v => ?_, fun d hd l hl => ?_, fun d hd =>
    exists_foldl_adding hL.theory.valid (.inr hd)⟩
  · rw [holds_foldl_adding hL.theory.valid, List.forall_mem_map]
    refine and_congr_right fun _ => ?_
    have hneg : ∀ l : Literal, (Clause.ofLiteral l.negate).Holds v ↔ ¬ l.Holds v := fun l => by
      simp [Clause.Holds, Literal.holds_negate]
    simp only [hneg]
    constructor
    · intro h c hc hout haff
      obtain ⟨l, hl⟩ := (hL.atoms c hc).1
      refine h l ((hls l).2 ⟨c, (hmem c).2 ⟨hc, hout⟩, hl⟩) ?_
      rw [hL.names.holds_iff (hL.names.lists hl), (hL.names.entry c l hl).2.1]
      exact haff
    · intro h l hl hv
      obtain ⟨hlist, hc, hout⟩ := hentry l hl
      exact h _ hc hout ((hL.names.holds_iff hlist).1 hv)
  · rcases mem_of_mem_foldl_adding hL.theory.valid hd with hd | hd
    · obtain ⟨m, hm, rfl⟩ := List.mem_map.1 hd
      rw [Clause.literals_ofLiteral, List.mem_singleton] at hl
      obtain ⟨hlist, hc, -⟩ := hentry m hm
      subst hl
      exact ⟨hc, m, hlist, rfl⟩
    · obtain ⟨hc, hlist⟩ := hL.theory.listed d hd l hl
      exact ⟨hc, l, hlist, rfl⟩

/-- A theory of positive literals has no literal beside its complement, so that extraction
finds no other collapsing query than the one that was noted. -/
theorem collapsingQuery_eq (hL : L.Wf issued s) : L.collapsingQuery = .ok L.collapsing := by
  rw [collapsingQuery]
  cases L.collapsing with
  | some q => rfl
  | none =>
    obtain ⟨b, hb⟩ := exists_isMonomial hL.theory.nonEmpty
    cases b with
    | false =>
      rw [hb]
      rfl
    | true =>
      have hpositive : ∀ c ∈ L.theory.clauses, ∀ l ∈ c.literals, l.negated = false :=
        fun c hc l hl => hL.names.positive (hL.theory.listed c hc l hl).2
      have hunits : ∀ m ∈ L.theory.units, m.negated = false := by
        intro m hm
        obtain ⟨c, hc, hcm⟩ := mem_units.1 hm
        exact hpositive c hc m (by rw [hcm]; exact List.mem_singleton_self m)
      have hnone : L.theory.inconsistency = .ok none := by
        rw [inconsistency, requireMonomial_eq_ok_of hb]
        apply congrArg Except.ok
        rw [List.findSome?_eq_none_iff]
        intro c hc
        split
        · next l hl =>
          have hlpos := hpositive c hc l (by rw [hl]; exact List.mem_singleton_self l)
          have hany : L.theory.units.any (·.isComplement l) = false := by
            rw [List.any_eq_false]
            intro m hm
            simp [Literal.isComplement, hunits m hm, hlpos]
          rw [hany, Bool.and_false, if_neg Bool.false_ne_true]
        · rfl
      rw [hb]
      exact hnone

/-- What is read off a closed theory: the constraints that a model affirms, or nothing if
there is no model. -/
inductive Reads (L : Learner) (S : ClauseStore) : Outcome → Learner → Prop
  | converged {k : Counters} {N : Network} {v : Atom → Bool} : S.Holds v →
      (∀ c, c ∈ N.constraints ↔
        ∃ d ∈ S.clauses, ∃ l ∈ d.literals, l.constraint = c ∧ v l.atom = true) →
      Reads L S .converged { L with counters := k, learned := some N }
  | collapsed {k : Counters} : (∀ v, ¬ S.Holds v) → Reads L S .collapsed { L with counters := k }

theorem leads_extract_reads {sat : SatBackend σ} (hsat : sat.Solves issued Err)
    (hL : L.Wf issued s) :
    Action.Leads (extract sat) (L, s)
      (fun o p => issued.Grows s p.2 ∧ ∃ S, L.Closes S ∧ L.Reads S o p.1)
      (fun f p => issued.Grows s p.2 ∧ (∃ k, p.1 = { L with counters := k }) ∧ Err f p.2) := by
  rw [extract, Action.leads_bind]
  apply (leads_closedTheory hL).mono _ fun _ _ h => h
  rintro S p ⟨rfl, hS⟩
  have hknown : S.Known issued s := by
    intro d hd l hl
    obtain ⟨-, m, hm, ha⟩ := hS.listed d hd l hl
    exact ha ▸ (hL.names.entry _ m hm).2.2
  rw [Action.leads_bind, leads_count, Action.leads_bind, Procedure.leads_call]
  apply (hsat.solveStore hknown).mono _ fun f t ⟨ht, hf⟩ => ⟨ht, ⟨_, rfl⟩, hf⟩
  rintro r t ⟨ht, hr⟩
  cases r with
  | some model =>
    obtain ⟨v, hv, hmodel⟩ := hr
    obtain ⟨N, hN⟩ : ∃ N, Network.ofList L.arena L.bias.scope model = .ok N := by
      apply Network.exists_ofList
      intro c hc
      obtain ⟨d, hd, l, hl, rfl, -⟩ := (hmodel c).1 hc
      exact (hL.closed _ (hS.listed d hd l hl).1).1
    rw [Action.leads_bind, Procedure.leads_check, hN]
    constructor
    · intro N' e
      cases e
      obtain ⟨-, hcons, -⟩ := Network.ofList_eq_ok hN
      exact ⟨ht, S, hS, .converged hv fun c => (hcons c).trans (hmodel c)⟩
    · exact nofun
  | none =>
    rw [Action.leads_bind, Procedure.leads_check,
      collapsingQuery_eq ((L.alike_counters _).wf hL)]
    constructor
    · intro q e
      cases e
      exact ⟨ht, S, hS, .collapsed hr⟩
    · exact nofun

theorem Reads.alike {S : ClauseStore} {o : Outcome} {L' : Learner} (h : L.Reads S o L') :
    L.Alike L' := by
  cases h with
  | converged _ _ => exact ⟨rfl, rfl, rfl, rfl, rfl, fun _ => id, rfl, rfl, rfl⟩
  | collapsed _ => exact ⟨rfl, rfl, rfl, rfl, rfl, fun _ => id, rfl, rfl, rfl⟩

/-- The learned network is made of the constraints of `W`. -/
def Learned (W : ConstraintId → Prop) (o : Outcome) (L : Learner) : Prop :=
  o = .converged ∧ ∃ N, L.learned = some N ∧ ∀ c, c ∈ N.constraints ↔ W c

/-- What is true of a theory is a model of it. -/
theorem Sound.exists_holds {W : ConstraintId → Prop} (hW : L.Sound dom W) (hL : L.Wf issued s)
    {S : ClauseStore} (hS : L.Closes S) : ∃ v, S.Holds v := by
  obtain ⟨v, hv⟩ := hL.names.exists_affirming W
  refine ⟨v, (hS.holds_iff v).2 ⟨fun d hd => ?_, fun c hc hout haff => ?_⟩⟩
  · obtain ⟨l, hl, hWl⟩ := hW.theory d hd
    have hlist := (hL.theory.listed d hd l hl).2
    exact ⟨l, hl, (hL.names.holds_iff hlist).2 ((hv _ l hlist).2 hWl)⟩
  · obtain ⟨l, hl⟩ := (hL.atoms c hc).1
    exact hout (hW.undecided c ((hv c l hl).1 haff))

/-- A network that is read off is made of undecided constraints. -/
theorem Closes.undecided {S : ClauseStore} (hS : L.Closes S) {v : Atom → Bool} (hv : S.Holds v)
    {d : Clause} (hd : d ∈ S.clauses) {l : Literal} (hl : l ∈ d.literals)
    (hlv : v l.atom = true) : l.constraint ∈ L.undecided.constraints := by
  obtain ⟨hc, m, hm, ha⟩ := hS.listed d hd l hl
  by_contra hno
  exact ((hS.holds_iff v).1 hv).2 _ hc hno ⟨m, hm, ha ▸ hlv⟩

/-- Each clause of the theory names a constraint of a network that is read off. -/
theorem Closes.hits {S : ClauseStore} (hS : L.Closes S) (hL : L.Wf issued s) {v : Atom → Bool}
    (hv : S.Holds v) {d : Clause} (hd : d ∈ L.theory.clauses) :
    ∃ l ∈ d.literals, ∃ e ∈ S.clauses, l ∈ e.literals ∧ v l.atom = true := by
  obtain ⟨l, hl, hlv⟩ := ((hS.holds_iff v).1 hv).1 d hd
  obtain ⟨e, he, hed⟩ := hS.theory d hd
  have hlist := (hL.theory.listed d hd l hl).2
  refine ⟨l, hl, e, he, hed ▸ hl, ?_⟩
  exact (AtomTable.affirms_iff hlist).1 ((hL.names.holds_iff hlist).1 hlv)

/-- Once each undecided constraint is decided, what is read off is what is true. -/
theorem leads_extract {sat : SatBackend σ} (hsat : sat.Lawful issued Err) (hL : L.Wf issued s) :
    Action.Leads (extract sat) (L, s)
      (fun o p => L.Stops issued p ∧ ∀ W, L.Sound dom W →
        (∀ c ∈ L.undecided.constraints, L.Decided c) → Learned W o p.1)
      (L.Lapses issued dom Err) := by
  apply (leads_extract_reads hsat.solves hL).mono
  · rintro o ⟨L', t⟩ ⟨ht, S, hS, hreads⟩
    refine ⟨⟨hreads.alike.wf (hL.grows ht), hreads.alike.evolves⟩, fun W hW hall => ?_⟩
    cases hreads with
    | collapsed hno =>
      obtain ⟨v, hv⟩ := hW.exists_holds hL hS
      exact absurd hv (hno v)
    | @converged k N v hv hN =>
      refine ⟨rfl, N, rfl, fun c => (hN c).trans ⟨?_, fun hWc => ?_⟩⟩
      · rintro ⟨d, hd, l, hl, rfl, hlv⟩
        exact hW.decided (hall _ (hS.undecided hv hd hl hlv))
      · obtain ⟨d, hd, hdc⟩ := hall c (hW.undecided c hWc)
        obtain ⟨l, hl, e, he, hle, hlv⟩ := hS.hits hL hv hd
        exact ⟨e, he, l, hle, hdc l hl, hlv⟩
  · rintro f ⟨L', t⟩ ⟨ht, ⟨k, rfl⟩, hf⟩
    have halike := L.alike_counters k
    exact ⟨⟨halike.wf (hL.grows ht), halike.evolves⟩, fun _ => .inr (.inr (.inr hf))⟩

/-- The constraints of `W` are what there is to learn: they are those undecided that hold on
each of some solutions, and the oracle answers every query by them. -/
structure Targets (dom : Ranges) (asks : Query → Prop) (Says : Query → Answer → Prop)
    (L : Learner) (W : ConstraintId → Prop) : Prop where
  grounded : L.Grounded dom
  known : L.known = {}
  confined : L.Confined dom (fun _ => True) W
  sound : L.Sound dom W
  answered : ∀ q, L.bias.scope ⊆ q.scope → q.valuation.Within dom L.bias.scope →
    q.verdict = none → Answerable asks Says q ∧
      ∀ b, Says q (.ofBool b) → q.Truly L.arena W b

theorem Continues.targets {P : (ConstraintId → Prop) → Prop} {p : Learner × σ}
    (h : L.Continues issued dom P p) {W : ConstraintId → Prop} (hP : P W)
    (hW : L.Targets dom asks Says W) : p.1.Targets dom asks Says W where
  grounded := h.evolves.grounded hW.grounded
  known := h.evolves.known.trans hW.known
  confined := h.evolves.confined hW.confined
  sound := h.sound W hP hW.sound
  answered := by
    rw [h.evolves.bias, h.evolves.arena]
    exact hW.answered

/-- A run that generates queries learns what there is to learn. -/
theorem leads_acquire {B : Backends σ} (hB : B.Lawful issued dom Err)
    (horacle : OracleSays oracle issued asks Says Err) (fuel : Nat) (hL : L.Wf issued s) :
    Action.Leads (acquire B oracle fuel) (L, s)
      (fun o p => L.Stops issued p ∧ ∀ W, L.Targets dom asks Says W → Learned W o p.1)
      (L.Falters issued dom Err (∃ W, L.Targets dom asks Says W)) := by
  induction fuel generalizing L s with
  | zero => exact Lapses.falters ⟨⟨hL, .refl L⟩, fun _ => .inl rfl⟩ _
  | succ fuel ih =>
    rw [acquire, Action.leads_bind, leads_poll]
    refine ⟨fun _ => ?_, fun _ => Lapses.falters ⟨⟨hL, .refl L⟩, fun _ => .inr (.inl rfl)⟩ _⟩
    rw [Action.leads_bind, Procedure.leads_own]
    split
    · next hempty =>
      refine (leads_extract hB.sat hL).mono (fun o p ⟨hp, ho⟩ => ⟨hp, fun W hW => ?_⟩)
        fun f p hf => hf.falters _
      exact ho W hW.sound fun c hc => absurd hc (isEmpty_eq_true.1 hempty c)
    · rw [Action.leads_bind]
      refine (leads_generate hB fuel hL).mono (fun r p ⟨hp, hposes, hnone⟩ => ?_)
        fun f p hf => hf.falters _
      have hkeep : ∀ W, L.Targets dom asks Says W → p.1.Targets dom asks Says W := fun W hW =>
        hp.targets ⟨hW.grounded, hW.confined.mono fun _ _ => trivial⟩ hW
      cases r with
      | none =>
        refine (leads_extract hB.sat hp.wf).mono
          (fun o p' ⟨hp', ho⟩ => ⟨.after hp hp', fun W hW => ?_⟩)
          fun f p' hf => Lapses.falters (.after hp hf) _
        refine ho W (hkeep W hW).sound fun c hc => (hnone rfl c hc).resolve_right ?_
        rw [hW.known]
        exact mem_empty c
      | some q =>
        obtain ⟨hq, -⟩ := hposes q rfl
        have hasked : ∀ W, L.Targets dom asks Says W → Answerable asks Says q ∧
            ∀ b, Says q (.ofBool b) → q.Truly p.1.arena W b := fun W hW =>
          (hkeep W hW).answered q hq.covers hq.within hq.unclassified
        rw [Action.leads_bind]
        refine (leads_ask dom horacle hp.wf q).mono ?_ fun f p' hf =>
          ⟨.after hp hf.1, fun ⟨W, hW⟩ => .after hp (hf.2 (hasked W hW).1)⟩
        rintro r' p' ⟨b, hb, hp', hlearns⟩
        have hagrees : ∀ W, L.Targets dom asks Says W →
            p.1.Agrees { q with verdict := some b } W := fun W hW =>
          (hkeep W hW).sound.agrees ((hasked W hW).2 b hb)
        have hboth : L.Stops issued p' := .after hp hp'.stops
        split
        · next hcollapse =>
          refine ⟨hboth, fun W hW => ?_⟩
          rw [hlearns.consistent (hagrees W hW)] at hcollapse
          cases hcollapse
        · refine (ih hp'.wf).mono (fun o p₁ ⟨hp₁, ho⟩ => ⟨?_, fun W hW => ?_⟩) fun f p₁ hf => ?_
          · exact ⟨hp₁.wf, hboth.evolves.trans hp₁.evolves⟩
          · exact ho W (hp'.targets (hagrees W hW) (hkeep W hW))
          · refine ⟨⟨hf.1.wf, hboth.evolves.trans hf.1.evolves⟩, fun ⟨W, hW⟩ => ?_⟩
            exact .after hp (.after hp' (hf.2 ⟨W, hp'.targets (hagrees W hW) (hkeep W hW)⟩))

/-- There is a target for the learner: a network of undecided constraints with a solution by
which all verdicts are given. -/
structure Realizes (dom : Ranges) (asks : Query → Prop) (Says : Query → Answer → Prop)
    (L : Learner) (T : Network) : Prop where
  grounded : L.Grounded dom
  known : L.known = {}
  active : L.passive = false
  sound : L.Sound dom (· ∈ T.constraints)
  solution : ∃ f : Valuation, f.Within dom L.bias.scope ∧ T.Holds L.arena f
  strategies : L.strategies = []
  replayed : ∀ q ∈ L.replay, L.bias.scope ⊆ q.scope ∧
    ∀ b, q.verdict = some b → (b = true ↔ T.Holds L.arena q.valuation)
  answered : ∀ q, L.bias.scope ⊆ q.scope → q.verdict = none → Answerable asks Says q ∧
    ∀ b, Says q (.ofBool b) → (b = true ↔ T.Holds L.arena q.valuation)

theorem Realizes.replays {T : Network} (hT : L.Realizes dom asks Says T) (hL : L.Wf issued s) :
    L.Replays Says (· ∈ T.constraints) := by
  refine ⟨hT.strategies, fun q hq b hb => Network.truly (fun c hc v hv => ?_) ?_⟩
  · have hbias := hL.undecided c (hT.sound.undecided c hc)
    exact (hT.replayed q hq).1 v ((hL.closed c hbias).2 v hv)
  · rcases hb with hb | ⟨hnone, hb⟩
    · exact (hT.replayed q hq).2 b hb
    · exact (hT.answered q (hT.replayed q hq).1 hnone).2 b hb

/-- The undecided constraints that hold on each solution of a network. -/
def Implied (dom : Ranges) (T : Network) (L : Learner) (c : ConstraintId) : Prop :=
  c ∈ L.undecided.constraints ∧
    ∀ f : Valuation, f.Within dom L.span → T.Holds L.arena f → L.arena.Holds f c

/-- A network with a solution by which all known constraints hold confines what there is to
learn to what it implies. -/
theorem confined_implied {T : Network}
    (hsolution : ∃ f : Valuation, f.Within dom L.span ∧ T.Holds L.arena f)
    (hknown : ∀ c ∈ L.known.constraints, c ∈ T.constraints) (D : ConstraintId → Prop) :
    L.Confined dom D (L.Implied dom T) := by
  refine ⟨fun f => f.Within dom L.span ∧ T.Holds L.arena f, hsolution, fun f hf => hf.1, ?_, ?_⟩
  · rintro c (hc | hc) f hf
    · exact hc.2 f hf.1 hf.2
    · exact hf.2 c (hknown c hc)
  · exact fun c hc hall _ => ⟨hc, fun f hf hTf => hall f ⟨hf, hTf⟩⟩

/-- No constraint is implied together with its negation. -/
theorem Implied.apart {T : Network} (hL : L.Wf issued s)
    (hsolution : ∃ f : Valuation, f.Within dom L.span ∧ T.Holds L.arena f) {c : ConstraintId}
    (hc : L.Implied dom T c) : ¬ L.Implied dom T (Arena.twin c) := by
  obtain ⟨g, hg, hTg⟩ := hsolution
  have hreg := (hL.closed c (hL.undecided c hc.1)).1
  intro hn
  exact (hL.built.paired.holds_twin hreg g).1 (hn.2 g hg hTg) (hc.2 g hg hTg)

/-- Once what was set for replay is learnt, the constraints that the target implies are what
there is to learn. -/
theorem Realizes.targets {T : Network} (hT : L.Realizes dom asks Says T) (hL : L.Wf issued s)
    {p : Learner × σ} (hp : L.Continues issued dom (L.Replays Says) p) :
    p.1.Targets dom asks Says (p.1.Implied dom T) := by
  have hsound := hp.sound _ (hT.replays hL) hT.sound
  have hknown : p.1.known = {} := hp.evolves.known.trans hT.known
  have hspan := span_of_known hknown
  have hsolution : ∃ f : Valuation, f.Within dom p.1.span ∧ T.Holds p.1.arena f := by
    rw [hspan, hp.evolves.bias, hp.evolves.arena]
    exact hT.solution
  have hmember : ∀ c ∈ T.constraints, p.1.Implied dom T c := fun c hc =>
    ⟨hsound.undecided c hc, fun f _ hf => hf c hc⟩
  refine ⟨hp.evolves.grounded hT.grounded, hknown, confined_implied hsolution ?_ _, ?_, ?_⟩
  · rw [hknown]
    exact fun c hc => absurd hc (mem_empty c)
  · refine ⟨fun c hc => ?_, fun c hc => hc.1, fun c hc => hc.apart hp.wf hsolution,
      hsound.background⟩
    obtain ⟨l, hl, hTl⟩ := hsound.theory c hc
    exact ⟨l, hl, hmember _ hTl⟩
  · intro q hcovers hwithin hverdict
    rw [← hspan] at hwithin
    have hcovers' := hcovers
    rw [hp.evolves.bias] at hcovers'
    obtain ⟨hasked, hsays⟩ := hT.answered q hcovers' hverdict
    have hvars : ∀ c ∈ T.constraints, ∀ v, p.1.arena.Mentions c v → v ∈ q.scope :=
        fun c hc v hv => by
      have hbias := hp.wf.undecided c (hsound.undecided c hc)
      exact hcovers v ((hp.wf.closed c hbias).2 v hv)
    refine ⟨hasked, fun b hb => ?_⟩
    have hbT : b = true ↔ T.Holds p.1.arena q.valuation := hp.evolves.arena ▸ hsays b hb
    constructor
    · exact fun hpos c hc hv => hv.2 (hc.2 _ hwithin (hbT.1 hpos))
    · exact fun hno => (Network.truly hvars hbT).2 fun c hc => hno c (hmember c hc)

/-- The learned network has the solutions of the target. -/
def Finds (dom : Ranges) (L : Learner) (T : Network) (o : Outcome) (L' : Learner) : Prop :=
  o = .converged ∧ ∃ N, L'.learned = some N ∧
    ∀ f : Valuation, f.Within dom L.bias.scope → (N.Holds L.arena f ↔ T.Holds L.arena f)

theorem Realizes.finds {T : Network} (hT : L.Realizes dom asks Says T) (hL : L.Wf issued s)
    {p : Learner × σ} (hp : L.Continues issued dom (L.Replays Says) p) {o : Outcome} {L' : Learner}
    (h : Learned (p.1.Implied dom T) o L') : L.Finds dom T o L' := by
  obtain ⟨ho, N, hN, hmem⟩ := h
  have hsound := hp.sound _ (hT.replays hL) hT.sound
  refine ⟨ho, N, hN, fun f hf => ?_⟩
  rw [← span_of_known hT.known, ← hp.evolves.span] at hf
  rw [← hp.evolves.arena]
  constructor
  · exact fun hNf c hc => hNf c ((hmem c).2 ⟨hsound.undecided c hc, fun g _ hg => hg c hc⟩)
  · exact fun hTf c hc => ((hmem c).1 hc).2 f hf hTf

theorem leads_run {B : Backends σ} (hB : B.Lawful issued dom Err)
    (horacle : OracleSays oracle issued asks Says Err) (fuel : Nat) (hL : L.Wf issued s)
    (hstrategies : ∀ N ∈ L.strategies, N.Closed L.arena) :
    Action.Leads (run B oracle fuel) (L, s)
      (fun o p => L.Stops issued p ∧ ∀ T, L.Realizes dom asks Says T → L.Finds dom T o p.1)
      (L.Falters issued dom Err (∃ T, L.Realizes dom asks Says T)) := by
  rw [run, Action.leads_bind]
  refine (leads_preprocess hB.cp hB.keeps horacle hL hstrategies).mono (fun r p ⟨hp, hr⟩ => ?_)
    fun f p hf => ⟨hf.1, fun ⟨T, hT⟩ => hf.2 ⟨hT.strategies, fun q hq hnone => ?_⟩⟩
  · split
    · next hcollapse =>
      refine ⟨hp.stops, fun T hT => ?_⟩
      rw [hr _ (hT.replays hL) hT.sound] at hcollapse
      cases hcollapse
    · rw [Action.leads_bind, Procedure.leads_own]
      split
      · next hpassive =>
        refine (leads_extract hB.sat hp.wf).mono
          (fun o p' ⟨hp', _⟩ => ⟨.after hp hp', fun T hT => ?_⟩)
          fun f p' hf => Lapses.falters (.after hp hf) _
        rw [hp.evolves.passive, hT.active] at hpassive
        cases hpassive
      · refine (leads_acquire hB horacle fuel hp.wf).mono
          (fun o p' ⟨hp', ho⟩ => ⟨.after hp hp', fun T hT =>
            hT.finds hL hp (ho _ (hT.targets hL hp))⟩)
          fun f p' hf => ⟨.after hp hf.1, fun ⟨T, hT⟩ => .after hp (hf.2 ⟨_, hT.targets hL hp⟩)⟩
  · exact (hT.answered q (hT.replayed q hq).1 hnone).1

/-- How a run under limits may end if there is a target: at its limit, at the limit of a
backend, or with what was to be found. -/
def Ends (dom : Ranges) (Err : Failure → σ → Prop) (L : Learner) (T : Network) (o : Outcome)
    (p : Learner × σ) : Prop :=
  o = .timeout ∧ p.1.timedOut = true ∨ o = .collapsed ∧ Err (.error .backendTimeout) p.2 ∨
    L.Finds dom T o p.1

theorem leads_process {B : Backends σ} (hB : B.Lawful issued dom Err)
    (horacle : OracleSays oracle issued asks Says Err) (fuel : Nat) (hL : L.Wf issued s)
    (hstrategies : ∀ N ∈ L.strategies, N.Closed L.arena) :
    Action.Leads (process B oracle fuel) (L, s)
      (fun o p => L.Stops issued p ∧ ∀ T, L.Realizes dom asks Says T → L.Ends dom Err T o p)
      (fun f p => L.Stops issued p ∧ ((∃ T, L.Realizes dom asks Says T) →
        f = .outOfFuel ∨ f = .fault .overflow ∨ Err f p.2)) := by
  have halike : L.Alike
      { L with deadline := .after L.settings.timeLimit.value, timedOut := false } :=
    ⟨rfl, rfl, rfl, rfl, rfl, fun _ => id, rfl, rfl, rfl⟩
  have hgrown : ∀ t, issued.Grows s t → L.Stops issued
      ({ L with deadline := .after L.settings.timeLimit.value, timedOut := false }, t) :=
    fun t ht => ⟨halike.wf (hL.grows ht), halike.evolves⟩
  have hrealizes : ∀ T, L.Realizes dom asks Says T → Realizes dom asks Says
      { L with deadline := .after L.settings.timeLimit.value, timedOut := false } T :=
    fun T hT => ⟨halike.evolves.grounded hT.grounded, hT.known, hT.active, halike.sound hT.sound,
      hT.solution, hT.strategies, hT.replayed, hT.answered⟩
  rw [process, Action.leads_bind, Procedure.leads_update, Action.leads_bind, Procedure.leads_own,
    Action.leads_bind, Procedure.leads_call]
  refine (hB.sat.setLimit _ s).mono (fun _ t ht => ?_)
    fun f t ⟨ht, hf⟩ => ⟨hgrown t ht, fun _ => .inr (.inr hf)⟩
  rw [Action.leads_bind, Procedure.leads_call]
  refine ((hB.setLimit _ t).and (hB.keeps.setLimit _ t)).mono (fun _ u ⟨_, hu⟩ => ?_)
    fun f u ⟨hf, hu⟩ => ⟨hgrown u (ht.trans hu), fun _ => .inr (.inr hf)⟩
  rw [Action.leads_bind, Action.leads_attempt]
  refine (leads_run hB horacle fuel (hgrown u (ht.trans hu)).wf hstrategies).mono
    (fun o p ⟨hp, ho⟩ => ⟨⟨hp.wf, halike.evolves.trans hp.evolves⟩, fun T hT => ?_⟩)
    fun f p hf => ?_
  · exact .inr (.inr (ho T (hrealizes T hT)))
  · have hstops : L.Stops issued p := ⟨hf.1.wf, halike.evolves.trans hf.1.evolves⟩
    have hspent : ∀ T, L.Realizes dom asks Says T → Spent Err f p.2 := fun T hT =>
      (hf.2 ⟨T, hrealizes T hT⟩).spent (halike.evolves.grounded hT.grounded)
    split
    · next e => cases e
    · next e =>
      cases e
      have hnoted : p.1.Alike { p.1 with timedOut := true } :=
        ⟨rfl, rfl, rfl, rfl, rfl, fun _ => id, rfl, rfl, rfl⟩
      rw [Action.leads_bind, Procedure.leads_update]
      exact ⟨⟨hnoted.wf hstops.wf, hstops.evolves.trans hnoted.evolves⟩, fun _ _ => .inl ⟨rfl, rfl⟩⟩
    · next e =>
      cases e
      refine ⟨hstops, fun T hT => .inr (.inl ⟨rfl, ?_⟩)⟩
      rcases hspent T hT with h | h | h | h
      · cases h
      · cases h
      · cases h
      · exact h
    · next hne _ e =>
      cases e
      refine ⟨hstops, fun ⟨T, hT⟩ => ?_⟩
      rcases hspent T hT with h | h | h | h
      · exact .inl h
      · exact absurd h hne
      · exact .inr (.inl h)
      · exact .inr (.inr h)

end Learner

end Acquisition
