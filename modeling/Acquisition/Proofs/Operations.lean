import Acquisition.Proofs.Generation

/-!
# Operations on a learner

A learner is asked queries, runs, generates queries, and tells whether a constraint is free.
Its settings may be changed between the calls, and so may its background and what it is to
learn first. Whatever is called, and in whatever order, what a learner knows keeps its shape.
Then no promise between its parts is broken, and an operation only fails where its fuel or its
time is spent, where a query has no verdict or has one already, where a sum leaves its word,
or where an oracle or a backend fails.
-/
namespace Acquisition

open Procedure IndexSet ClauseStore

variable {σ : Type} {issued : Issued σ} {s t : σ} {dom : Ranges} {Err : Failure → σ → Prop}
  {D : ConstraintId → Prop} {A : Arena} {R : IndexSet} {B : Backends σ} {sat : SatBackend σ}
  {L : Learner} {p p' : Learner × σ} {G : Failure → Prop}

theorem ClauseStore.Known.grows {S : ClauseStore} (hS : S.Known issued s)
    (ht : issued.Grows s t) : S.Known issued t :=
  fun d hd l hl => ht _ _ (hS d hd l hl)

theorem ClauseStore.Known.adding {S : ClauseStore} (hS : S.Known issued s) (hvalid : S.Valid)
    {l : Literal} (hl : issued s l.atom l.constraint) :
    (S.adding (.ofLiteral l)).Known issued s := by
  intro d hd m hm
  rcases mem_of_mem_adding hvalid hd with rfl | hd
  · rw [Clause.literals_ofLiteral, List.mem_singleton] at hm
    exact hm ▸ hl
  · exact hS d hd m hm

namespace Learner

/-- What may be asked of a learner, or set in it. -/
inductive Operation (σ : Type)
  | ask (oracle : Oracle σ) (q : Query)
  | generate (fuel : Nat)
  | preprocess (oracle : Oracle σ)
  | process (oracle : Oracle σ) (fuel : Nat)
  | isFree (c : ConstraintId)
  | background (Ns : List Network)
  | configure (settings : Settings) (passive : Bool)
  | replay (qs : List Query)
  | strategies (Ns : List Network)

namespace Operation

/-- What an operation does, apart from the value that it gives. -/
def run (B : Backends σ) : Operation σ → Procedure Learner σ Unit
  | ask oracle q => (fun _ => ()) <$> Learner.ask oracle q
  | generate fuel => (fun _ => ()) <$> Learner.generate B fuel
  | preprocess oracle => (fun _ => ()) <$> Learner.preprocess B.cp oracle
  | process oracle fuel => (fun _ => ()) <$> Learner.process B oracle fuel
  | isFree c => (fun _ => ()) <$> Learner.isFree B.sat c
  | background Ns => addBackground Ns
  | configure settings passive => update ({ · with settings, passive })
  | replay qs => update ({ · with replay := qs })
  | strategies Ns => update ({ · with strategies := Ns })

/-- The oracle that an operation puts its queries to. -/
def oracle? : Operation σ → Option (Oracle σ)
  | ask oracle _ => some oracle
  | preprocess oracle => some oracle
  | process oracle _ => some oracle
  | _ => none

/-- What is given along with an operation makes sense to the learner: an oracle does not meddle
with the backends, only a constraint of the bias can be free, a contradiction has constraints,
each with an atom, and a strategy is made of constraints of the arena. -/
structure Proper (issued : Issued σ) (L : Learner) (op : Operation σ) : Prop where
  oracle : ∀ oracle, op.oracle? = some oracle → oracle.Keeps issued
  free : ∀ c, op = isFree c → c ∈ L.bias.constraints
  background : ∀ Ns, op = background Ns → ∀ N ∈ Ns,
    (∃ c, c ∈ N.constraints) ∧ ∀ c ∈ N.constraints, ∃ l, L.atoms.literal c = .ok l
  strategies : ∀ Ns, op = strategies Ns → ∀ N ∈ Ns, N.Closed L.arena

/-- The failures that whoever calls an operation has to expect, where the backends fail only
as `G` says. -/
inductive Expects (G : Failure → Prop) (op : Operation σ) : Failure → Prop
  | outOfFuel : op.Expects G .outOfFuel
  | timeout : op.Expects G (.error .timeout)
  | unknown : op.Expects G (.error .oracleUnknown)
  | classified : op.Expects G (.error .alreadyClassified)
  | overflow : op.Expects G (.fault .overflow)
  | backend {f : Failure} : G f → op.Expects G f
  | oracle {oracle : Oracle σ} {q : Query} {s t : σ} {f : Failure} : op.oracle? = some oracle →
      (oracle q).outcome s = (.error f, t) → op.Expects G f

theorem excuses {op : Operation σ} {oracle : Oracle σ} (h : op.oracle? = some oracle) :
    Excuses (op.Expects G) oracle where
  fuel := .outOfFuel
  timeout := .timeout
  unknown := .unknown
  classified := .classified
  oracle := by
    intro q s
    unfold Action.Leads
    split
    · trivial
    · next hf => exact .oracle h hf

end Operation

/-! ### Whether a constraint is free -/

/-- What is known and the contradictions only name atoms that were handed out. -/
theorem Wf.known_concat (hL : L.Wf issued s) : (L.theory.concat L.background).Known issued s := by
  intro d hd l hl
  rcases mem_of_mem_concat hL.theory.valid hd with hd | hd
  · exact (hL.names.entry _ _ (hL.background d hd l hl)).2.2
  · exact (hL.names.entry _ l (hL.theory.listed d hd l hl).2).2.2

theorem leads_isPossible_stays (hsat : sat.Solves issued Err) (hL : L.Wf issued s)
    {S : ClauseStore} (hS : S.Known issued s) (hvalid : S.Valid) {l : Literal}
    (hl : issued s l.atom l.constraint) :
    Action.Leads (isPossible sat S l) (L, s)
      (fun _ p => L.Stays issued p ∧ issued.Grows s p.2) (L.Halts issued Err) := by
  rw [isPossible, Action.leads_bind, leads_count, Action.leads_bind, leads_call]
  apply (hsat.solveStore (hS.adding hvalid hl)).mono
  · exact fun _ t h => ⟨hL.stays_counters h.1 rfl, h.1⟩
  · exact fun f t h => ⟨hL.stays_counters h.1 rfl, .inr (.inr h.2)⟩

/-- To tell whether a constraint is free changes nothing but a count. -/
theorem leads_isFree_stays (hsat : sat.Solves issued Err) (hL : L.Wf issued s)
    {c : ConstraintId} (hc : c ∈ L.bias.constraints) :
    Action.Leads (isFree sat c) (L, s) (fun _ => L.Stays issued) (L.Halts issued Err) := by
  obtain ⟨l, hl⟩ := (hL.atoms c hc).1
  have hissued : issued s l.atom l.constraint :=
    (hL.names.entry _ l (hL.names.lists hl)).2.2
  have hvalid := hL.theory.valid.concat L.background
  rw [isFree, Action.leads_bind, leads_own, Action.leads_bind, leads_literal, hl]
  refine ⟨fun _ e => ?_, by simp⟩
  cases e
  rw [Action.leads_bind]
  apply (leads_isPossible_stays hsat hL hL.known_concat hvalid hissued).mono _ fun _ _ h => h
  rintro b p ⟨hstays, ht⟩
  cases b with
  | false => exact hstays
  | true =>
    apply (leads_isPossible_stays hsat hstays.wf (hL.known_concat.grows ht) hvalid
      (l := l.negate) (ht _ _ hissued)).mono
    · exact fun _ _ h => hstays.trans h.1
    · exact fun _ _ h => hstays.halts h

/-! ### The shape of what is known -/

/-- What holds of a learner between the calls of its operations. -/
structure Intact (sat : SatBackend σ) (issued : Issued σ) (dom : Ranges) (A : Arena)
    (R : IndexSet) (D : ConstraintId → Prop) (p : Learner × σ) : Prop extends Sane issued p where
  arena : p.1.arena = A
  housed : p.1.Housed sat issued dom R D
  nonEmpty : ∀ d ∈ p.1.background.clauses, d.literals ≠ []

theorem Intact.of_stops (h : Intact sat issued dom A R D p) (hp : p.1.Stops issued p')
    (hnonEmpty : ∀ d ∈ p'.1.background.clauses, d.literals ≠ []) :
    Intact sat issued dom A R D p' where
  toSane := (h.toSane.of_stops hp).1
  arena := hp.evolves.arena.trans h.arena
  housed := hp.evolves.housed h.housed
  nonEmpty := hnonEmpty

theorem Intact.of_stays (h : Intact sat issued dom A R D p) (hp : p.1.Stays issued p') :
    Intact sat issued dom A R D p' := by
  apply h.of_stops hp.toStops
  have hbackground : p'.1.background = p.1.background := congrArg (·.1) hp.margins
  exact hbackground ▸ h.nonEmpty

/-- The settings and what is to be learnt first may be changed at any time. -/
theorem Intact.of_set (h : Intact sat issued dom A R D p) {settings : Settings}
    {qs : List Query} {b : Bool} {Ns : List Network} (hNs : ∀ N ∈ Ns, N.Closed p.1.arena) :
    Intact sat issued dom A R D
      ({ p.1 with settings := settings, replay := qs, passive := b, strategies := Ns }, p.2) where
  wf := h.wf.set.wf
  strategies := hNs
  arena := h.arena
  housed := ⟨h.housed.inhabited, h.housed.scope, h.housed.confined⟩
  nonEmpty := h.nonEmpty

/-- A conflict that is found has a member, since nothing at all can be satisfied. -/
theorem Intact.of_gathers (h : Intact sat issued dom A R D p)
    (hp : p.1.Gathers issued ((Network.ofScope R).Admits A dom) p') :
    Intact sat issued dom A R D p' := by
  apply h.of_stops hp.toStops
  obtain ⟨Ms, hMs⟩ := hp.found
  intro d hd hempty
  have hnothing : p'.1.Contradicts .empty := by
    refine ⟨d, hd, fun c => iff_of_false (mem_empty' c) ?_⟩
    rintro ⟨l, hl, -⟩
    rw [hempty] at hl
    cases hl
  rcases (hMs.recorded .empty).1 hnothing with ⟨e, he, hmembers⟩ | hM
  · obtain ⟨l, hl⟩ := List.exists_mem_of_ne_nil _ (h.nonEmpty e he)
    exact mem_empty' _ ((hmembers _).2 ⟨l, hl, rfl⟩)
  · obtain ⟨f, hf⟩ := h.housed.inhabited
    apply (hMs.minimal .empty hM).unsat
    exact ⟨f, hf, Network.holds_ofScope A R f, fun c hc => absurd hc (mem_empty' c)⟩

theorem leads_addBackground_nonEmpty (Ns : List Network) (hvalid : L.background.Valid)
    (h : ∀ d ∈ L.background.clauses, d.literals ≠ []) :
    Action.Leads (addBackground Ns : Procedure Learner σ Unit) (L, s)
      (fun _ p => ∀ d ∈ p.1.background.clauses, d.literals ≠ [])
      (fun _ p => ∀ d ∈ p.1.background.clauses, d.literals ≠ []) := by
  induction Ns generalizing L with
  | nil => exact h
  | cons N Ns ih =>
    rw [addBackground, Action.leads_bind, leads_own, Action.leads_bind, Action.leads_ofExcept]
    refine ⟨fun K hK => ?_, fun _ _ => h⟩
    obtain ⟨d, rfl, hne, -, -⟩ := Contradiction.record_eq_ok hK
    rw [Action.leads_bind, leads_update]
    apply ih (hvalid.adding d)
    intro e he
    rcases mem_of_mem_adding hvalid he with rfl | he
    · exact hne
    · exact h e he

/-- Contradictions that have constraints with atoms are all recorded. -/
theorem leads_addBackground_intact (h : Intact sat issued dom A R D p) {Ns : List Network}
    (hNs : ∀ N ∈ Ns, (∃ c, c ∈ N.constraints) ∧
      ∀ c ∈ N.constraints, ∃ l, p.1.atoms.literal c = .ok l) :
    Action.Leads (addBackground Ns : Procedure Learner σ Unit) p
      (fun _ => Intact sat issued dom A R D) fun _ _ => False := by
  apply ((leads_addBackground dom h.wf Ns).and
    (leads_addBackground_nonEmpty Ns h.wf.kept h.nonEmpty)).mono
  · exact fun _ _ hp => h.of_stops hp.1.2.stops hp.2
  · rintro f p' ⟨⟨-, N, hN, hno⟩, -⟩
    obtain ⟨⟨c, hc⟩, htable⟩ := hNs N hN
    rcases hno with hempty | ⟨d, hd, hno⟩
    · exact hempty c hc
    · obtain ⟨l, hl⟩ := htable d hd
      exact hno l hl

/-! ### Operations keep the shape -/

/-- What is drawn for a strategy is asked about a closed network. -/
theorem Intact.draws (hB : B.Serves issued dom A R D Err) (hErr : ∀ f t, Err f t → G f)
    (h : Intact sat issued dom A R D p) (Sat : IndexSet → Prop) :
    Draws G B.cp (p.1.Gathers issued Sat) := by
  intro p₁ hp₁ N hN p₂ hp₂
  have hstrategy : N.Closed A := h.arena ▸ h.strategies N (hp₁.evolves.strategies N hN)
  have hknown : p₂.1.known.Closed A := by
    rw [← h.arena, ← hp₂.evolves.arena]
    exact hp₂.wf.known
  rw [hp₂.evolves.arena, h.arena]
  apply (hB.errors _ p₂.2 (hstrategy.union hknown)).mono
  · exact fun _ _ h => h
  · exact fun f t hf => hErr f t hf

/-- Each operation that is proper leaves a learner intact, whether or not it fails, and only
fails as is to be expected. -/
theorem Operation.leads_run (hB : B.Serves issued dom A R D Err)
    (hErr : ∀ f t, Err f t → G f) (hlimits : Limits B issued G) {op : Operation σ}
    (hop : op.Proper issued p.1) (hp : Intact B.sat issued dom A R D p) :
    Action.Leads (op.run B) p (fun _ => Intact B.sat issued dom A R D)
      (Bears (Intact B.sat issued dom A R D) (op.Expects G)) := by
  have harena := hp.arena
  subst harena
  have hexpected : ∀ f t, Err f t → op.Expects G f := fun f t hf => .backend (hErr f t hf)
  have hnone : p.1.Gathers issued ((Network.ofScope R).Admits p.1.arena dom) p :=
    hp.wf.stays.gathers
  have hhalts : ∀ f p', p.1.Halts issued Err f p' →
      Bears (Intact B.sat issued dom p.1.arena R D) (op.Expects G) f p' := by
    rintro f p' ⟨hstays, ⟨rfl, -⟩ | rfl | hf⟩
    · exact ⟨hp.of_stays hstays, .timeout⟩
    · exact ⟨hp.of_stays hstays, .overflow⟩
    · exact ⟨hp.of_stays hstays, hexpected f p'.2 hf⟩
  cases op with
  | ask oracle q =>
    have hexcuses : Excuses ((ask oracle q).Expects G) oracle := excuses rfl
    rw [run, Action.leads_map]
    apply (leads_ask_gathers .overflow (hop.oracle _ rfl) hexcuses q hnone).mono
    · exact fun _ _ h => hp.of_gathers (after_self.1 h)
    · exact fun _ _ h => ⟨hp.of_gathers h.1, h.2⟩
  | generate fuel =>
    rw [run, Action.leads_map]
    apply (leads_generate_gathers hB fuel hp.wf hp.housed).mono
    · exact fun _ _ h => hp.of_gathers h
    · rintro f p' ⟨h, rfl | rfl | rfl | hf⟩
      · exact ⟨hp.of_gathers h, .outOfFuel⟩
      · exact ⟨hp.of_gathers h, .timeout⟩
      · exact ⟨hp.of_gathers h, .overflow⟩
      · exact ⟨hp.of_gathers h, hexpected f p'.2 hf⟩
  | preprocess oracle =>
    have hexcuses : Excuses ((preprocess oracle).Expects G) oracle := excuses rfl
    rw [run, Action.leads_map]
    apply (leads_preprocess_gathers .overflow (hop.oracle _ rfl) hexcuses hB.keeps
      (hp.draws hB hexpected _) hnone).mono
    · exact fun _ _ h => hp.of_gathers (after_self.1 h)
    · exact fun _ _ h => ⟨hp.of_gathers h.1, h.2⟩
  | process oracle fuel =>
    have hexcuses : Excuses ((process oracle fuel).Expects G) oracle := excuses rfl
    rw [run, Action.leads_map]
    apply (leads_process_gathers .overflow hB hp.housed (hop.oracle _ rfl) hexpected hexcuses
      (hlimits.mono fun _ => .backend) (hp.draws hB hexpected _) fuel hp.wf).mono
    · exact fun _ _ h => hp.of_gathers h
    · exact fun _ _ h => ⟨hp.of_gathers h.1, h.2⟩
  | isFree c =>
    rw [run, Action.leads_map]
    apply (leads_isFree_stays hB.sat hp.wf (hop.free c rfl)).mono
    · exact fun _ _ h => hp.of_stays h
    · exact fun f p' h => hhalts f p' h
  | background Ns =>
    apply (leads_addBackground_intact hp (hop.background _ rfl)).mono
    · exact fun _ _ h => h
    · exact fun _ _ h => h.elim
  | configure settings passive =>
    exact hp.of_set hp.strategies
  | replay qs =>
    exact hp.of_set hp.strategies
  | strategies Ns =>
    exact hp.of_set (hop.strategies Ns rfl)

end Learner

end Acquisition
