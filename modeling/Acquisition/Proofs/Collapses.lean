import Acquisition.Proofs.Lasting
import Acquisition.Proofs.Reordering

/-!
# What a collapse is blamed on

A run collapses on an answer or when the learned network is to be read off. The answer is a
rejected query that violates no undecided constraint, and it is noted. At the end it is a
clause of the theory of which every constraint was ruled out, and then nothing is noted: the
units that are looked at for a pair that contradicts itself are those of the theory, which has
positive ones only, and not those of the closed theory.
-/
namespace Acquisition

namespace Learner

open IndexSet

variable {σ : Type} {issued : Issued σ} {s : σ} {dom : Ranges} {Err : Failure → σ → Prop}
  {L : Learner} {q : Query} {B : Backends σ} {oracle : Oracle σ} {p : Learner × σ}
  {earlier : List Query}

/-- The query was rejected although it violates no undecided constraint. -/
structure RefutedBy (L : Learner) (q : Query) : Prop where
  rejected : q.verdict = some false
  spares : ∀ c ∈ L.undecided.constraints, ¬ q.Violates L.arena c

/-- Each constraint of some clause was ruled out. -/
def Torn (L : Learner) : Prop :=
  ∃ d ∈ L.theory.clauses, ∀ l ∈ d.literals, l.constraint ∉ L.undecided.constraints

instance (L : Learner) : Decidable L.Torn :=
  inferInstanceAs (Decidable (∃ d ∈ L.theory.clauses, _))

/-- A query that is learnt from with a collapse refutes what is left. -/
theorem Digests.refutedBy (h : L.Digests issued dom q .collapse p) (hq : q.isClassified = true) :
    p.1.RefutedBy q := by
  have hlearns : L.Learns q .collapse p.1 := h.tells.resolve_right fun hrepeats => nomatch hrepeats.2
  have hnegative : q.isPositive = false := by
    by_contra hpositive
    cases (hlearns.accepted (Bool.of_not_eq_false hpositive)).1
  constructor
  · obtain ⟨b, hb⟩ := Option.isSome_iff_exists.1 hq
    cases b with
    | false => exact hb
    | true => simp [Query.isPositive, hb] at hnegative
  · intro c hc hviolates
    rw [h.evolves.arena] at hviolates
    cases (hlearns.rejected hnegative ⟨c, h.evolves.undecided c hc, hviolates⟩).1

/-- Without a model of the closed theory some clause has nothing left. -/
theorem Closes.torn {S : ClauseStore} (hS : L.Closes S) (hL : L.Wf issued s)
    (hno : ∀ v, ¬ S.Holds v) : L.Torn := by
  obtain ⟨v, hv⟩ := hL.names.exists_affirming (· ∈ L.undecided.constraints)
  by_contra hopen
  apply hno v
  apply (hS.holds_iff v).2
  constructor
  · intro d hd
    by_contra hfails
    apply hopen
    refine ⟨d, hd, fun l hl hundecided => hfails ⟨l, hl, ?_⟩⟩
    have hlists := (hL.theory.listed d hd l hl).2
    exact (hL.names.holds_iff hlists).2 ((hv _ l hlists).2 hundecided)
  · intro c hc hout haffirms
    obtain ⟨l, hl⟩ := (hL.atoms c hc).1
    exact hout ((hv c l hl).1 haffirms)

/-- No collapse was noted, and the answers are those of before with some more. -/
structure Unblamed (issued : Issued σ) (earlier : List Query) (p : Learner × σ) : Prop where
  wf : p.1.Wf issued p.2
  clear : p.1.collapsing = none
  asked : earlier <+: p.1.asked

/-- The last answer is noted, and it refutes what is left. -/
structure Blamed (issued : Issued σ) (earlier : List Query) (p : Learner × σ) : Prop where
  wf : p.1.Wf issued p.2
  query : ∃ q qs, p.1.collapsing = some q ∧ p.1.asked = earlier ++ qs ++ [q] ∧ p.1.RefutedBy q

theorem lasts_unblamed (issued : Issued σ) (earlier : List Query) :
    Lasts issued (Unblamed issued earlier) (Blamed issued earlier) where
  wf := fun _ h => h.wf
  remains := by
    intro L L' s t h hwf _ hanswers
    obtain ⟨hasked, hcollapsing⟩ := Prod.mk.inj hanswers
    exact ⟨hwf, hcollapsing.trans h.clear, hasked ▸ h.asked⟩
  digests := by
    intro L s q r p hq h hp
    have hcollapsing := hp.collapsing
    cases r with
    | consistent =>
      refine ⟨hp.wf, hcollapsing.trans h.clear, ?_⟩
      rw [hp.asked]
      exact h.asked.trans (List.prefix_append _ _)
    | collapse =>
      obtain ⟨qs, hqs⟩ := h.asked
      have hasked : p.1.asked = earlier ++ qs ++ [q] := hqs ▸ hp.asked
      exact ⟨hp.wf, q, qs, hcollapsing, hasked, hp.refutedBy hq⟩

/-- How a run ends with no backend past its limit: with nothing to blame, with the blame on a
query that was asked or replayed in it, or with a clause that has nothing left. -/
structure Accounted (earlier : List Query) (o : Outcome) (L : Learner) : Prop where
  converged : o = .converged → L.collapsingQuery = .ok none
  collapsed : o = .collapsed →
    (∃ q qs, L.collapsingQuery = .ok (some q) ∧ L.asked = earlier ++ qs ++ [q] ∧ L.RefutedBy q) ∨
      L.collapsingQuery = .ok none ∧ L.Torn

theorem Blamed.accounted (h : Blamed issued earlier p) : p.1.Accounted earlier .collapsed where
  converged := nofun
  collapsed := by
    obtain ⟨q, qs, hq, hasked, hrefuted⟩ := h.query
    intro _
    refine .inl ⟨q, qs, ?_, hasked, hrefuted⟩
    rw [collapsingQuery_eq h.wf, hq]

theorem leads_extract_accounted {sat : SatBackend σ} (hsat : sat.Solves issued Err)
    (h : Unblamed issued earlier p) :
    Action.Leads (extract sat) p (fun o p' => p'.1.Accounted earlier o)
      fun _ => Unblamed issued earlier := by
  have hlasts := lasts_unblamed issued earlier
  obtain ⟨L, s⟩ := p
  apply (leads_extract_reads hsat h.wf).mono
  · rintro o ⟨L', t⟩ ⟨ht, S, hS, hreads⟩
    have hwf : L'.Wf issued t := hreads.alike.wf (h.wf.grows ht)
    have hquery := collapsingQuery_eq hwf
    cases hreads with
    | converged _ _ => exact ⟨fun _ => hquery.trans (congrArg _ h.clear), nofun⟩
    | collapsed hno =>
      refine ⟨nofun, fun _ => .inr ⟨hquery.trans (congrArg _ h.clear), ?_⟩⟩
      exact hS.torn h.wf hno
  · rintro f ⟨L', t⟩ ⟨ht, ⟨k, rfl⟩, -⟩
    have halike := L.alike_counters k
    exact hlasts.remains L _ s t h (halike.wf (h.wf.grows ht)) halike.evolves.remembers rfl

/-- On a learner without a collapse that was noted, a run that converges has no query to blame.
One that collapses, with no backend past its limit, can be blamed on the last query that was
asked or replayed in it, unless every constraint of some clause was ruled out. -/
theorem collapse_accounted (hB : B.Lawful issued dom Err) (hp : Reachable B issued p)
    (hclear : p.1.collapsing = none) (horacle : oracle.Keeps issued) (fuel : Nat)
    (hintime : ¬ TimesOut B oracle fuel p) :
    Action.Leads (process B oracle fuel) p (fun o p' => p'.1.Accounted p.1.asked o)
      fun _ _ => True := by
  have hunblamed : Unblamed issued p.1.asked p :=
    ⟨(hp.sane hB).wf, hclear, List.prefix_rfl⟩
  apply ((lasts_unblamed issued p.1.asked).process hB horacle
    (Q := fun o p' => p'.1.Accounted p.1.asked o)
    (fun _ h => leads_extract_accounted hB.sat.solves h) (fun _ h => h.accounted)
    (fun _ _ => ⟨nofun, nofun⟩) fuel hunblamed).mono
  · rintro o p' (h | ⟨-, -, hout⟩)
    · exact h
    · exact absurd hout hintime
  · exact fun _ _ _ => trivial

end Learner

namespace Exhaustive

open Learner

/-- The first constraint of the small instance. -/
def lone : Bias := .ofNetwork ⟨.ofList [0], .ofList [0]⟩

theorem closed_lone : lone.network.Closed sample := by
  have h : Network.ofList sample (.ofList [0]) [0] = .ok lone.network := by decide +kernel
  exact Network.closed_ofList h

/-- How a run over the first constraint ends once some queries were replayed: no backend runs
past its limit, and the outcome and the state that it leaves pass the check. -/
def endsReplay (qs : List Query) (check : Outcome → Learner × World → Bool) : Bool :=
  checksFresh lone fun L t =>
    match Action.outcome (setLimits (backends bits)) ({ L with replay := qs }, t) with
    | (.ok _, p) => (Action.outcome (run (backends bits) (judge sample wanted) 20) p).1 !=
        .error (.error .backendTimeout) &&
      match Action.outcome (process (backends bits) (judge sample wanted) 20)
          ({ L with replay := qs }, t) with
      | (.ok o, p') => check o p'
      | (.error _, _) => false
    | (.error _, _) => false

/-- A run over the first constraint, in which some queries are replayed. -/
structure Replays (qs : List Query) (p : Learner × World) (o : Outcome) (p' : Learner × World) :
    Prop where
  reachable : Reachable (backends bits) issued p
  fresh : p.1.asked = [] ∧ p.1.collapsing = none
  replay : p.1.replay = qs
  intime : ¬ TimesOut (backends bits) (judge sample wanted) 20 p
  ends : Action.outcome (process (backends bits) (judge sample wanted) 20) p = (.ok o, p')

theorem exists_of_endsReplay {qs : List Query} {check : Outcome → Learner × World → Bool}
    (h : endsReplay qs check = true) : ∃ p o p', Replays qs p o p' ∧ check o p' = true := by
  obtain ⟨L, t, hL, hcheck⟩ := exists_of_checksFresh h
  have hnothing := Network.closed_ofScope sample .empty
  have hfresh := ((leads_start (sat_lawful fun _ _ => True) {} built_sample closed_lone
    hnothing).of_ok hL).2
  split at hcheck
  · next p₁ hset =>
    obtain ⟨hintime, hcheck⟩ := Bool.and_eq_true_iff.1 hcheck
    split at hcheck
    · next o p' hprocess =>
      refine ⟨({ L with replay := qs }, t), o, p', ⟨?_, hfresh.answers, rfl, ?_, hprocess⟩, hcheck⟩
      · exact .step (.start built_sample closed_lone hnothing hL) (.replay qs)
      · rintro ⟨p₂, p₃, hset', hrun⟩
        rw [hset] at hset'
        cases hset'
        rw [hrun] at hintime
        cases hintime
    · cases hcheck
  · cases hcheck

/-- A query is accepted that violates the only constraint of the bias, and then it is rejected.
The run collapses and the rejected query is to blame. -/
theorem collapse_blames_rejected : ∃ p p', Replays
    [judged true [(0, 1)], judged false [(0, 1)]] p .collapsed p' ∧
    ∃ q qs, p'.1.collapsingQuery = .ok (some q) ∧ p'.1.asked = qs ++ [q] ∧ p'.1.RefutedBy q := by
  have h : endsReplay [judged true [(0, 1)], judged false [(0, 1)]]
      (fun o p => o == .collapsed && !decide p.1.Torn) = true := by
    decide +kernel
  obtain ⟨p, o, p', hrun, hcheck⟩ := exists_of_endsReplay h
  simp only [Bool.and_eq_true, beq_iff_eq, Bool.not_eq_true', decide_eq_false_iff_not] at hcheck
  obtain ⟨rfl, hwhole⟩ := hcheck
  have haccounted := (collapse_accounted (backends_lawful bits fun _ _ => True) hrun.reachable
    hrun.fresh.2 (judge_keeps sample wanted) 20 hrun.intime).of_ok hrun.ends
  rcases haccounted.collapsed rfl with ⟨q, qs, hq, hasked, hrefuted⟩ | ⟨-, htorn⟩
  · rw [hrun.fresh.1, List.nil_append] at hasked
    exact ⟨p, p', hrun, q, qs, hq, hasked, hrefuted⟩
  · exact absurd htorn hwhole

/-- The same query is rejected, from which the only constraint of the bias is learnt, and then
it is accepted, which rules the constraint out. The run collapses and nothing is to blame,
although the rejected query is the origin of a pair of units of the closed theory that
contradicts itself. -/
theorem collapse_blames_nothing : ∃ p p' S p'', Replays
    [judged false [(0, 1)], judged true [(0, 1)]] p .collapsed p' ∧
    p'.1.collapsingQuery = .ok none ∧ Action.outcome closedTheory p' = (.ok S, p'') ∧
    S.inconsistency = .ok (some (judged false [(0, 1)])) := by
  have h : endsReplay [judged false [(0, 1)], judged true [(0, 1)]] (fun o p =>
      o == .collapsed && decide (p.1.collapsingQuery = .ok none) &&
        match Action.outcome closedTheory p with
        | (.ok S, _) => decide (S.inconsistency = .ok (some (judged false [(0, 1)])))
        | (.error _, _) => false) = true := by
    decide +kernel
  obtain ⟨p, o, p', hrun, hcheck⟩ := exists_of_endsReplay h
  obtain ⟨hcheck, hclosed⟩ := Bool.and_eq_true_iff.1 hcheck
  simp only [Bool.and_eq_true, beq_iff_eq, decide_eq_true_eq] at hcheck
  obtain ⟨rfl, hnothing⟩ := hcheck
  split at hclosed
  · next S p'' hS => exact ⟨p, p', S, p'', hrun, hnothing, hS, of_decide_eq_true hclosed⟩
  · cases hclosed

end Exhaustive

end Acquisition
