import Acquisition.Proofs.Lasting

/-!
# The learned network agrees with the answers

Whatever an oracle goes by, what a learner knows accounts for each answer that it learnt
from, as long as no collapse was reported: no undecided constraint is violated by an accepted
query, and of each rejected query there is a clause whose undecided constraints are all
violated by it. A network that is read off is made of undecided constraints and has one of
each clause, and so it agrees with all the answers, also with those that no network
describes.
-/
namespace Acquisition

namespace Learner

open Checked IndexSet Procedure

variable {σ : Type} {issued : Issued σ} {s t : σ} {dom : Ranges} {Err : Failure → σ → Prop}
  {L L' : Learner} {q : Query} {r : Learnt} {kept : Prop} {p p' : Learner × σ}

/-- The constraints agree with the answers so far: all of them hold on each accepted query,
and some of them fails on each rejected one. -/
structure Fits (L : Learner) (S : IndexSet) : Prop where
  accepted : ∀ q ∈ L.accepted, ∀ c ∈ S, L.arena.Holds q.valuation c
  rejected : ∀ q ∈ L.rejected, ∃ c ∈ S, ¬ L.arena.Holds q.valuation c

instance (L : Learner) (S : IndexSet) : Decidable (L.Fits S) :=
  decidable_of_iff ((∀ q ∈ L.accepted, ∀ c ∈ S.toList, L.arena.Holds q.valuation c) ∧
      ∀ q ∈ L.rejected, ∃ c ∈ S.toList, ¬ L.arena.Holds q.valuation c) <| by
    simp only [mem_toList']
    exact ⟨fun h => ⟨h.1, h.2⟩, fun h => ⟨h.accepted, h.rejected⟩⟩

/-- The constraints of `W` give the verdicts that were given so far. -/
def Explains (L : Learner) (W : ConstraintId → Prop) : Prop :=
  ∀ q ∈ L.asked, ∀ b, q.verdict = some b → q.Truly L.arena W b

/-- A query over the variables of the bias violates the constraints that do not hold on it. -/
theorem Wf.violates_iff (h : L.Wf issued s) (hq : L.bias.scope ⊆ q.scope) {c : ConstraintId}
    (hc : c ∈ L.bias.constraints) : q.Violates L.arena c ↔ ¬ L.arena.Holds q.valuation c :=
  ⟨And.right, fun hfails => ⟨fun v hv => hq v ((h.closed c hc).2 v hv), hfails⟩⟩

theorem Wf.fits_iff (h : L.Wf issued s) (hcovers : ∀ q ∈ L.asked, L.bias.scope ⊆ q.scope)
    {S : IndexSet} (hS : S ⊆ L.bias.constraints) : L.Fits S ↔ L.Explains (· ∈ S) := by
  have hviolates : ∀ q ∈ L.asked, ∀ c ∈ S,
      (q.Violates L.arena c ↔ ¬ L.arena.Holds q.valuation c) :=
    fun q hq c hc => h.violates_iff (hcovers q hq) (hS c hc)
  constructor
  · intro hfits q hq b hb
    cases b with
    | true =>
      apply iff_of_true rfl
      intro c hc hv
      have hin : q ∈ L.accepted := List.mem_filter.2 ⟨hq, beq_iff_eq.2 hb⟩
      exact (hviolates q hq c hc).1 hv (hfits.accepted q hin c hc)
    | false =>
      have hin : q ∈ L.rejected := List.mem_filter.2 ⟨hq, beq_iff_eq.2 hb⟩
      obtain ⟨c, hc, hfails⟩ := hfits.rejected q hin
      exact iff_of_false Bool.false_ne_true fun hno => hno c hc ((hviolates q hq c hc).2 hfails)
  · intro hexplains
    apply Fits.mk
    · intro q hin c hc
      obtain ⟨hq, hb⟩ := List.mem_filter.1 hin
      by_contra hfails
      have hno := (hexplains q hq true (eq_of_beq hb)).1 rfl
      exact hno c hc ((hviolates q hq c hc).2 hfails)
    · intro q hin
      obtain ⟨hq, hb⟩ := List.mem_filter.1 hin
      by_contra hall
      apply Bool.false_ne_true
      apply (hexplains q hq false (eq_of_beq hb)).2
      intro c hc hv
      exact hall ⟨c, hc, (hviolates q hq c hc).1 hv⟩

/-- What is known accounts for the verdict on a query. -/
structure Accounts (L : Learner) (q : Query) : Prop where
  accepted : q.verdict = some true → ∀ c ∈ L.undecided.constraints, ¬ q.Violates L.arena c
  rejected : q.verdict = some false → ∃ d ∈ L.theory.clauses, ∀ l ∈ d.literals,
    l.constraint ∈ L.undecided.constraints → q.Violates L.arena l.constraint

theorem Remembers.accounts (h : L.Remembers L') (hq : L.Accounts q) : L'.Accounts q := by
  apply Accounts.mk
  · intro hb c hc
    rw [h.arena]
    exact hq.accepted hb c (h.undecided c hc)
  · intro hb
    obtain ⟨d, hd, hviolates⟩ := hq.rejected hb
    obtain ⟨e, he, hed⟩ := h.theory d hd
    apply Exists.intro e
    apply And.intro he
    intro l hl hopen
    rw [h.arena]
    exact hviolates l (hed l hl) (h.undecided _ hopen)

/-- What satisfies all that is known gives the verdicts that are accounted for. -/
theorem Accounts.truly (h : L.Accounts q) {b : Bool} (hb : q.verdict = some b)
    {W : ConstraintId → Prop} (hopen : ∀ c, W c → c ∈ L.undecided.constraints)
    (htheory : ∀ d ∈ L.theory.clauses, ∃ l ∈ d.literals, W l.constraint) :
    q.Truly L.arena W b := by
  cases b with
  | true => exact iff_of_true rfl fun c hc => h.accepted hb c (hopen c hc)
  | false =>
    obtain ⟨d, hd, hviolates⟩ := h.rejected hb
    obtain ⟨l, hl, hWl⟩ := htheory d hd
    exact iff_of_false Bool.false_ne_true fun hno => hno _ hWl (hviolates l hl (hopen _ hWl))

theorem Learns.accounts (h : L.Learns q .consistent L') (harena : L'.arena = L.arena) :
    L'.Accounts q := by
  apply Accounts.mk
  · intro hb c hc
    rw [harena]
    exact (h.accepted (beq_iff_eq.2 hb)).2 c hc
  · intro hb
    have hnegative : q.isPositive = false := by
      rw [Query.isPositive, hb]
      rfl
    have hkappa : ∃ c, L.Kappa q c := by
      by_contra hno
      cases h.collapsed hnegative hno
    obtain ⟨-, d, hd, hviolates⟩ := h.rejected hnegative hkappa
    apply Exists.intro d
    apply And.intro hd
    intro l hl _
    rw [harena]
    exact hviolates l hl

theorem Repeats.accounts (h : L.Repeats q) (hall : ∀ e ∈ L.asked, L.Accounts e) :
    L.Accounts q := by
  apply Accounts.mk
  · intro hb
    have hq := h.rejected
    rw [Query.isNegative, hb] at hq
    cases hq
  · intro _
    obtain ⟨e, he, hrejected, hsame⟩ := h.earlier
    obtain ⟨d, hd, hviolates⟩ := (hall e he).rejected (eq_of_beq hrejected)
    apply Exists.intro d
    apply And.intro hd
    intro l hl hopen
    exact ((hsame _).1 ⟨hopen, hviolates l hl hopen⟩).2

/-- To learn from one more query accounts for it as well, unless that collapses. -/
theorem Digests.accounts (hp : L.Digests issued dom q .consistent p)
    (hall : ∀ e ∈ L.asked, L.Accounts e) : ∀ e ∈ p.1.asked, p.1.Accounts e := by
  have hremembers := hp.evolves.remembers
  intro e he
  rw [hp.asked] at he
  rcases List.mem_append.1 he with he | he
  · exact hremembers.accounts (hall e he)
  · rw [List.mem_singleton.1 he]
    rcases hp.tells with hlearns | ⟨hrepeats, -⟩
    · exact hlearns.accounts hp.evolves.arena
    · exact hremembers.accounts (hrepeats.accounts hall)

/-- As long as no collapse was noted, what is known accounts for all answers. None was noted
if that is so from the start. -/
structure Heeds (issued : Issued σ) (kept : Prop) (p : Learner × σ) : Prop where
  wf : p.1.Wf issued p.2
  accounts : p.1.collapsing = none → ∀ q ∈ p.1.asked, p.1.Accounts q
  clear : kept → p.1.collapsing = none

/-- What is noted of the answers stays the same, and nothing known is lost. -/
theorem Heeds.evolves (h : Heeds issued kept (L, s)) (hwf : L'.Wf issued t)
    (hremembers : L.Remembers L') (hanswers : L'.answers = L.answers) :
    Heeds issued kept (L', t) := by
  obtain ⟨hasked, hcollapsing⟩ := Prod.mk.inj hanswers
  apply Heeds.mk hwf
  · intro hnone q hq
    apply hremembers.accounts
    exact h.accounts (hcollapsing ▸ hnone) q (hasked ▸ hq)
  · exact fun hkept => hcollapsing.trans (h.clear hkept)

theorem Heeds.loosen (h : Heeds issued kept p) : Heeds issued False p :=
  ⟨h.wf, h.accounts, nofun⟩

theorem Heeds.digests (h : Heeds issued kept (L, s)) (hp : L.Digests issued dom q r p) :
    After (Heeds issued kept) (Heeds issued False) r p := by
  have hcollapsing := hp.collapsing
  cases r with
  | consistent =>
    rw [if_neg nofun] at hcollapsing
    apply Heeds.mk hp.wf
    · intro hnone
      exact hp.accounts (h.accounts (hcollapsing ▸ hnone))
    · exact fun hkept => hcollapsing.trans (h.clear hkept)
  | collapse =>
    rw [if_pos rfl] at hcollapsing
    apply Heeds.mk hp.wf
    · intro hnone
      rw [hcollapsing] at hnone
      cases hnone
    · exact nofun

theorem lasts_heeds (issued : Issued σ) (kept : Prop) :
    Lasts issued (Heeds issued kept) (Heeds issued False) where
  wf := fun _ h => h.wf
  remains := fun _ _ _ _ h hwf hremembers hanswers => h.evolves hwf hremembers hanswers
  digests := fun _ _ _ _ _ _ h hp => h.digests hp

theorem Fresh.heeds {A : Arena} {bias : Bias} {known : Network}
    (hL : Fresh issued A bias known L s) : Heeds issued True (L, s) := by
  apply Heeds.mk hL.wf
  · intro _ q hq
    rw [hL.answers.1] at hq
    cases hq
  · exact fun _ => hL.answers.2

/-- The learned network is made of undecided constraints, among them one of each clause of
the theory. -/
def Selects (L : Learner) : Prop :=
  ∃ N, L.learned = some N ∧ N.constraints ⊆ L.undecided.constraints ∧
    ∀ d ∈ L.theory.clauses, ∃ l ∈ d.literals, l.constraint ∈ N.constraints

/-- How a run ends: the answers are heeded, and on convergence a network is learnt. -/
structure Concludes (issued : Issued σ) (kept : Prop) (o : Outcome) (p : Learner × σ) : Prop where
  heeds : Heeds issued False p
  learned : kept → o = .converged → p.1.collapsing = none ∧ p.1.Selects

theorem leads_extract_concludes {sat : SatBackend σ} (hsat : sat.Lawful issued Err)
    (hp : Heeds issued kept p) :
    Action.Leads (extract sat) p (Concludes issued kept) fun _ => Heeds issued kept := by
  obtain ⟨L, s⟩ := p
  apply (leads_extract_reads hsat.solves hp.wf).mono
  · rintro o ⟨L', t⟩ ⟨ht, S, hS, hreads⟩
    have halike := hreads.alike
    have hheeds : L'.answers = L.answers → Heeds issued kept (L', t) := fun h =>
      hp.evolves (halike.wf (hp.wf.grows ht)) halike.evolves.remembers h
    cases hreads with
    | @converged k N v hv hN =>
      apply Concludes.mk (hheeds rfl).loosen
      intro hkept _
      apply And.intro (hp.clear hkept)
      refine ⟨N, rfl, ?_, ?_⟩
      · intro c hc
        obtain ⟨d, hd, l, hl, rfl, hlv⟩ := (hN c).1 hc
        exact hS.undecided hv hd hl hlv
      · intro d hd
        obtain ⟨l, hl, e, he, hle, hlv⟩ := hS.hits hp.wf hv hd
        exact ⟨l, hl, (hN _).2 ⟨e, he, l, hle, rfl, hlv⟩⟩
    | collapsed _ => exact ⟨(hheeds rfl).loosen, nofun⟩
  · rintro f ⟨L', t⟩ ⟨ht, ⟨k, rfl⟩, -⟩
    have halike := L.alike_counters k
    exact hp.evolves (halike.wf (hp.wf.grows ht)) halike.evolves.remembers rfl

/-- The answers are heeded throughout a run. -/
theorem carries_heeds {B : Backends σ} {oracle : Oracle σ} (hB : B.Lawful issued dom Err)
    (horacle : oracle.Keeps issued) (kept : Prop) :
    Carries B oracle issued (Heeds issued kept) (Heeds issued False) (fun _ _ => True)
      (fun _ => True) (Concludes issued kept) (fun _ => True) where
  toConducts := (lasts_heeds issued kept).conducts hB horacle
    (fun _ hp => leads_extract_concludes hB.sat hp) fun _ hp => ⟨hp, nofun⟩
  stopped := by
    intro p hp
    constructor
    · exact ⟨hp.loosen, nofun⟩
    · have halike : p.1.Alike { p.1 with timedOut := true } :=
        ⟨rfl, rfl, rfl, rfl, rfl, fun _ => id, rfl, rfl, rfl⟩
      have h := (lasts_heeds issued kept).steady p.1 _ p.2 p.2 hp halike rfl rfl
        (.refl issued p.2)
      exact ⟨h.loosen, nofun⟩

theorem leads_process_concludes {B : Backends σ} {oracle : Oracle σ}
    (hB : B.Lawful issued dom Err) (horacle : oracle.Keeps issued) (fuel : Nat)
    (hp : Heeds issued kept p) :
    Action.Leads (process B oracle fuel) p (Concludes issued kept) fun _ => Heeds issued kept :=
  leads_bears_all.1 ((carries_heeds hB horacle kept).process (limits_all hB.sat.solves hB.keeps)
    fuel hp fun _ _ _ _ _ hp' => leads_bears_all.2
      ((lasts_heeds issued kept).preprocess hB.keeps horacle hp'))

/-- Each step heeds the answers. -/
theorem Step.heeds {B : Backends σ} (hB : B.Lawful issued dom Err) (hstep : Step B issued p p')
    (hsane : Sane issued p) (hp : Heeds issued False p) : Heeds issued False p' := by
  obtain ⟨hsane', hremembers⟩ := hstep.sane hB hsane
  have hlasts := lasts_heeds issued False
  cases hstep with
  | ask q horacle => exact (hlasts.ask horacle q hp).outcome (fun _ _ => after_self.1) fun _ _ h => h
  | generate fuel => exact (hlasts.generate hB fuel hp).outcome (fun _ _ h => h) fun _ _ h => h
  | preprocess horacle =>
    exact (hlasts.preprocess hB.keeps horacle hp).outcome (fun _ _ => after_self.1) fun _ _ h => h
  | process fuel horacle =>
    exact (leads_process_concludes hB horacle fuel hp).outcome (fun _ _ h => h.heeds)
      fun _ _ h => h
  | background Ns =>
    have hrests := rests_addBackground aside_answers Ns p rfl
    have hanswers := hrests.outcome (fun _ _ h => h) fun _ _ h => h
    exact hp.evolves hsane'.wf hremembers hanswers
  | configure settings passive => exact hp.evolves hsane'.wf hremembers rfl
  | replay qs => exact hp.evolves hsane'.wf hremembers rfl
  | strategies _ => exact hp.evolves hsane'.wf hremembers rfl

theorem Reachable.heeds {B : Backends σ} (hB : B.Lawful issued dom Err)
    (hp : Reachable B issued p) : Heeds issued False p := by
  induction hp with
  | start hA hbias hknown hL =>
    obtain ⟨-, hfresh⟩ := (leads_start hB.sat _ hA hbias hknown).of_ok hL
    exact hfresh.heeds.loosen
  | step hreach hstep ih => exact hstep.heeds hB (hreach.sane hB) ih

/-- A network of undecided constraints with one of each clause agrees with the answers that
are accounted for. -/
theorem Heeds.fits (h : Heeds issued kept p) (hnone : p.1.collapsing = none)
    (hcovers : ∀ q ∈ p.1.asked, p.1.bias.scope ⊆ q.scope) {N : Network}
    (hN : N.constraints ⊆ p.1.undecided.constraints)
    (hhits : ∀ d ∈ p.1.theory.clauses, ∃ l ∈ d.literals, l.constraint ∈ N.constraints) :
    p.1.Fits N.constraints := by
  have hbias : N.constraints ⊆ p.1.bias.constraints := Subset.trans hN h.wf.undecided
  apply (h.wf.fits_iff hcovers hbias).2
  intro q hq b hb
  exact (h.accounts hnone q hq).truly hb hN hhits

/-- The network that a run learns agrees with every answer, whatever the oracle goes by: all
of its constraints are undecided, they hold on each accepted query, and some of them fails on
each rejected one. -/
theorem learned_agrees {B : Backends σ} (hB : B.Lawful issued dom Err)
    (hp : Reachable B issued p) (hclear : p.1.collapsing = none) {oracle : Oracle σ}
    (horacle : oracle.Keeps issued) (fuel : Nat) :
    Action.Leads (process B oracle fuel) p
      (fun o p' => o = .converged → ∃ N, p'.1.learned = some N ∧
        N.constraints ⊆ p'.1.undecided.constraints ∧
          ((∀ q ∈ p'.1.asked, p'.1.bias.scope ⊆ q.scope) → p'.1.Fits N.constraints))
      fun _ _ => True := by
  have hheeds := hp.heeds hB
  have hstart : Heeds issued True p := ⟨hheeds.wf, hheeds.accounts, fun _ => hclear⟩
  apply (leads_process_concludes hB horacle fuel hstart).mono
  · intro o p' h ho
    obtain ⟨hnone, N, hN, hopen, hhits⟩ := h.learned trivial ho
    exact ⟨N, hN, hopen, fun hcovers => h.heeds.fits hnone hcovers hopen hhits⟩
  · exact fun _ _ _ => trivial

end Learner

namespace Exhaustive

open Learner

/-- An oracle that accepts a query if its first two values differ. -/
def unequal : Oracle World := fun q => pure (.ofBool (q.valuation 0 != q.valuation 1))

theorem unequal_keeps : unequal.Keeps issued := fun _ s => .refl issued s

/-- Whether a run from a state converges after one query was accepted and one rejected. -/
def convergesOnTwo (p : Learner × World) : Bool :=
  match Action.outcome (process (backends bits) unequal 20) p with
  | (.ok .converged, p') => p'.1.accepted.length = 1 ∧ p'.1.rejected.length = 1 ∧
      ∀ q ∈ p'.1.asked, p'.1.bias.scope ⊆ q.scope
  | _ => false

/-- No network over the bias of the small instance tells whether two values differ. Still the
network that is learnt agrees with the answers, of which there is one of each kind. -/
theorem agrees_unequal : ∃ p p' N, Reachable (backends bits) issued p ∧
    Action.outcome (process (backends bits) unequal 20) p = (.ok .converged, p') ∧
      p'.1.accepted.length = 1 ∧ p'.1.rejected.length = 1 ∧ p'.1.learned = some N ∧
        N.constraints ⊆ p'.1.undecided.constraints ∧ p'.1.Fits N.constraints := by
  have h : (afterAsking []).any (fun p => p.1.collapsing = none && convergesOnTwo p) = true := by
    decide +kernel
  obtain ⟨p, hp, hcheck⟩ := (Option.any_eq_true _ _).1 h
  obtain ⟨hclear, hrun⟩ := Bool.and_eq_true_iff.1 hcheck
  rw [convergesOnTwo] at hrun
  split at hrun
  · next p' hprocess =>
    obtain ⟨haccepted, hrejected, hcovers⟩ := of_decide_eq_true hrun
    have hreach := reachable_afterAsking hp
    have hagrees := learned_agrees (backends_lawful bits fun _ _ => True) hreach
      (of_decide_eq_true hclear) unequal_keeps 20
    obtain ⟨N, hN, hopen, hfits⟩ := hagrees.of_ok hprocess rfl
    exact ⟨p, p', N, hreach, hprocess, haccepted, hrejected, hN, hopen, hfits hcovers⟩
  · cases hrun

end Exhaustive

end Acquisition
