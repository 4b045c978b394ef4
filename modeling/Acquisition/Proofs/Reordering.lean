import Acquisition.Proofs.Acquiring
import Acquisition.Proofs.Agreement
import Acquisition.Proofs.Upholding

/-!
# The order of the evidence

A run that only replays classified queries takes in one after the other. If they lead to a
collapse, no constraints of the bias can stand behind all of them. If the run converges, the
undecided constraints stand behind them. Both are about the queries as a set, and so the order
in which they are replayed has no bearing on how the run ends.

There is one exception. A rejected query that leaves one constraint to blame rules out its
negation, but a clause that is shortened to one constraint later on does not. The negation is
then taken to be undecided beside the constraint, which may hide that a rejection is not
explained, and whether it does depends on the order. A learner in such a state is stranded.
-/
namespace Acquisition

open Checked IndexSet ClauseStore

/-- The constraints of `W` stand behind the verdicts on the queries: they are of the bias and
give these verdicts, and where only one of them rejects a query, they do not include its
negation. -/
structure Admits (A : Arena) (bias : IndexSet) (qs : List Query) (W : ConstraintId → Prop) :
    Prop where
  bias : ∀ c, W c → c ∈ bias
  truly : ∀ q ∈ qs, ∀ b, q.verdict = some b → q.Truly A W b
  alone : ∀ q ∈ qs, q.verdict = some false → ∀ c, W c → q.Violates A c →
    (∀ d, W d → q.Violates A d → d = c) → ¬ W (Arena.twin c)

/-- The order of the queries is of no account, nor how often each of them is there. -/
theorem Admits.of_subset {A : Arena} {bias : IndexSet} {qs qs' : List Query}
    {W : ConstraintId → Prop} (h : Admits A bias qs W) (hsub : qs' ⊆ qs) :
    Admits A bias qs' W := by
  apply Admits.mk
  · exact h.bias
  · intro q hq
    exact h.truly q (hsub hq)
  · intro q hq
    exact h.alone q (hsub hq)

namespace Learner

variable {σ : Type} {issued : Issued σ} {s : σ} {dom : Ranges} {Err : Failure → σ → Prop}
  {L L' : Learner} {q : Query} {qs : List Query} {r : Learnt} {p p' : Learner × σ}
  {W : ConstraintId → Prop} {oracle : Oracle σ}

/-- A constraint is undecided beside its negation, and still some clause is about no other
undecided constraint. -/
def Stranded (L : Learner) : Prop :=
  ∃ c ∈ L.undecided.constraints, Arena.twin c ∈ L.undecided.constraints ∧
    ∃ d ∈ L.theory.clauses, ∀ l ∈ d.literals,
      l.constraint ∈ L.undecided.constraints → l.constraint = c

instance (L : Learner) : Decidable L.Stranded :=
  decidable_of_iff (∃ c ∈ L.undecided.toList, Arena.twin c ∈ L.undecided.constraints ∧
      ∃ d ∈ L.theory.clauses, ∀ l ∈ d.literals,
        l.constraint ∈ L.undecided.constraints → l.constraint = c) <|
    exists_congr fun _ => and_congr_left' mem_toList'

/-- What stands behind a query and upholds what is known allows to learn from the query. -/
theorem Upholds.allows (h : L.Upholds W) (hW : Admits L.arena L.bias.constraints qs W)
    (hq : q ∈ qs) (hclassified : q.isClassified = true) : L.Allows q W := by
  obtain ⟨b, hb⟩ := Option.isSome_iff_exists.1 hclassified
  have htruly := hW.truly q hq b hb
  have hkappa : ∀ c, W c → (L.Kappa q c ↔ q.Violates L.arena c) :=
    fun c hc => and_iff_right (h.undecided c hc)
  have hpositive : q.isPositive = b := by
    rw [Query.isPositive, hb]
    cases b with
    | true => rfl
    | false => rfl
  apply Allows.mk
  · rw [Agrees, hpositive]
    apply htruly.trans
    constructor
    · intro hno c hc hWc
      exact hno c hWc hc.2
    · intro hno c hWc hv
      exact hno c ((hkappa c hWc).2 hv) hWc
  · intro hrejected c hc honly
    rw [hpositive] at hrejected
    subst hrejected
    -- The query is rejected, and so the one constraint to blame is in `W`.
    have hblame : ∃ d, W d ∧ q.Violates L.arena d := by
      by_contra hnone
      apply Bool.false_ne_true
      apply htruly.2
      intro d hd hv
      exact hnone ⟨d, hd, hv⟩
    obtain ⟨d, hd, hv⟩ := hblame
    have hdc : d = c := honly d ((hkappa d hd).2 hv)
    apply hW.alone q hq hb c (hdc ▸ hd) hc.2
    intro e he hve
    exact honly e ((hkappa e he).2 hve)

/-- What a learner knows is the evidence that it was given: it accounts for the verdicts, and
what stands behind them upholds it. -/
structure TakesIn (issued : Issued σ) (p : Learner × σ) : Prop where
  wf : p.1.Wf issued p.2
  accounts : ∀ q ∈ p.1.asked, p.1.Accounts q
  upholds : ∀ W, Admits p.1.arena p.1.bias.constraints p.1.asked W → p.1.Upholds W

theorem Alike.takesIn (h : L.Alike L') (hanswers : L'.answers = L.answers)
    (hL : TakesIn issued (L, s)) : TakesIn issued (L', s) := by
  have hasked : L'.asked = L.asked := (Prod.mk.inj hanswers).1
  apply TakesIn.mk
  · exact h.wf hL.wf
  · intro q hq
    rw [hasked] at hq
    exact h.evolves.remembers.accounts (hL.accounts q hq)
  · intro W hW
    rw [h.arena, h.bias, hasked] at hW
    exact h.upholds.2 (hL.upholds W hW)

theorem Fresh.takesIn {A : Arena} {bias : Bias} {known : Network}
    (hL : Fresh issued A bias known L s) : TakesIn issued (L, s) := by
  apply TakesIn.mk hL.wf
  · rw [hL.answers.1]
    exact nofun
  · intro W hW
    apply Upholds.mk
    · rw [hL.theory]
      exact nofun
    · rw [hL.undecided]
      exact hW.bias

/-- What becomes of a learner that is given more evidence. -/
structure Taken (issued : Issued σ) (L : Learner) (qs : List Query) (r : Learnt)
    (p : Learner × σ) : Prop where
  evolves : L.Evolves p.1
  consistent : r = .consistent → TakesIn issued p ∧ p.1.asked = L.asked ++ qs
  collapse : r = .collapse → ∀ W, ¬ Admits L.arena L.bias.constraints (L.asked ++ qs) W

theorem Taken.of_consistent (hevolves : L.Evolves p.1) (hp : TakesIn issued p)
    (hasked : p.1.asked = L.asked ++ qs) : L.Taken issued qs .consistent p :=
  ⟨hevolves, fun _ => ⟨hp, hasked⟩, nofun⟩

theorem Taken.of_collapse (hevolves : L.Evolves p.1)
    (h : ∀ W, ¬ Admits L.arena L.bias.constraints (L.asked ++ qs) W) :
    L.Taken issued qs .collapse p := ⟨hevolves, nofun, fun _ => h⟩

/-- Nothing stands behind a query on which learning collapses. -/
theorem Digests.taken (hp : L.Digests issued dom q r p) (hL : TakesIn issued (L, s))
    (hq : q.isClassified = true)
    (hupholds : ∀ W, L.Upholds W → L.Allows q W → p.1.Upholds W) : L.Taken issued [q] r p := by
  have hsub : L.asked ⊆ L.asked ++ [q] := List.subset_append_left _ _
  have hallows : ∀ W, Admits L.arena L.bias.constraints (L.asked ++ [q]) W →
      L.Upholds W ∧ L.Allows q W := by
    intro W hW
    have hbefore := hL.upholds W (hW.of_subset hsub)
    exact ⟨hbefore, hbefore.allows hW (by simp) hq⟩
  apply Taken.mk hp.evolves
  · rintro rfl
    refine ⟨⟨hp.wf, hp.accounts hL.accounts, ?_⟩, hp.asked⟩
    intro W hW
    rw [hp.evolves.arena, hp.evolves.bias, hp.asked] at hW
    obtain ⟨hbefore, hallow⟩ := hallows W hW
    exact hupholds W hbefore hallow
  · rintro rfl W hW
    rcases hp.tells with hlearns | ⟨-, hr⟩
    · cases hlearns.consistent (hallows W hW).2.agrees
    · cases hr

theorem leads_learnEarly_taken (hL : TakesIn issued (L, s)) (hq : q.isClassified = true) :
    Action.Leads (learnEarly q) (L, s)
      (fun r p => L.Taken issued [q] r p ∧ p.1.deadline = L.deadline)
      (fun f _ => f = .fault .overflow) := by
  have hdigests := leads_learnEarly_digests (fun _ _ => True) hL.wf q
  have hupholds := leads_learnEarly_upholds hL.wf q
  have hrests := rests_learnEarly aloof_deadline q (L, s) rfl
  apply ((hdigests.and hupholds).and hrests).mono
  · intro r p hp
    exact ⟨hp.1.1.taken hL hq hp.1.2, hp.2⟩
  · intro f p hf
    exact hf.1.1.1

/-- The evidence is taken in, unless a limit has passed. -/
theorem leads_learnReplayed_taken (hL : TakesIn issued (L, s))
    (hqs : ∀ q ∈ qs, q.isClassified = true) :
    Action.Leads (learnReplayed oracle qs) (L, s) (L.Taken issued qs)
      (fun f _ => f = .fault .overflow ∨ f = .error .timeout ∧ L.deadline = .passed) := by
  induction qs generalizing L s with
  | nil => exact .of_consistent (.refl L) hL (List.append_nil _).symm
  | cons q qs ih =>
    have hq := hqs q List.mem_cons_self
    have halike := L.alike_counters { L.counters with queries := L.counters.queries + 1 }
    rw [learnReplayed, Action.leads_bind, leads_poll]
    refine ⟨fun _ => ?_, fun hpassed => .inr ⟨rfl, hpassed⟩⟩
    dsimp only
    rw [if_pos hq, Action.leads_bind, leads_count, Action.leads_bind, Action.leads_pure,
      Action.leads_bind]
    apply (leads_learnEarly_taken (halike.takesIn rfl hL) hq).mono
    · rintro r ⟨L', t⟩ ⟨htaken, hdeadline⟩
      have hevolves : L.Evolves L' := halike.evolves.trans htaken.evolves
      have hsplit : L.asked ++ q :: qs = (L.asked ++ [q]) ++ qs := by simp
      cases r with
      | collapse =>
        rw [if_pos rfl, Action.leads_pure]
        apply Taken.of_collapse hevolves
        intro W hW
        apply htaken.collapse rfl W
        apply hW.of_subset
        rw [hsplit]
        exact List.subset_append_left _ _
      | consistent =>
        rw [if_neg (by simp)]
        obtain ⟨hL', hasked⟩ := htaken.consistent rfl
        have hasked' : L'.asked ++ qs = L.asked ++ q :: qs := by rw [hasked, hsplit]
        apply (ih hL' fun q' hq' => hqs q' (List.mem_cons_of_mem q hq')).mono
        · intro r' p' htaken'
          apply Taken.mk (hevolves.trans htaken'.evolves)
          · intro hr'
            rw [← hasked']
            exact htaken'.consistent hr'
          · intro hr' W hW
            apply htaken'.collapse hr' W
            rwa [hasked', hevolves.arena, hevolves.bias]
        · intro f _ hf
          rw [hdeadline] at hf
          exact hf
    · intro f _ hf
      exact .inl hf

/-- The outcome of a run tells whether anything stands behind the evidence. -/
structure Decides (A : Arena) (bias : IndexSet) (qs : List Query) (o : Outcome) (L : Learner) :
    Prop where
  ends : o ≠ .timeout
  converged : o = .converged → ¬ L.Stranded → ∃ W, Admits A bias qs W
  collapsed : o = .collapsed → ∀ W, ¬ Admits A bias qs W

theorem Decides.of_converged {A : Arena} {bias : IndexSet}
    (h : ¬ L.Stranded → ∃ W, Admits A bias qs W) : Decides A bias qs .converged L :=
  ⟨nofun, fun _ => h, nofun⟩

theorem Decides.of_collapsed {A : Arena} {bias : IndexSet} (h : ∀ W, ¬ Admits A bias qs W) :
    Decides A bias qs .collapsed L := ⟨nofun, nofun, fun _ => h⟩

/-- The undecided constraints stand behind the evidence if they hit each clause of the theory,
unless the learner is stranded. -/
theorem TakesIn.admits (hL : TakesIn issued (L, s)) (hfree : ¬ L.Stranded)
    (hhits : ∀ d ∈ L.theory.clauses, ∃ l ∈ d.literals, l.constraint ∈ L.undecided.constraints) :
    Admits L.arena L.bias.constraints L.asked (· ∈ L.undecided.constraints) := by
  apply Admits.mk
  · exact hL.wf.undecided
  · intro q hq b hb
    exact (hL.accounts q hq).truly hb (fun _ h => h) hhits
  · intro q hq hb c hc _ honly htwin
    obtain ⟨d, hd, hviolates⟩ := (hL.accounts q hq).rejected hb
    apply hfree
    refine ⟨c, hc, htwin, d, hd, ?_⟩
    intro l hl hopen
    exact honly l.constraint hopen (hviolates l hl hopen)

theorem leads_extract_decides {sat : SatBackend σ} (hsat : sat.Lawful issued Err)
    (hL : TakesIn issued (L, s)) :
    Action.Leads (extract sat) (L, s)
      (fun o p => Decides L.arena L.bias.constraints L.asked o p.1) (fun f p => Err f p.2) := by
  apply (leads_extract_reads hsat.solves hL.wf).mono
  · rintro o ⟨L', t⟩ ⟨-, S, hS, hreads⟩
    have halike := hreads.alike
    cases hreads with
    | @converged k N v hv hN =>
      apply Decides.of_converged
      -- To be stranded only hangs on what is known, which is the same as before.
      intro hfree
      refine ⟨_, hL.admits hfree ?_⟩
      intro d hd
      obtain ⟨l, hl, e, he, hle, hlv⟩ := hS.hits hL.wf hv hd
      exact ⟨l, hl, hS.undecided hv he hle hlv⟩
    | collapsed hno =>
      apply Decides.of_collapsed
      intro W hW
      have hupholds := hL.upholds W hW
      obtain ⟨v, hv⟩ := hL.wf.names.exists_affirming W
      apply hno v
      apply (hS.holds_iff v).2
      constructor
      · intro d hd
        obtain ⟨l, hl, hWl⟩ := hupholds.theory d hd
        have hlist := (hL.wf.theory.listed d hd l hl).2
        exact ⟨l, hl, (hL.wf.names.holds_iff hlist).2 ((hv _ l hlist).2 hWl)⟩
      · intro c hc hout haff
        obtain ⟨l, hl⟩ := (hL.wf.atoms c hc).1
        exact hout (hupholds.undecided c ((hv c l hl).1 haff))
  · rintro f p ⟨-, -, hf⟩
    exact hf

/-- How a run may be cut short: a sum leaves its word, its own limit passes, or a backend fails,
which counts as a collapse if it runs past its limit. -/
def Cut (Err : Failure → σ → Prop) (settings : Settings) :
    Except Failure Outcome → Learner × σ → Prop
  | .error f, p => f = .fault .overflow ∨ Err f p.2
  | .ok .timeout, p => Limit.after settings.timeLimit.value = .passed ∨ Err (.error .timeout) p.2
  | .ok .collapsed, p => Err (.error .backendTimeout) p.2
  | .ok .converged, _ => False

theorem leads_run_decides {B : Backends σ} (hsat : B.sat.Lawful issued Err) (fuel : Nat)
    (hL : TakesIn issued (L, s)) (hasked : L.asked = []) (hpassive : L.passive = true)
    (hstrategies : L.strategies = []) (hreplay : ∀ q ∈ L.replay, q.isClassified = true) :
    Action.Leads (run B oracle fuel) (L, s)
      (fun o p => Decides L.arena L.bias.constraints L.replay o p.1)
      (fun f p => f = .fault .overflow ∨ f = .error .timeout ∧ L.deadline = .passed ∨
        Err f p.2) := by
  have hclear : L.Alike { L with replay := [] } :=
    ⟨rfl, rfl, rfl, rfl, rfl, fun _ => id, rfl, rfl, rfl⟩
  rw [run, Action.leads_bind, preprocess, Action.leads_bind, Procedure.leads_own,
    Action.leads_bind, Procedure.leads_update, Action.leads_bind]
  apply (leads_learnReplayed_taken (hclear.takesIn rfl hL) hreplay).mono
  · rintro r ⟨L', t⟩ htaken
    have hevolves : L.Evolves L' := hclear.evolves.trans htaken.evolves
    have hnothing : L'.strategies = [] := by
      apply List.eq_nil_iff_forall_not_mem.2
      intro N hN
      have hbefore := hevolves.strategies N hN
      rw [hstrategies] at hbefore
      cases hbefore
    have hall : ({ L with replay := [] } : Learner).asked ++ L.replay = L.replay := by
      rw [show ({ L with replay := [] } : Learner).asked = L.asked from rfl, hasked,
        List.nil_append]
    cases r with
    | collapse =>
      apply Decides.of_collapsed
      intro W hW
      apply htaken.collapse rfl W
      rwa [hall]
    | consistent =>
      obtain ⟨hL', hasked'⟩ := htaken.consistent rfl
      have hdrop : L'.Alike { L' with strategies := [] } :=
        ⟨rfl, rfl, rfl, rfl, rfl, fun _ h => absurd h List.not_mem_nil, rfl, rfl, rfl⟩
      rw [if_neg (by simp), Action.leads_bind, Procedure.leads_own, hnothing, Action.leads_bind,
        Procedure.leads_update, learnStrategies, Action.leads_pure, if_neg (by simp),
        Action.leads_bind, Procedure.leads_own, if_pos (hevolves.passive.trans hpassive)]
      apply (leads_extract_decides hsat (hdrop.takesIn rfl hL')).mono
      · intro o p ho
        have hsame : ({ L' with strategies := [] } : Learner).asked = L.replay :=
          hasked'.trans hall
        rw [hsame, hdrop.arena, hdrop.bias, hevolves.arena, hevolves.bias] at ho
        exact ho
      · intro f p hf
        exact .inr (.inr hf)
  · rintro f p (hf | hf)
    · exact .inl hf
    · exact .inr (.inl hf)

/-- A run over evidence that is not cut short tells whether anything stands behind it. -/
theorem leads_process_decides {B : Backends σ} (hB : B.Lawful issued dom Err)
    (oracle : Oracle σ) (fuel : Nat) (hL : TakesIn issued (L, s)) (hasked : L.asked = [])
    (hpassive : L.passive = true) (hstrategies : L.strategies = [])
    (hreplay : ∀ q ∈ L.replay, q.isClassified = true) :
    Action.Leads (process B oracle fuel) (L, s)
      (fun o p => Cut Err L.settings (.ok o) p ∨
        Decides L.arena L.bias.constraints L.replay o p.1)
      (fun f p => Cut Err L.settings (.error f) p) := by
  have halike : L.Alike
      { L with deadline := .after L.settings.timeLimit.value, timedOut := false } :=
    ⟨rfl, rfl, rfl, rfl, rfl, fun _ => id, rfl, rfl, rfl⟩
  rw [process, Action.leads_bind, Procedure.leads_update, Action.leads_bind, Procedure.leads_own,
    Action.leads_bind, Procedure.leads_call]
  apply (hB.sat.setLimit _ s).mono _ fun f t hf => Or.inr hf.2
  intro _ t ht
  rw [Action.leads_bind, Procedure.leads_call]
  apply ((hB.setLimit _ t).and (hB.keeps.setLimit _ t)).mono _ fun f u hf => Or.inr hf.1
  rintro _ u ⟨-, hu⟩
  have hset : TakesIn issued
      ({ L with deadline := .after L.settings.timeLimit.value, timedOut := false }, u) := by
    have h := halike.takesIn rfl hL
    exact ⟨h.wf.grows (ht.trans hu), h.accounts, h.upholds⟩
  rw [Action.leads_bind, Action.leads_attempt]
  apply (leads_run_decides hB.sat fuel hset hasked hpassive hstrategies hreplay).mono
  · intro o p ho
    exact .inr ho
  · intro f p hf
    split
    · next e => cases e
    · next e =>
      cases e
      rcases hf with hf | ⟨-, hpassed⟩ | hf
      · cases hf
      · exact .inl (.inl hpassed)
      · exact .inl (.inr hf)
    · next e =>
      cases e
      rcases hf with hf | ⟨hf, -⟩ | hf
      · cases hf
      · cases hf
      · exact .inl hf
    · next hne _ e =>
      cases e
      rcases hf with hf | ⟨hf, -⟩ | hf
      · exact .inl hf
      · exact absurd hf hne
      · exact .inr hf

/-- The run was not cut short, and it did not converge on a learner that is stranded. -/
structure Settles (Err : Failure → σ → Prop) (settings : Settings) (r : Except Failure Outcome)
    (p : Learner × σ) : Prop where
  uncut : ¬ Cut Err settings r p
  free : r = .ok .converged → ¬ p.1.Stranded

/-- What a run over evidence that settles comes to. -/
theorem Settles.decides {B : Backends σ} (hB : B.Lawful issued dom Err) {fuel : Nat}
    {r : Except Failure Outcome} {A : Arena} {bias : Bias} {known : Network}
    (hL : Fresh issued A bias known L s) (hqs : ∀ q ∈ qs, q.isClassified = true)
    (hr : Action.outcome (process B oracle fuel) ({ L with passive := true, replay := qs }, s) =
      (r, p)) (h : Settles Err L.settings r p) :
    (r = .ok .converged ∧ ∃ W, Admits L.arena L.bias.constraints qs W) ∨
      (r = .ok .collapsed ∧ ∀ W, ¬ Admits L.arena L.bias.constraints qs W) := by
  have hwf := hL.wf
  have htakesIn := hL.takesIn
  have hset : TakesIn issued ({ L with passive := true, replay := qs }, s) := by
    apply TakesIn.mk
    · exact ⟨hwf.built, hwf.closed, hwf.known, hwf.names, hwf.atoms, hwf.registered,
        hwf.undecided, hwf.theory, hwf.background, hwf.kept⟩
    · exact fun q hq => ⟨(htakesIn.accounts q hq).accepted, (htakesIn.accounts q hq).rejected⟩
    · exact fun W hW => ⟨(htakesIn.upholds W hW).theory, (htakesIn.upholds W hW).undecided⟩
  have hleads := leads_process_decides hB oracle fuel hset hL.answers.1 rfl
    hL.strategies hqs
  cases r with
  | error f => exact absurd (hleads.of_error hr) h.uncut
  | ok o =>
    have hdecides := (hleads.of_ok hr).resolve_left h.uncut
    cases o with
    | timeout => exact absurd rfl hdecides.ends
    | converged => exact .inl ⟨rfl, hdecides.converged rfl (h.free rfl)⟩
    | collapsed => exact .inr ⟨rfl, hdecides.collapsed rfl⟩

/-- Two runs that replay the same classified queries in different orders end with the same
report, unless one of them is cut short or converges on a learner that is stranded. -/
theorem report_of_perm {B : Backends σ} (hB : B.Lawful issued dom Err) {A : Arena}
    (hA : A.Built) {bias : Bias} (hbias : bias.network.Closed A) {known : Network}
    (hknown : known.Closed A) {qs qs' : List Query} (hperm : qs.Perm qs')
    (hqs : ∀ q ∈ qs, q.isClassified = true) (oracle oracle' : Oracle σ) (settings : Settings)
    (fuel fuel' : Nat) (s : σ) :
    (start B.sat settings A bias known).Leads s
      (fun L t => ∀ r r' p p',
        Action.outcome (process B oracle fuel)
          ({ L with passive := true, replay := qs }, t) = (r, p) →
        Action.outcome (process B oracle' fuel')
          ({ L with passive := true, replay := qs' }, t) = (r', p') →
        Settles Err L.settings r p → Settles Err L.settings r' p' →
          r = .ok .converged ∧ r' = .ok .converged ∨ r = .ok .collapsed ∧ r' = .ok .collapsed)
      (fun f t => issued.Grows s t ∧ Err f t) := by
  apply (leads_start hB.sat settings hA hbias hknown).mono _ fun _ _ h => h
  rintro L t ⟨-, hL⟩ r r' p p' hr hr' hsettles hsettles'
  have hqs' : ∀ q ∈ qs', q.isClassified = true := fun q hq => hqs q (hperm.mem_iff.2 hq)
  have hsame : ∀ W, Admits L.arena L.bias.constraints qs W ↔
      Admits L.arena L.bias.constraints qs' W := by
    intro W
    constructor
    · exact fun hW => hW.of_subset hperm.symm.subset
    · exact fun hW => hW.of_subset hperm.subset
  rcases hsettles.decides hB hL hqs hr with ⟨hr, W, hW⟩ | ⟨hr, hnone⟩
  · rcases hsettles'.decides hB hL hqs' hr' with ⟨hr', -⟩ | ⟨-, hnone⟩
    · exact .inl ⟨hr, hr'⟩
    · exact absurd ((hsame W).1 hW) (hnone W)
  · rcases hsettles'.decides hB hL hqs' hr' with ⟨-, W, hW⟩ | ⟨hr', -⟩
    · exact absurd ((hsame W).2 hW) (hnone W)
    · exact .inr ⟨hr, hr'⟩

end Learner

namespace Exhaustive

open Learner

/-- What comes of a run over the small instance that only replays some queries, started in the
state that a fresh learner leaves. -/
def replays (L : Learner) (t : World) (qs : List Query) :
    Except Failure Outcome × Learner × World :=
  Action.outcome (process (backends bits) (judge sample wanted) 0)
    ({ L with passive := true, replay := qs }, t)

/-- Whether a fresh learner over the bias passes a check. -/
def checksFresh (bias : Bias) (check : Learner → World → Bool) : Bool :=
  match (Learner.start sat {} sample bias {}).outcome [] with
  | (.ok L, t) => check L t
  | (.error _, _) => false

theorem exists_of_checksFresh {bias : Bias} {check : Learner → World → Bool}
    (h : checksFresh bias check = true) : ∃ L t,
      (Learner.start sat {} sample bias {}).outcome [] = (.ok L, t) ∧ check L t = true := by
  rw [checksFresh] at h
  split at h
  · next L t hL => exact ⟨L, t, hL, h⟩
  · cases h

/-- The first constraint of the small instance, and the third one with its negation. -/
def twofold : Bias := .ofNetwork ⟨.ofList [0, 1], .ofList [0, 4, 5]⟩

theorem closed_twofold : twofold.network.Closed sample := by
  have h : Network.ofList sample (.ofList [0, 1]) [0, 4, 5] = .ok twofold.network := by
    decide +kernel
  exact Network.closed_ofList h

/-- A query with its verdict. -/
def judged (b : Bool) (pairs : List (Var × Value)) : Query :=
  { Query.ofPairs pairs with verdict := some b }

/-- Whether a run converges on a learner that is not stranded. -/
def convergesFree : Except Failure Outcome × Learner × World → Bool
  | (.ok .converged, p) => decide (¬ p.1.Stranded)
  | _ => false

theorem settles_of_convergesFree (settings : Settings) {r : Except Failure Outcome}
    {p : Learner × World} (h : convergesFree (r, p) = true) :
    r = .ok .converged ∧ Settles (fun _ _ => False) settings r p := by
  unfold convergesFree at h
  split at h
  · next hr =>
    cases hr
    exact ⟨rfl, id, fun _ => of_decide_eq_true h⟩
  · cases h

/-- A rejected query with two constraints to blame and an accepted one that clears one of them
are learnt from in either order. -/
theorem converges_in_either_order :
    ∃ L t, (Learner.start sat {} sample twofold {}).outcome [] = (.ok L, t) ∧
      (replays L t [judged false [(0, 1), (1, 1)], judged true [(0, 0), (1, 1)]]).1 =
          .ok .converged ∧
        (replays L t [judged true [(0, 0), (1, 1)], judged false [(0, 1), (1, 1)]]).1 =
          .ok .converged := by
  have h : checksFresh twofold (fun L t =>
      convergesFree
          (replays L t [judged false [(0, 1), (1, 1)], judged true [(0, 0), (1, 1)]]) &&
        convergesFree
          (replays L t [judged true [(0, 0), (1, 1)], judged false [(0, 1), (1, 1)]])) = true := by
    decide +kernel
  obtain ⟨L, t, hL, hcheck⟩ := exists_of_checksFresh h
  obtain ⟨hfirst, hsecond⟩ := Bool.and_eq_true_iff.1 hcheck
  obtain ⟨hr, hsettles⟩ := settles_of_convergesFree L.settings hfirst
  obtain ⟨-, hsettles'⟩ := settles_of_convergesFree L.settings hsecond
  have hclassified : ∀ q ∈ [judged false [(0, 1), (1, 1)], judged true [(0, 0), (1, 1)]],
      q.isClassified = true := by simp [judged, Query.isClassified]
  have hboth := (report_of_perm (backends_lawful bits fun _ _ => False) built_sample
    closed_twofold (Network.closed_ofScope sample .empty) (List.Perm.swap _ _ [])
    hclassified (judge sample wanted) (judge sample wanted) {} 0 0 []).of_ok hL _ _ _ _ rfl rfl
    hsettles hsettles'
  rcases hboth with h | ⟨hcollapsed, -⟩
  · exact ⟨L, t, hL, h⟩
  · cases hr.symm.trans hcollapsed

/-- Two rejected queries leave the first constraint together with the third one or its negation
to blame, and an accepted one clears the first. If that comes last, the third constraint and
its negation are both taken to be learnt. If it comes first, the third one is learnt from one
of the other two, which leaves nothing to blame for the last. -/
theorem report_hangs_on_order :
    ∃ qs qs' L t, qs.Perm qs' ∧ (∀ q ∈ qs, q.isClassified = true) ∧
      (Learner.start sat {} sample twofold {}).outcome [] = (.ok L, t) ∧
        (replays L t qs).1 = .ok .converged ∧ (replays L t qs').1 = .ok .collapsed := by
  have h : checksFresh twofold (fun L t => decide (
      (replays L t [judged false [(0, 1), (1, 0)], judged false [(0, 1), (1, 1)],
        judged true [(0, 1)]]).1 = .ok .converged ∧
      (replays L t [judged true [(0, 1)], judged false [(0, 1), (1, 0)],
        judged false [(0, 1), (1, 1)]]).1 = .ok .collapsed)) = true := by
    decide +kernel
  obtain ⟨L, t, hL, hcheck⟩ := exists_of_checksFresh h
  refine ⟨_, _, L, t, ?_, ?_, hL, of_decide_eq_true hcheck⟩
  · decide +kernel
  · simp [judged, Query.isClassified]

end Exhaustive

end Acquisition
