import Acquisition.Proofs.Agreement

/-!
# The version space of the answers

Before any query is generated, what a learner knows is what it was told and nothing else.
The sets of constraints that agree with all answers so far are those within the undecided
constraints that satisfy each clause of the theory. When a collapse is reported, there are
no such sets.

Only the sets without a constraint next to its negation are looked at. What is learnt to
belong to the target takes its negation off the undecided constraints.
-/
namespace Acquisition

open Checked IndexSet

/-- Whether a procedure that learns from answers reports a collapse. -/
def reportsCollapse : Except Failure Learnt → Bool
  | .ok .collapse => true
  | _ => false

namespace Learner

variable {σ : Type} {issued : Issued σ} {s : σ} {dom : Ranges} {Err : Failure → σ → Prop}
  {L L' : Learner} {q : Query} {b : Bool} {r : Learnt} {p p' : Learner × σ}
  {W : ConstraintId → Prop}

/-- The states of a learner that was started and told answers, by queries that were asked
about and queries that were learnt from before any is generated, and whether any of these
reported a collapse. -/
inductive Told (B : Backends σ) (issued : Issued σ) : Bool → Learner × σ → Prop
  | start {settings : Settings} {A : Arena} {bias : Bias} {known : Network} {s t : σ}
      {L : Learner} : A.Built → bias.network.Closed A → known.Closed A →
      (start B.sat settings A bias known).outcome s = (.ok L, t) → Told B issued false (L, t)
  | ask {oracle : Oracle σ} (q : Query) {reported : Bool} {p p' : Learner × σ}
      {r : Except Failure Learnt} : Told B issued reported p → oracle.Keeps issued →
      Action.outcome (ask oracle q) p = (r, p') →
      Told B issued (reported || reportsCollapse r) p'
  | preprocess {oracle : Oracle σ} {reported : Bool} {p p' : Learner × σ}
      {r : Except Failure Learnt} : Told B issued reported p → oracle.Keeps issued →
      Action.outcome (preprocess B.cp oracle) p = (r, p') →
      Told B issued (reported || reportsCollapse r) p'
  | prepare (settings : Settings) (passive : Bool) (deadline : Limit) (replay : List Query)
      (strategies : List Network) {reported : Bool} {p : Learner × σ} :
      Told B issued reported p → Told B issued reported ({ p.1 with
        settings := settings, passive := passive, deadline := deadline, replay := replay,
        strategies := strategies }, p.2)

/-- The constraints of `W` may be what there is to learn, for all that the bias has to say. -/
structure Candidate (L : Learner) (W : ConstraintId → Prop) : Prop where
  bias : ∀ c, W c → c ∈ L.bias.constraints
  apart : ∀ c, W c → ¬ W (Arena.twin c)

theorem Explains.asked (harena : L'.arena = L.arena) (hasked : L'.asked = L.asked ++ [q])
    (hb : q.verdict = some b) : L'.Explains W ↔ L.Explains W ∧ q.Truly L.arena W b := by
  rw [Explains, hasked, harena, List.forall_mem_append, List.forall_mem_singleton, hb]
  apply and_congr_right
  intro _
  constructor
  · exact fun h => h b rfl
  · intro h b' e
    cases e
    exact h

/-- What a learner knows is what it was told. It accounts for all answers, and the
constraints that may be what there is to learn satisfy it if they explain the answers. -/
structure Exact (issued : Issued σ) (dom : Ranges) (p : Learner × σ) : Prop where
  wf : p.1.Wf issued p.2
  background : p.1.background.clauses = []
  accounts : ∀ q ∈ p.1.asked, p.1.Accounts q
  sound : ∀ W, p.1.Candidate W → p.1.Explains W → p.1.Sound dom W

/-- Nothing explains the answers. -/
structure Hopeless (issued : Issued σ) (p : Learner × σ) : Prop where
  wf : p.1.Wf issued p.2
  models : ∀ W, p.1.Candidate W → ¬ p.1.Explains W

theorem Alike.candidate (h : L.Alike L') : L'.Candidate W ↔ L.Candidate W := by
  constructor
  · intro hW
    exact ⟨h.bias ▸ hW.bias, hW.apart⟩
  · intro hW
    exact ⟨h.bias.symm ▸ hW.bias, hW.apart⟩

theorem Digests.candidate (h : L.Digests issued dom q r p) (hW : p.1.Candidate W) :
    L.Candidate W := ⟨h.evolves.bias ▸ hW.bias, hW.apart⟩

/-- To learn from a classified query keeps what is known and what was told together. -/
theorem Exact.digests (h : Exact issued dom (L, s)) (hp : L.Digests issued dom q r p)
    (hq : q.isClassified = true) : After (Exact issued dom) (Hopeless issued) r p := by
  obtain ⟨b, hb⟩ := Option.isSome_iff_exists.1 hq
  have hclassified : { q with verdict := some b } = q := by rw [← hb]
  have hexplains : ∀ {W}, p.1.Explains W ↔ L.Explains W ∧ q.Truly L.arena W b :=
    Explains.asked hp.evolves.arena hp.asked hb
  have hagrees : ∀ {W}, p.1.Candidate W → p.1.Explains W → L.Sound dom W ∧ L.Agrees q W := by
    intro W hW hpW
    have hsound := h.sound W (hp.candidate hW) (hexplains.1 hpW).1
    have := hsound.agrees (hexplains.1 hpW).2
    rw [hclassified] at this
    exact ⟨hsound, this⟩
  cases r with
  | consistent =>
    apply Exact.mk hp.wf
    · rw [hp.background]
      exact h.background
    · exact hp.accounts h.accounts
    · intro W hW hpW
      exact hp.sound W (hagrees hW hpW).2 (hagrees hW hpW).1
  | collapse =>
    apply Hopeless.mk hp.wf
    intro W hW hpW
    rcases hp.tells with hlearns | ⟨-, hr⟩
    · cases hlearns.consistent (hagrees hW hpW).2
    · cases hr

/-- What nothing explains is explained by nothing when there are more answers. -/
theorem Hopeless.digests (h : Hopeless issued (L, s)) (hp : L.Digests issued dom q r p) :
    Hopeless issued p := by
  apply Hopeless.mk hp.wf
  intro W hW hexplains
  apply h.models W (hp.candidate hW)
  intro e he b hb
  have := hexplains e (hp.asked ▸ List.mem_append_left _ he) b hb
  rwa [hp.evolves.arena] at this

theorem Fresh.exact {A : Arena} {bias : Bias} {known : Network}
    (hL : Fresh issued A bias known L s) : Exact issued dom (L, s) := by
  apply Exact.mk hL.wf
  · rw [hL.background]
    rfl
  · rw [hL.answers.1]
    exact nofun
  · intro W hW _
    apply Sound.mk
    · rw [hL.theory]
      exact nofun
    · rw [hL.undecided]
      exact hW.bias
    · exact hW.apart
    · rw [hL.background]
      exact nofun

/-- A state in which what is known is what was told, or in which nothing explains it once a
collapse was reported. -/
def Truthful (issued : Issued σ) (dom : Ranges) : Bool → Learner × σ → Prop
  | false => Exact issued dom
  | true => Hopeless issued

theorem Truthful.wf {reported : Bool} (h : Truthful issued dom reported p) :
    p.1.Wf issued p.2 := by
  cases reported with
  | false => exact Exact.wf h
  | true => exact Hopeless.wf h

theorem Truthful.digests {reported : Bool} (h : Truthful issued dom reported (L, s))
    (hp : L.Digests issued dom q r p) (hq : q.isClassified = true) :
    After (Truthful issued dom reported) (Truthful issued dom true) r p := by
  cases reported with
  | false => exact Exact.digests h hp hq
  | true =>
    cases r with
    | consistent => exact Hopeless.digests h hp
    | collapse => exact Hopeless.digests h hp

/-- What is yet to be done has no bearing on what is known. -/
theorem Truthful.prepare {reported : Bool} (h : Truthful issued dom reported p)
    (settings : Settings) (passive : Bool) (deadline : Limit) (replay : List Query)
    (strategies : List Network) : Truthful issued dom reported ({ p.1 with
      settings := settings, passive := passive, deadline := deadline, replay := replay,
      strategies := strategies }, p.2) := by
  have hwf : Wf issued p.2 { p.1 with
      settings := settings, passive := passive, deadline := deadline, replay := replay,
      strategies := strategies } :=
    ⟨h.wf.built, h.wf.closed, h.wf.known, h.wf.names, h.wf.atoms, h.wf.registered,
      h.wf.undecided, h.wf.theory, h.wf.background, h.wf.kept⟩
  cases reported with
  | false =>
    have hexact : Exact issued dom p := h
    apply Exact.mk
    · exact hwf
    · exact hexact.background
    · exact fun q hq => ⟨(hexact.accounts q hq).accepted, (hexact.accounts q hq).rejected⟩
    · intro W hW hexplains
      have hsound := hexact.sound W ⟨hW.bias, hW.apart⟩ hexplains
      exact ⟨hsound.theory, hsound.undecided, hsound.apart, hsound.background⟩
  | true =>
    apply Hopeless.mk
    · exact hwf
    · exact fun W hW => Hopeless.models h W ⟨hW.bias, hW.apart⟩

end Learner

namespace Exhaustive

open Learner

end Exhaustive

end Acquisition
