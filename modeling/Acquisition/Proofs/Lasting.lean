import Acquisition.Proofs.Rules

/-!
# What lasts through a run

A property that hangs on what is known and on the answers alone lasts while queries are
generated. If it also survives each answer that is learnt from, it lasts through a run, up to
an answer that collapses it.
-/
namespace Acquisition.Learner

variable {σ : Type} {issued : Issued σ} {dom : Ranges} {Err : Failure → σ → Prop}
  {I C : Learner × σ → Prop} {oracle : Oracle σ} {B : Backends σ} {p : Learner × σ}

/-- The property `I` stays as long as nothing known is lost and the answers are the same, and
once a query is learnt from, too, unless that collapses, when `C` holds. -/
structure Lasts (issued : Issued σ) (I C : Learner × σ → Prop) : Prop where
  wf : ∀ p, I p → p.1.Wf issued p.2
  remains : ∀ L L' s t, I (L, s) → L'.Wf issued t → L.Remembers L' → L'.answers = L.answers →
    I (L', t)
  digests : ∀ L s q r p, q.isClassified = true → I (L, s) →
    L.Digests issued (fun _ _ => True) q r p → After I C r p

namespace Lasts

theorem steady (h : Lasts issued I C) : Steady issued I := by
  intro L L' s t hp halike hanswers _ hgrows
  have hwf : L'.Wf issued t := halike.wf ((h.wf (L, s) hp).grows hgrows)
  exact h.remains L L' s t hp hwf halike.evolves.remembers hanswers

theorem generate (h : Lasts issued I C) (hB : B.Lawful issued dom Err) (fuel : Nat) (hp : I p) :
    Action.Leads (generate B fuel) p (fun _ => I) fun _ => I := by
  obtain ⟨L, s⟩ := p
  have hrests := rests_generate aside_answers B fuel (L, s) rfl
  apply ((leads_generate hB fuel (h.wf _ hp)).and hrests).mono
  · intro r p' h'
    exact h.remains _ _ _ _ hp h'.1.1.wf h'.1.1.evolves.remembers h'.2
  · intro f p' h'
    exact h.remains _ _ _ _ hp h'.1.wf h'.1.evolves.remembers h'.2

theorem learnEarly (h : Lasts issued I C) {q : Query} (hq : q.isClassified = true) (hp : I p) :
    Action.Leads (learnEarly q) p (After I C) fun _ => I := by
  obtain ⟨L, s⟩ := p
  apply (leads_learnEarly_digests (fun _ _ => True) (h.wf _ hp) q).mono
  · intro r p' hp'
    exact h.digests L s q r p' hq hp hp'
  · intro f p' hp'
    exact hp'.2 ▸ hp

theorem learn (h : Lasts issued I C) {q : Query} (hq : q.isClassified = true) (hp : I p) :
    Action.Leads (learn q false) p (After I C) fun _ => I := by
  obtain ⟨L, s⟩ := p
  apply (leads_learn_digests (fun _ _ => True) (h.wf _ hp) q false).mono
  · intro r p' hp'
    exact h.digests L s q r p' hq hp hp'
  · intro f p' hp'
    exact hp'.2 ▸ hp

theorem ask (h : Lasts issued I C) (horacle : oracle.Keeps issued) (q : Query) (hp : I p) :
    Action.Leads (ask oracle q) p (After I C) fun _ => I := by
  apply leads_bears_all.1
  apply leads_ask_of h.steady horacle (excuses_all oracle) _ q hp
  intro q p hq hp
  exact leads_bears_all.2 (h.learn hq hp)

theorem preprocess (h : Lasts issued I C) {cp : CpBackend σ} (hk : cp.Keeps issued)
    (horacle : oracle.Keeps issued) (hp : I p) :
    Action.Leads (preprocess cp oracle) p (After I C) fun _ => I := by
  apply leads_bears_all.1
  apply leads_preprocess_of h.steady horacle (excuses_all oracle) _ hk (draws_all cp _) hp
  intro q p hq hp
  exact leads_bears_all.2 (h.learnEarly hq hp)

/-- What lasts carries over a run whose outcome is read off where it holds, or follows from
the collapse. -/
theorem conducts (h : Lasts issued I C) (hB : B.Lawful issued dom Err)
    (horacle : oracle.Keeps issued) {Q : Outcome → Learner × σ → Prop}
    (hextract : ∀ p, I p → Action.Leads (extract B.sat) p Q fun _ => I)
    (hcollapsed : ∀ p, C p → Q .collapsed p) :
    Conducts B oracle issued I C (fun _ _ => True) (fun _ => True) Q fun _ => True where
  steady := h.steady
  excuses := excuses_all oracle
  generate := by
    intro fuel p hp
    apply (h.generate hB fuel hp).mono
    · exact fun _ _ hp' => ⟨hp', fun _ => trivial, fun _ _ => trivial⟩
    · exact fun _ _ hp' => ⟨hp', trivial⟩
  ask := fun q p hp _ => leads_bears_all.2 (h.ask horacle q hp)
  settled := fun _ _ _ => trivial
  extract := fun p hp _ => leads_bears_all.2 (hextract p hp)
  collapsed := hcollapsed

/-- How a run ends, unless a backend runs past its limit. -/
theorem process (h : Lasts issued I C) (hB : B.Lawful issued dom Err)
    (horacle : oracle.Keeps issued) {Q : Outcome → Learner × σ → Prop}
    (hextract : ∀ p, I p → Action.Leads (extract B.sat) p Q fun _ => I)
    (hcollapsed : ∀ p, C p → Q .collapsed p)
    (htimeout : ∀ p, I p → Q .timeout ({ p.1 with timedOut := true }, p.2)) (fuel : Nat)
    (hp : I p) :
    Action.Leads (process B oracle fuel) p
      (fun o p' => Q o p' ∨ o = .collapsed ∧ I p' ∧ TimesOut B oracle fuel p) fun _ => I := by
  obtain ⟨L, s⟩ := p
  apply leads_bears_all.1
  apply (h.conducts hB horacle hextract hcollapsed).process
    (limits_all hB.sat.solves hB.keeps) fuel hp _ htimeout
  intro L' t _ _ _ hp'
  exact leads_bears_all.2 (h.preprocess hB.keeps horacle hp')

end Lasts

end Acquisition.Learner
