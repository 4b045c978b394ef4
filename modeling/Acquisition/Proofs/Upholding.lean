import Acquisition.Proofs.Frames
import Acquisition.Proofs.Replaying

/-!
# What learning from an answer upholds

A set of constraints upholds what is known if all of them are undecided and one of them stands
in each clause of the theory. An answer takes such a set away only if it disagrees with the
set, or if it leaves one constraint to blame the negation of which is in the set. Whether some
other constraint stands beside its negation in the set does not matter here.
-/
namespace Acquisition

open Checked IndexSet ClauseStore

namespace Learner

variable {σ : Type} {issued : Issued σ} {s : σ} {L L' : Learner} {q : Query}
  {W : ConstraintId → Prop} {E : Failure → Learner × σ → Prop}

/-- The constraints of `W` are all undecided, and one of them stands in each clause. -/
structure Upholds (L : Learner) (W : ConstraintId → Prop) : Prop where
  theory : ∀ d ∈ L.theory.clauses, ∃ l ∈ d.literals, W l.constraint
  undecided : ∀ c, W c → c ∈ L.undecided.constraints

theorem Alike.upholds (h : L.Alike L') : L'.Upholds W ↔ L.Upholds W := by
  constructor
  · intro hW
    exact ⟨h.theory ▸ hW.theory, h.undecided ▸ hW.undecided⟩
  · intro hW
    exact ⟨h.theory.symm ▸ hW.theory, h.undecided.symm ▸ hW.undecided⟩

/-- The verdict on a query is that of `W`. If it leaves one constraint to blame, `W` does not
have the negation of that constraint. -/
structure Allows (L : Learner) (q : Query) (W : ConstraintId → Prop) : Prop where
  agrees : L.Agrees q W
  alone : q.isPositive = false → ∀ c, L.Kappa q c → (∀ d, L.Kappa q d → d = c) →
    ¬ W (Arena.twin c)

theorem leads_ruleOut_upholds (hL : L.Wf issued s) {kappa : IndexSet}
    (hk : kappa ⊆ L.undecided.constraints) :
    Action.Leads (ruleOut kappa) (L, s)
      (fun _ p => ∀ W, L.Upholds W → (∀ c ∈ kappa, ¬ W c) → p.1.Upholds W) E := by
  have hentry : ∀ c ∈ kappa.toList, ∃ l, L.atoms.literal c = .ok l := fun c hc =>
    (hL.atoms c (hL.undecided c (hk c (mem_toList'.1 hc)))).1
  rw [ruleOut, Action.leads_bind]
  apply leads_propagateEach hL.names hentry hL.theory
  intro S k hS
  rw [Procedure.leads_update]
  intro W hW hout
  apply Upholds.mk
  · exact hS.sound W (fun c hc => hout c (mem_toList'.1 hc)) hW.theory
  · intro c hc
    exact Bias.mem_reduceAll.2 ⟨hW.undecided c hc, fun hin => hout c hin hc⟩

theorem leads_confirm_upholds (hL : L.Wf issued s) (reduce : Bool) (q : Query) {c : ConstraintId}
    (hc : c ∈ L.undecided.constraints) :
    Action.Leads (confirm reduce q c) (L, s)
      (fun _ p => ∀ W, L.Upholds W → W c → ¬ W (Arena.twin c) → p.1.Upholds W) E := by
  have hbias := hL.undecided c hc
  obtain ⟨⟨l, hl⟩, m, hm⟩ := hL.atoms c hbias
  obtain ⟨hpos, hlc, -⟩ := hL.names.entry c l hl
  have hreg := (hL.closed c hbias).1
  simp only [confirm, Action.leads_bind, leads_noteFirstLearned, leads_literal, hl]
  refine ⟨fun l' e => ?_, by simp⟩
  cases e
  apply leads_propagate (by exact hL.theory.valid) (by exact hL.theory.nonEmpty)
  intro S k hS _
  have hformed := hL.theory.simplifies hS
  have hlist : ∀ n ∈ ((Clause.ofLiteral l).withOrigin (some q)).literals,
      n.constraint ∈ L.bias.constraints ∧ L.atoms.Lists n := by
    intro n hn
    rw [Clause.literals_withOrigin, Clause.literals_ofLiteral, List.mem_singleton] at hn
    subst hn
    exact ⟨hlc ▸ hbias, hL.names.lists hl⟩
  obtain ⟨hadded, hfrom, -⟩ := added reduce hformed (by simp) hlist (fun hlong => by cases hlong)
  simp only [leads_addClause, leads_negation, hreg.negation, Procedure.leads_update]
  refine ⟨fun n e => ?_, by simp⟩
  cases e
  rw [hm]
  refine ⟨fun l' e => ?_, by simp⟩
  cases e
  apply leads_propagate (by exact hadded.valid) (by exact hadded.nonEmpty)
  intro S' k' hS' hclean
  have hprune := hL.names.prunes hm hadded hS' hclean
  intro W hW hWc hapart
  apply Upholds.mk
  · apply hprune.sound W
    · rintro d rfl
      exact hapart
    · intro d hd
      rcases hfrom d hd with rfl | hd
      · exact ⟨l, by simp, hlc ▸ hWc⟩
      · apply hS.sound hL.names hL.theory _ hW.theory d hd
        rw [hlc]
        exact iff_of_true hWc hpos
  · intro d hd
    apply Bias.mem_reduce.2
    refine ⟨hW.undecided d hd, ?_⟩
    rintro rfl
    exact hapart hd

theorem leads_addKappa_upholds (hL : L.Wf issued s) (reduce : Bool) (q : Query) {kappa : IndexSet}
    (hk : kappa ⊆ L.undecided.constraints) :
    Action.Leads (do
        addClause reduce ((Clause.ofList (← kappa.toList.mapM literal)).withOrigin (some q)) :
        Procedure Learner σ Unit) (L, s)
      (fun _ p => ∀ W, L.Upholds W → (∃ c ∈ kappa, W c) → p.1.Upholds W) E := by
  have hentry : ∀ c ∈ kappa.toList, ∃ l, L.atoms.literal c = .ok l := fun c hc =>
    (hL.atoms c (hL.undecided c (hk c (mem_toList'.1 hc)))).1
  rw [Action.leads_bind]
  apply leads_literals hentry
  intro ls hls
  rw [leads_addClause]
  intro W hW hblame
  obtain ⟨c, hc, hWc⟩ := hblame
  obtain ⟨l, hl⟩ := hentry c (mem_toList'.2 hc)
  have hmem : l ∈ ((Clause.ofList ls).withOrigin (some q)).literals := by
    rw [Clause.literals_withOrigin, Clause.mem_ofList, hls]
    exact ⟨c, mem_toList'.2 hc, hl⟩
  have hlc := (hL.names.entry c l hl).2.1
  apply Upholds.mk
  · intro d hd
    have hcases : d = (Clause.ofList ls).withOrigin (some q) ∨ d ∈ L.theory.clauses := by
      cases reduce with
      | true => exact mem_of_mem_addReduced hL.theory.valid hd
      | false => exact mem_of_mem_adding hL.theory.valid hd
    rcases hcases with rfl | hd
    · exact ⟨l, hmem, hlc ▸ hWc⟩
    · exact hW.theory d hd
  · exact hW.undecided

/-- To learn from a query upholds what the verdict allows. -/
theorem leads_learn_upholds (hL : L.Wf issued s) (q : Query) (reduce : Bool) :
    Action.Leads (learn q reduce) (L, s)
      (fun _ p => ∀ W, L.Upholds W → L.Allows q W → p.1.Upholds W) (fun _ _ => True) := by
  rw [learn, Action.leads_bind, Procedure.leads_check]
  refine ⟨fun kappa hkappa => ?_, fun _ _ => trivial⟩
  have hk : ∀ c, c ∈ kappa ↔ L.Kappa q c := fun c => Bias.mem_kappa hkappa
  have hsub : kappa ⊆ L.undecided.constraints := fun c hc => ((hk c).1 hc).1
  cases hq : q.isPositive with
  | true =>
    have halike := L.alike_counters { L.counters with positive := L.counters.positive + 1 }
    rw [if_pos rfl, Action.leads_bind, leads_count, Action.leads_bind]
    apply (leads_ruleOut_upholds (halike.wf hL) hsub).mono _ fun _ _ h => h
    intro _ p hp
    rw [Action.leads_bind, leads_noteAsked, Action.leads_pure]
    intro W hW hallows
    apply (alike_asked p.1 _).upholds.2
    apply hp W (halike.upholds.2 hW)
    intro c hc
    exact hallows.agrees.1 hq c ((hk c).1 hc)
  | false =>
    have halike := L.alike_counters { L.counters with negative := L.counters.negative + 1 }
    -- Some constraint of the kappa is in `W`, since the verdict is that of `W`.
    have hblame : ∀ W, L.Allows q W → ∃ c ∈ kappa, W c := by
      intro W hallows
      by_contra hnone
      have hpos : q.isPositive = true := by
        apply hallows.agrees.2
        intro c hc hWc
        exact hnone ⟨c, (hk c).2 hc, hWc⟩
      rw [hq] at hpos
      cases hpos
    rw [if_neg Bool.false_ne_true, Action.leads_bind, leads_count]
    split
    · rw [Action.leads_bind, Procedure.leads_update, Action.leads_bind, leads_noteAsked,
        Action.leads_pure]
      intro W hW _
      exact ⟨hW.theory, hW.undecided⟩
    · next c hone =>
      have hmem : ∀ d, d ∈ kappa ↔ d = c := by
        intro d
        rw [← mem_toList', hone, List.mem_singleton]
      have hc := (hk c).1 ((hmem c).2 rfl)
      rw [Action.leads_bind]
      apply (leads_confirm_upholds (halike.wf hL) reduce q hc.1).mono _ fun _ _ h => h
      intro _ p hp
      rw [Action.leads_bind, leads_noteAsked, Action.leads_pure]
      intro W hW hallows
      apply (alike_asked p.1 _).upholds.2
      obtain ⟨d, hd, hWd⟩ := hblame W hallows
      apply hp W (halike.upholds.2 hW)
      · exact (hmem d).1 hd ▸ hWd
      · exact hallows.alone hq c hc fun d hd => (hmem d).1 ((hk d).2 hd)
    · have hadd := leads_addKappa_upholds (E := fun _ _ => True) (halike.wf hL) reduce q hsub
      rw [Action.leads_bind] at hadd
      rw [Action.leads_bind]
      apply hadd.mono _ fun _ _ h => h
      intro ls p hp
      rw [Action.leads_bind]
      apply hp.mono _ fun _ _ h => h
      intro _ p' hp'
      rw [Action.leads_bind, leads_noteAsked, Action.leads_pure]
      intro W hW hallows
      apply (alike_asked p'.1 _).upholds.2
      exact hp' W (halike.upholds.2 hW) (hblame W hallows)

/-- The same before any query is generated: a query that repeats another changes nothing. -/
theorem leads_learnEarly_upholds (hL : L.Wf issued s) (q : Query) :
    Action.Leads (learnEarly q) (L, s)
      (fun _ p => ∀ W, L.Upholds W → L.Allows q W → p.1.Upholds W) (fun _ _ => True) := by
  rw [learnEarly]
  split
  · rw [Action.leads_bind, Procedure.leads_check]
    refine ⟨fun b _ => ?_, fun _ _ => trivial⟩
    split
    · rw [Action.leads_bind, leads_noteAsked, Action.leads_pure]
      intro W hW _
      exact (alike_asked L _).upholds.2 hW
    · exact leads_learn_upholds hL q true
  · exact leads_learn_upholds hL q true

end Learner

end Acquisition
