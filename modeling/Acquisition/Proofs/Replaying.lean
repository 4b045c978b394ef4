import Acquisition.Learner.Replay
import Acquisition.Proofs.Probing

/-!
# Learning before any query is generated

A replayed query brings its verdict along or is put to the oracle. If all the verdicts are
those that some constraints give, and these are undecided, they stay so, and nothing
collapses. A query that repeats another is only noted, which loses nothing.

Whatever the verdicts are, the learner stays well formed.
-/
namespace Acquisition

open Checked IndexSet ClauseStore

/-- The verdict on a query is the one that the constraints of `W` give. -/
def Query.Truly (A : Arena) (W : ConstraintId → Prop) (q : Query) (b : Bool) : Prop :=
  b = true ↔ ∀ c, W c → ¬ q.Violates A c

/-- The verdict of a network on a query over its variables is that of its constraints. -/
theorem Network.truly {A : Arena} {T : Network} {q : Query} {b : Bool}
    (hvars : ∀ c ∈ T.constraints, ∀ v, A.Mentions c v → v ∈ q.scope)
    (h : b = true ↔ T.Holds A q.valuation) : q.Truly A (· ∈ T.constraints) b := by
  refine h.trans ⟨fun hT c hc hv => hv.2 (hT c hc), fun hno c hc => ?_⟩
  by_contra hviol
  exact hno c hc ⟨hvars c hc, hviol⟩

namespace Learner

variable {σ : Type} {issued : Issued σ} {s : σ} {dom : Ranges} {Err : Failure → σ → Prop}
  {L : Learner} {asks : Query → Prop} {Says : Query → Answer → Prop} {oracle : Oracle σ}

theorem Sound.agrees {W : ConstraintId → Prop} (hW : L.Sound dom W) {q : Query} {b : Bool}
    (h : q.Truly L.arena W b) : L.Agrees { q with verdict := some b } W := by
  have hpos : ({ q with verdict := some b } : Query).isPositive = b := by cases b <;> rfl
  rw [Agrees, hpos]
  refine h.trans ?_
  constructor
  · exact fun hno c hk hWc => hno c hWc hk.2
  · exact fun hno c hWc hv => hno c ⟨hW.undecided c hWc, hv⟩ hWc

/-- A verdict that agrees with some constraints never collapses. -/
theorem Learns.consistent {L' : Learner} {q : Query} {r : Learnt} (h : L.Learns q r L')
    {W : ConstraintId → Prop} (hW : L.Agrees q W) : r = .consistent := by
  cases hq : q.isPositive with
  | true => exact (h.accepted hq).1
  | false =>
    refine (h.rejected hq ?_).1
    by_contra hno
    rw [hW.2 fun c hc => absurd ⟨c, hc⟩ hno] at hq
    cases hq

theorem isRepeated_error (hL : L.Wf issued s) {q : Query} {e : Fault}
    (h : L.isRepeated q = .error e) : e = .overflow := by
  have hreg : ∀ c ∈ L.undecided.constraints, L.arena.Registered c := fun c hc =>
    (hL.closed c (hL.undecided c hc)).1
  rw [isRepeated, bind_eq_error] at h
  rcases h with h | ⟨kappa, -, h⟩
  · exact Bias.kappa_error hreg h
  · split at h
    · cases h
    · obtain ⟨earlier, -, h⟩ := anyM_eq_error h
      rw [bind_eq_error] at h
      rcases h with h | ⟨k, -, h⟩
      · exact Bias.kappa_error hreg h
      · cases h

/-- The query is rejected, and what it says about the undecided constraints was said by a
query rejected before. -/
structure Repeats (L : Learner) (q : Query) : Prop where
  rejected : q.isNegative = true
  nonEmpty : ∃ c, L.Kappa q c
  earlier : ∃ e ∈ L.asked, e.isNegative = true ∧ ∀ c, L.Kappa e c ↔ L.Kappa q c

theorem isRepeated_eq_true {q : Query} (hq : q.isNegative = true)
    (h : L.isRepeated q = .ok true) : L.Repeats q := by
  rw [isRepeated, bind_eq_ok] at h
  obtain ⟨kappa, hkappa, h⟩ := h
  split at h
  · cases h
  · next hne =>
    obtain ⟨c, hc⟩ := isEmpty_eq_false.1 (Bool.eq_false_iff.2 hne)
    obtain ⟨e, he, hsame⟩ := anyM_eq_true h
    rw [bind_eq_ok] at hsame
    obtain ⟨k, hk, hsame⟩ := hsame
    obtain rfl : k = kappa := eq_of_beq (Except.ok.inj hsame)
    obtain ⟨hasked, hrejected⟩ := List.mem_filter.1 he
    refine ⟨hq, ⟨c, (Bias.mem_kappa hkappa).1 hc⟩, e, hasked, hrejected, fun d => ?_⟩
    exact (Bias.mem_kappa hk).symm.trans (Bias.mem_kappa hkappa)

/-- Before any query is generated a classified query is learnt from, or it repeats another
and is only noted. -/
theorem leads_learnEarly_or_overflow (dom : Ranges) (hL : L.Wf issued s) (q : Query) :
    Action.Leads (learnEarly q) (L, s)
      (fun r p => p.2 = s ∧
        (L.Continues issued dom (L.Agrees q) p ∧ L.Learns q r p.1 ∨
          L.Repeats q ∧ r = .consistent ∧ p.1 = { L with asked := L.asked ++ [q] }))
      (fun f p => f = .fault .overflow ∧ p = (L, s)) := by
  have hlearn : Action.Leads (learn q true) (L, s)
      (fun r p => p.2 = s ∧
        (L.Continues issued dom (L.Agrees q) p ∧ L.Learns q r p.1 ∨
          L.Repeats q ∧ r = .consistent ∧ p.1 = { L with asked := L.asked ++ [q] }))
      (fun f p => f = .fault .overflow ∧ p = (L, s)) :=
    (leads_learn_or_overflow hL q true).mono (fun r p ⟨hs, h⟩ => ⟨hs, .inl h⟩) fun _ _ h => h
  rw [learnEarly]
  split
  · next hrejected =>
    rw [Action.leads_bind, Procedure.leads_check]
    refine ⟨fun b hb => ?_, fun e he => ⟨isRepeated_error hL he ▸ rfl, rfl⟩⟩
    split
    · next hrepeated => exact ⟨rfl, .inr ⟨isRepeated_eq_true hrejected (hrepeated ▸ hb), rfl, rfl⟩⟩
    · exact hlearn
  · exact hlearn

theorem leads_learnEarly (hL : L.Wf issued s) (q : Query) :
    Action.Leads (learnEarly q) (L, s)
      (fun r p => p.2 = s ∧ L.Continues issued dom (L.Agrees q) p ∧
        ∀ W, L.Agrees q W → r = .consistent)
      (L.Lapses issued dom Err) := by
  apply (leads_learnEarly_or_overflow dom hL q).mono
  · rintro r ⟨L', t⟩ ⟨hs, ⟨hp, hl⟩ | ⟨-, hr, hL'⟩⟩
    · exact ⟨hs, hp, fun W => hl.consistent⟩
    · obtain rfl : t = s := hs
      obtain rfl : L' = _ := hL'
      exact ⟨rfl, (alike_asked _ _).continues hL, fun _ _ => hr⟩
  · rintro f p ⟨hf, rfl⟩
    exact ⟨⟨hL, .refl L⟩, fun _ => .inr (.inr (.inl hf))⟩

/-- The verdict on a query, given or to come, is the one that the constraints of `W` give. -/
def Faithful (Says : Query → Answer → Prop) (A : Arena) (W : ConstraintId → Prop) (q : Query) :
    Prop :=
  ∀ b, q.verdict = some b ∨ q.verdict = none ∧ Says q (.ofBool b) → q.Truly A W b

theorem leads_learnReplayed (horacle : OracleSays oracle issued asks Says Err)
    (hL : L.Wf issued s) (qs : List Query) :
    Action.Leads (learnReplayed oracle qs) (L, s)
      (fun r p => L.Continues issued dom (fun W => ∀ q ∈ qs, Faithful Says L.arena W q) p ∧
        ∀ W, (∀ q ∈ qs, Faithful Says L.arena W q) → L.Sound dom W → r = .consistent)
      (L.Falters issued dom Err (∀ q ∈ qs, q.verdict = none → Answerable asks Says q)) := by
  induction qs generalizing L s with
  | nil => exact ⟨.refl hL, fun _ _ _ => rfl⟩
  | cons q qs ih =>
    -- What follows once the query is classified.
    have hrest : ∀ L' t b, L.Alike L' → issued.Grows s t →
        (∀ W, Faithful Says L.arena W q → q.Truly L.arena W b) →
        Action.Leads (do
            if (← learnEarly { q with verdict := some b }) = .collapse then return .collapse
            learnReplayed oracle qs) (L', t)
          (fun r p => L.Continues issued dom
              (fun W => ∀ x ∈ q :: qs, Faithful Says L.arena W x) p ∧
            ∀ W, (∀ x ∈ q :: qs, Faithful Says L.arena W x) → L.Sound dom W → r = .consistent)
          (L.Falters issued dom Err
            (∀ x ∈ q :: qs, x.verdict = none → Answerable asks Says x)) := by
      intro L' t b halike ht hb
      have hagrees : ∀ W, L.Sound dom W → (∀ x ∈ q :: qs, Faithful Says L.arena W x) →
          L'.Agrees { q with verdict := some b } W := fun W hW h =>
        halike.agrees.2 (hW.agrees (hb W (h q List.mem_cons_self)))
      rw [Action.leads_bind]
      refine (leads_learnEarly (halike.wf (hL.grows ht)) _).mono (fun r p ⟨_, hp, hr⟩ => ?_)
        fun f p hf => (halike.lapses hf).falters _
      have hstep := (halike.before hp).mono hagrees
      split
      · next hcollapse =>
        refine ⟨hstep, fun W hW hsound => ?_⟩
        rw [hr W (hagrees W hsound hW)] at hcollapse
        cases hcollapse
      · have harena : p.1.arena = L.arena := hstep.evolves.arena
        have hmore : ∀ W, (∀ x ∈ q :: qs, Faithful Says L.arena W x) →
            ∀ x ∈ qs, Faithful Says p.1.arena W x := fun W h x hx =>
          harena ▸ h x (List.mem_cons_of_mem q hx)
        refine (ih hp.wf).mono (fun r p' ⟨hp', hr'⟩ => ⟨?_, fun W hW hsound => ?_⟩)
          fun f p' ⟨hstops, hlapse⟩ => ⟨.after hstep hstops, fun h => .after hstep (hlapse ?_)⟩
        · exact hstep.trans hp' (fun W _ h => h) fun W _ h => hmore W h
        · exact hr' W (hmore W hW) (hstep.sound W hW hsound)
        · exact fun x hx => h x (List.mem_cons_of_mem q hx)
    rw [learnReplayed, Action.leads_bind, leads_poll]
    refine ⟨fun _ => ?_, fun _ => Lapses.falters ⟨⟨hL, .refl L⟩, fun _ => .inr (.inl rfl)⟩ _⟩
    cases hq : q.isClassified with
    | true =>
      obtain ⟨b, hb⟩ := Option.isSome_iff_exists.1 hq
      have hqb : { q with verdict := some b } = q := by rw [← hb]
      have := hrest _ s b (L.alike_counters { L.counters with queries := L.counters.queries + 1 })
        (.refl issued s) fun W h => h b (.inl hb)
      rw [hqb] at this
      dsimp only
      rw [if_pos rfl, Action.leads_bind, leads_count, Action.leads_bind, Action.leads_pure]
      exact this
    | false =>
      have hnone : q.verdict = none :=
        Option.isNone_iff_eq_none.1 (Option.isSome_eq_false_iff.1 hq)
      simp only [Bool.false_eq_true, if_false]
      rw [Action.leads_bind]
      refine (leads_classify horacle hL q).mono ?_ fun f p ⟨hstops, hlapse⟩ =>
        ⟨hstops, fun h => hlapse (h q List.mem_cons_self hnone)⟩
      rintro q' ⟨L', t⟩ ⟨halike, ht, b, rfl, hb⟩
      exact hrest L' t b halike ht fun W h => h b (.inr ⟨hnone, hb⟩)

theorem leads_learnStrategies {cp : CpBackend σ} (hcp : cp.Lawful dom Err) (hk : cp.Keeps issued)
    (horacle : OracleSays oracle issued asks Says Err) (hL : L.Wf issued s) {Ns : List Network}
    (hNs : ∀ N ∈ Ns, N.Closed L.arena) :
    Action.Leads (learnStrategies cp oracle Ns) (L, s)
      (fun r p => L.Continues issued dom (fun _ => Ns = []) p ∧ (Ns = [] → r = .consistent))
      (L.Falters issued dom Err (Ns = [])) := by
  induction Ns generalizing L s with
  | nil => exact ⟨.refl hL, fun _ => rfl⟩
  | cons N Ns ih =>
    -- Only where the learner is well formed is claimed if there are strategies.
    have hstep : ∀ {p r}, L.Stops issued p → L.Continues issued dom (fun _ => N :: Ns = []) p ∧
        (N :: Ns = [] → r = Learnt.consistent) := fun hp => ⟨⟨hp.wf, hp.evolves, nofun⟩, nofun⟩
    have hrest : ∀ p, L.Stops issued p → Action.Leads (learnStrategies cp oracle Ns) p
        (fun r p => L.Continues issued dom (fun _ => N :: Ns = []) p ∧
          (N :: Ns = [] → r = .consistent))
        (L.Falters issued dom Err (N :: Ns = [])) := fun p hp => by
      refine (ih hp.wf fun M hM => ?_).mono
        (fun r p' ⟨hp', _⟩ => hstep ⟨hp'.wf, hp.evolves.trans hp'.evolves⟩)
        fun f p' hf => ⟨⟨hf.1.wf, hp.evolves.trans hf.1.evolves⟩, nofun⟩
      rw [hp.evolves.arena]
      exact hNs M (List.mem_cons_of_mem N hM)
    rw [learnStrategies, Action.leads_bind, leads_poll]
    refine ⟨fun _ => ?_, fun _ => ⟨⟨hL, .refl L⟩, nofun⟩⟩
    rw [Action.leads_bind, Procedure.leads_own, Action.leads_bind]
    refine (leads_witness hcp hk hL ((hNs N List.mem_cons_self).union hL.known)).mono ?_
      fun f p hf => ⟨hf.toStops, nofun⟩
    rintro r ⟨L', t⟩ ⟨⟨k, rfl⟩, ht, -⟩
    have halike := L.alike_counters k
    have hLt := halike.wf (hL.grows ht)
    cases r with
    | none => exact hrest _ ⟨hLt, halike.evolves⟩
    | some q =>
      rw [Action.leads_bind]
      refine (leads_classify horacle hLt q).mono ?_
        fun f p (hf : Falters issued dom Err _ _ f p) =>
          ⟨⟨hf.1.wf, halike.evolves.trans hf.1.evolves⟩, nofun⟩
      rintro q' p ⟨halike', hu, -⟩
      have hLu := halike'.wf (hLt.grows hu)
      have hto := halike.evolves.trans halike'.evolves
      rw [Action.leads_bind]
      refine (leads_learnEarly hLu q').mono (fun r p' ⟨_, hp', _⟩ => ?_)
        fun f p' (hf : Lapses issued dom Err _ f p') => ⟨⟨hf.wf, hto.trans hf.evolves⟩, nofun⟩
      split
      · exact hstep ⟨hp'.wf, hto.trans hp'.evolves⟩
      · exact hrest _ ⟨hp'.wf, hto.trans hp'.evolves⟩

/-- What is set for replay is faithful, and there are no strategies. -/
def Replays (Says : Query → Answer → Prop) (L : Learner) (W : ConstraintId → Prop) : Prop :=
  L.strategies = [] ∧ ∀ q ∈ L.replay, Faithful Says L.arena W q

theorem leads_preprocess {cp : CpBackend σ} (hcp : cp.Lawful dom Err) (hk : cp.Keeps issued)
    (horacle : OracleSays oracle issued asks Says Err) (hL : L.Wf issued s)
    (hstrategies : ∀ N ∈ L.strategies, N.Closed L.arena) :
    Action.Leads (preprocess cp oracle) (L, s)
      (fun r p => L.Continues issued dom (L.Replays Says) p ∧
        ∀ W, L.Replays Says W → L.Sound dom W → r = .consistent)
      (L.Falters issued dom Err (L.strategies = [] ∧
        ∀ q ∈ L.replay, q.verdict = none → Answerable asks Says q)) := by
  have hclear : L.Alike { L with replay := [] } :=
    ⟨rfl, rfl, rfl, rfl, rfl, fun _ => id, rfl, rfl, rfl⟩
  rw [preprocess, Action.leads_bind, Procedure.leads_own, Action.leads_bind,
    Procedure.leads_update, Action.leads_bind]
  refine (leads_learnReplayed horacle (hclear.wf hL) L.replay).mono (fun r p ⟨hp, hr⟩ => ?_)
    fun f p hf => ⟨⟨hf.1.wf, hclear.evolves.trans hf.1.evolves⟩, fun h => hclear.lapses (hf.2 h.2)⟩
  have hstep : L.Continues issued dom (L.Replays Says) p :=
    (hclear.before hp).mono fun W _ h => h.2
  have hconsistent : ∀ W, L.Replays Says W → L.Sound dom W → r = .consistent := fun W hW hsound =>
    hr W hW.2 (hclear.sound hsound)
  split
  · next hcollapse => exact ⟨hstep, fun W hW hsound => hcollapse ▸ hconsistent W hW hsound⟩
  · have hdrop : p.1.Alike { p.1 with strategies := [] } :=
      ⟨rfl, rfl, rfl, rfl, rfl, fun _ h => (List.not_mem_nil h).elim, rfl, rfl, rfl⟩
    have hnone : L.strategies = [] → p.1.strategies = [] := fun h =>
      List.eq_nil_iff_forall_not_mem.2 fun N hN => by
        have := hp.evolves.strategies N hN
        rw [show ({ L with replay := [] } : Learner).strategies = L.strategies from rfl, h] at this
        cases this
    rw [Action.leads_bind, Procedure.leads_own, Action.leads_bind, Procedure.leads_update]
    refine (leads_learnStrategies hcp hk horacle (hdrop.wf hp.wf) fun N hN => ?_).mono
      (fun r' p' ⟨hp', hr'⟩ => ⟨?_, fun W hW _ => hr' (hnone hW.1)⟩)
        fun f p' hf => ⟨?_, fun h => ?_⟩
    · have := hstrategies N (hp.evolves.strategies N hN)
      exact hstep.evolves.arena ▸ this
    · exact hstep.trans (hdrop.before hp') (fun W _ h => h) fun W _ h => hnone h.1
    · exact .after hstep ⟨hf.1.wf, hdrop.evolves.trans hf.1.evolves⟩
    · exact .after hstep (hdrop.lapses (hf.2 (hnone h.1)))

end Learner

end Acquisition
