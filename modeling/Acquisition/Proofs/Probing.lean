import Acquisition.Proofs.Attempts

/-!
# Probing

Over a theory of single literals the network of what is learnt says all that the theory
does. A solution of it that violates an undecided constraint is a query to ask. Where there
is none the constraint follows, and learning it leaves the network as it is for what
follows, since it has the same solutions.

In the end either a query was found or each undecided constraint is learnt.
-/
namespace Acquisition

open Checked IndexSet ClauseStore

namespace Learner

variable {σ : Type} {issued : Issued σ} {s : σ} {dom : Ranges} {Err : Failure → σ → Prop}
  {L : Learner} {N : Network}

/-- A network over the variables of the bias whose solutions satisfy all that is learnt, and
whose constraints are learnt or known. -/
structure Charts (dom : Ranges) (L : Learner) (N : Network) : Prop where
  closed : N.Closed L.arena
  scope : L.bias.scope ⊆ N.scope
  implies : ∀ d ∈ L.theory.clauses, ∀ l ∈ d.literals, ∀ f : Valuation, f.Within dom N.scope →
    N.Holds L.arena f → L.arena.Holds f l.constraint
  within : N.scope ⊆ L.span
  learnt : ∀ c ∈ N.constraints, L.Decided c ∨ c ∈ L.known.constraints

theorem Alike.charts {L' : Learner} (h : L.Alike L') (hN : L.Charts dom N) : L'.Charts dom N where
  closed := h.arena ▸ hN.closed
  scope := h.bias ▸ hN.scope
  implies := by
    rw [h.theory, h.arena]
    exact hN.implies
  within := by
    rw [h.evolves.span]
    exact hN.within
  learnt := by
    rw [h.known]
    exact fun c hc => (hN.learnt c hc).imp h.evolves.decided id

/-- A solution of what is learnt is a query to ask. -/
theorem Charts.poses (hL : L.Wf issued s) (hN : L.Charts dom N) {q : Query}
    (hq : q.Solves L.arena dom N) : L.Poses dom q := by
  obtain ⟨v, hv⟩ := hL.names.exists_affirming (L.arena.Holds q.valuation)
  refine ⟨Subset.trans hN.scope hq.covers, hq.within.mono hN.scope, hq.unclassified, v,
    fun d hd => ?_, fun c ⟨l, hl, hlv⟩ => (hv c l hl).1 ⟨l, hl, hlv⟩⟩
  obtain ⟨l, hl⟩ := List.exists_mem_of_ne_nil _ (hL.theory.nonEmpty d hd)
  have hlist := (hL.theory.listed d hd l hl).2
  refine ⟨l, hl, (hL.names.holds_iff hlist).2 ((hv _ l hlist).2 ?_)⟩
  exact hN.implies d hd l hl _ hq.within hq.holds

/-- A constraint of the bias may be learnt at any time, as far as the form of the state goes. -/
theorem Wf.stops_learning (hL : L.Wf issued s) {c : ConstraintId} {l : Literal}
    (hc : c ∈ L.bias.constraints) (hl : L.atoms.literal c = .ok l) :
    L.Stops issued ({ L with theory := L.theory.adding (.ofLiteral l) }, s) := by
  have hlc : l.constraint = c := (hL.names.entry c l hl).2.1
  obtain ⟨hadded, -, hcover⟩ := added false hL.theory (c := .ofLiteral l) (by simp)
    (fun m hm => by
      rw [Clause.literals_ofLiteral, List.mem_singleton] at hm
      exact hm ▸ ⟨hlc ▸ hc, hL.names.lists hl⟩) nofun
  exact ⟨⟨hL.built, hL.closed, hL.known, hL.names, hL.atoms, hL.registered, hL.undecided, hadded,
    hL.background, hL.kept⟩, rfl, rfl, rfl, rfl, rfl, fun _ => id, Subset.refl _,
    fun d hd => hcover d (.inl hd)⟩

/-- A constraint that what is learnt implies may be learnt. -/
theorem Charts.learning (hL : L.Wf issued s) (hN : L.Charts dom N) {c : ConstraintId} {l : Literal}
    (hc : c ∈ L.bias.constraints) (hl : L.atoms.literal c = .ok l)
    (himplied : ∀ f : Valuation, f.Within dom N.scope → N.Holds L.arena f → L.arena.Holds f c) :
    let L' := { L with theory := L.theory.adding (.ofLiteral l) }
    L.Continues issued dom (fun W => W c) (L', s) ∧ L'.Charts dom N ∧ L'.Decided c := by
  have hlc : l.constraint = c := (hL.names.entry c l hl).2.1
  have hfrom : ∀ d ∈ (L.theory.adding (.ofLiteral l)).clauses, d = .ofLiteral l ∨
      d ∈ L.theory.clauses := fun d hd => mem_of_mem_adding hL.theory.valid hd
  obtain ⟨hwf, hevolves⟩ := hL.stops_learning hc hl
  refine ⟨⟨hwf, hevolves, fun W hW hsound => ?_⟩, ?_, ?_⟩
  · refine ⟨fun d hd => ?_, hsound.undecided, hsound.apart, hsound.background⟩
    rcases hfrom d hd with rfl | hd
    · exact ⟨l, List.mem_singleton_self l, hlc ▸ hW⟩
    · exact hsound.theory d hd
  · refine ⟨hN.closed, hN.scope, fun d hd m hm f hf hNf => ?_, hN.within,
      fun d hd => (hN.learnt d hd).imp hevolves.decided id⟩
    rcases hfrom d hd with rfl | hd
    · rw [Clause.literals_ofLiteral, List.mem_singleton] at hm
      rw [hm, hlc]
      exact himplied f hf hNf
    · exact hN.implies d hd m hm f hf hNf
  · obtain ⟨d, hd, hdl⟩ := exists_adding hL.theory.valid (.ofLiteral l)
    refine ⟨d, hd, fun m hm => ?_⟩
    rw [hdl, Clause.literals_ofLiteral, List.mem_singleton] at hm
    exact hm ▸ hlc

/-- What a chart implies is true, if it is to be decided. -/
theorem Charts.true_of_implied (hN : L.Charts dom N) {D W : ConstraintId → Prop}
    (hW : L.Sound dom W) (hE : L.Confined dom D W) {c : ConstraintId}
    (hc : c ∈ L.undecided.constraints) (hD : D c)
    (himplied : ∀ f : Valuation, f.Within dom N.scope → N.Holds L.arena f → L.arena.Holds f c) :
    W c := by
  obtain ⟨X, -, hwithin, hholds, hall⟩ := hE
  refine hall c hc (fun f hf => himplied f ((hwithin f hf).mono hN.within) fun d hd => ?_) hD
  exact hholds d ((hN.learnt d hd).imp hW.decided id) f hf

/-- Witnesses are drawn until one of them says something about an undecided constraint. -/
theorem leads_sample {cp : CpBackend σ} (hcp : cp.Lawful dom Err) (hk : cp.Keeps issued)
    (draws : Nat) (ruledOut : IndexSet) (hL : L.Wf issued s) (hN : N.Closed L.arena) :
    Action.Leads (sample cp N ruledOut draws) (L, s)
      (fun r p => (∃ k, p.1 = { L with counters := k }) ∧ issued.Grows s p.2 ∧
        ∀ q, r = some q → q.Solves L.arena dom N ∧ ∃ c, L.Kappa q c)
      (L.Breaks issued dom Err) := by
  induction draws generalizing L s with
  | zero => exact ⟨⟨L.counters, rfl⟩, .refl issued s, nofun⟩
  | succ draws ih =>
    rw [sample, Action.leads_bind, leads_poll]
    refine ⟨fun _ => ?_, fun _ => hL.breaks fun _ => .inr (.inl rfl)⟩
    rw [Action.leads_bind]
    refine (leads_witness hcp hk hL hN).mono ?_ fun _ _ h => h
    rintro r ⟨L', t⟩ ⟨⟨k, rfl⟩, ht, hr⟩
    have halike := L.alike_counters k
    have hLt := halike.wf (hL.grows ht)
    cases r with
    | none => exact ⟨⟨k, rfl⟩, ht, nofun⟩
    | some q =>
      rw [Action.leads_bind, Procedure.leads_check]
      refine ⟨fun kappa hkappa => ?_, fun e he => halike.breaks (hL.grows ht) fun _ => ?_⟩
      · split
        · refine (ih hLt hN).mono ?_ fun f p hf => halike.before_breaks hf
          rintro r p ⟨⟨k', hp⟩, ht', hr'⟩
          exact ⟨⟨k', hp⟩, ht.trans ht', hr'⟩
        · next hne =>
          obtain ⟨c, hc⟩ := isEmpty_eq_false.1 (Bool.eq_false_iff.2 hne)
          refine ⟨⟨k, rfl⟩, ht, fun q' e => ?_⟩
          cases e
          exact ⟨hr, c, (Bias.mem_kappa hkappa).1 (mem_diff.1 hc).1⟩
      · refine .inr (.inr (.inl ?_))
        rw [Bias.kappa_error (fun c hc => (hL.closed c (hL.undecided c hc)).1) he]

/-- A network to which a constraint over its variables is added and taken away again. -/
theorem retracted {A : Arena} {N M : Network} {c : ConstraintId} (h : N.add A c = .ok M)
    (hvars : ∀ v, A.Mentions c v → v ∈ N.scope) :
    (if N.contains c then M else M.remove c) = N ∧ M.scope = N.scope := by
  obtain ⟨-, hcons, hscope⟩ := Network.add_eq_ok h
  have hMscope : M.scope = N.scope := ext_mem fun v => by
    rw [hscope]
    exact or_iff_left_of_imp (hvars v)
  refine ⟨?_, hMscope⟩
  have hmem : N.contains c = true ↔ c ∈ N.constraints := Iff.rfl
  split
  · next hc =>
    rw [hmem] at hc
    have hM : M.constraints = N.constraints := ext_mem fun d => by
      rw [hcons, mem_insert]
      exact or_iff_right_of_imp fun e => e ▸ hc
    exact congrArg₂ Network.mk hMscope hM
  · next hc =>
    rw [hmem] at hc
    have hM : M.constraints.erase c = N.constraints := ext_mem fun d => by
      rw [mem_erase, hcons, mem_insert]
      constructor
      · rintro ⟨rfl | hd, hne⟩
        · exact absurd rfl hne
        · exact hd
      · exact fun hd => ⟨.inr hd, fun e => hc (e ▸ hd)⟩
    exact congrArg₂ Network.mk hMscope hM

/-- What probing comes to: a query that says something about an undecided constraint, or all
of the given constraints decided. -/
structure Probed (dom : Ranges) (cs : List ConstraintId) (r : Option Query) (L : Learner) :
    Prop where
  poses : ∀ q, r = some q → L.Poses dom q ∧ ∃ c, L.Kappa q c
  decided : r = none → ∀ c ∈ cs, L.Decided c

/-- One probe: a solution is found on which the constraint fails, or the constraint is implied
and is learnt. -/
theorem leads_probe_cons {cp : CpBackend σ} (hcp : cp.Lawful dom Err) (hk : cp.Keeps issued)
    (hL : L.Wf issued s) (hN : N.Closed L.arena) (hscope : L.bias.scope ⊆ N.scope)
    {c : ConstraintId} {cs : List ConstraintId} (hc : c ∈ L.undecided.constraints)
    {Q : Option Query → Learner × σ → Prop} {E : Failure → Learner × σ → Prop}
    (hpassed : L.deadline = .passed → E (.error .timeout) (L, s))
    (hfails : ∀ f k t, issued.Grows s t → Err f t → E f ({ L with counters := k }, t))
    (hfound : ∀ q k t, issued.Grows s t → q.Solves L.arena dom N → q.Violates L.arena c →
      Q (some q) ({ L with counters := k }, t))
    (hlearnt : ∀ l k t, issued.Grows s t → L.atoms.literal c = .ok l →
      (∀ f : Valuation, f.Within dom N.scope → N.Holds L.arena f → L.arena.Holds f c) →
      Action.Leads (probe cp N cs)
        ({ L with counters := k, theory := L.theory.adding (.ofLiteral l) }, t) Q E) :
    Action.Leads (probe cp N (c :: cs)) (L, s) Q E := by
  have hbias := hL.undecided c hc
  obtain ⟨hreg, hvars⟩ := hL.closed c hbias
  obtain ⟨l, hl⟩ := (hL.atoms c hbias).1
  obtain ⟨M, hM⟩ := Network.exists_add (hL.built.paired.registered_twin hreg) N
  have hvars' : ∀ v, L.arena.Mentions (Arena.twin c) v → v ∈ N.scope := fun v hv =>
    hscope v (hvars v (hL.built.paired.mentions_twin.1 hv))
  obtain ⟨hback, hMscope⟩ := retracted hM hvars'
  have hholds : ∀ f, M.Holds L.arena f ↔ N.Holds L.arena f ∧ ¬ L.arena.Holds f c := fun f => by
    obtain ⟨-, hcons, -⟩ := Network.add_eq_ok hM
    rw [← hL.built.paired.holds_twin hreg]
    simp only [Network.Holds, hcons, mem_insert, forall_eq_or_imp]
    exact and_comm
  rw [probe, Action.leads_bind, leads_poll]
  refine ⟨fun _ => ?_, hpassed⟩
  rw [Action.leads_bind, leads_negation, hreg.negation]
  refine ⟨fun n e => ?_, by simp⟩
  cases e
  rw [Action.leads_bind, Procedure.leads_check, hM]
  refine ⟨fun M' e => ?_, by simp⟩
  cases e
  rw [Action.leads_bind, witness, Action.leads_bind, leads_count, Procedure.leads_callWith]
  apply ((hcp.witness L.arena M s hL.built (hN.add hM)).and (hk.witness L.arena M s)).mono
  · rintro r t ⟨hr, ht⟩
    cases r with
    | some q =>
      obtain ⟨hNq, hcq⟩ := (hholds _).1 hr.holds
      have hq : q.Solves L.arena dom N :=
        ⟨hMscope ▸ hr.covers, hMscope ▸ hr.within, hNq, hr.unclassified⟩
      exact hfound q _ t ht hq ⟨fun v hv => hq.covers v (hscope v (hvars v hv)), hcq⟩
    | none =>
      rw [Action.leads_bind, leads_literal, hl]
      refine ⟨fun l' e => ?_, by simp⟩
      cases e
      rw [Action.leads_bind, Procedure.leads_update, hback]
      apply hlearnt l _ t ht hl
      intro f hf hNf
      by_contra hno
      exact hr ⟨f, hMscope ▸ hf, (hholds f).2 ⟨hNf, hno⟩⟩
  · exact fun f t h => hfails f _ t h.2 h.1

theorem leads_probe {cp : CpBackend σ} (hcp : cp.Lawful dom Err) (hk : cp.Keeps issued)
    {cs : List ConstraintId} (hL : L.Wf issued s) (hN : L.Charts dom N)
    (hcs : ∀ c ∈ cs, c ∈ L.undecided.constraints) :
    Action.Leads (probe cp N cs) (L, s)
      (fun r p => L.Continues issued dom (L.Confined dom p.1.Decided) p ∧ Probed dom cs r p.1)
      (L.Breaks issued dom Err) := by
  induction cs generalizing L s with
  | nil => exact ⟨.refl hL, by simp, by simp⟩
  | cons c cs ih =>
    have hc := hcs c List.mem_cons_self
    apply leads_probe_cons hcp hk hL hN.closed hN.scope hc
    case hpassed => exact fun _ => hL.breaks fun _ => .inr (.inl rfl)
    case hfails =>
      intro f k t ht hf
      exact (L.alike_counters k).breaks (hL.grows ht) fun _ => .inr (.inr (.inr hf))
    case hfound =>
      intro q k t ht hq hviolates
      have halike := L.alike_counters k
      refine ⟨halike.continues (hL.grows ht), fun q' e => ?_, by simp⟩
      cases e
      exact ⟨halike.poses (hN.poses hL hq), c, hc, hviolates⟩
    case hlearnt =>
      intro l k t ht hl himplied
      have halike := L.alike_counters k
      have hcharts' := halike.charts hN
      obtain ⟨hstep, hcharts, hdecided⟩ :=
        hcharts'.learning (halike.wf (hL.grows ht)) (hL.undecided c hc) hl himplied
      refine (ih hstep.wf hcharts fun d hd => hcs d (List.mem_cons_of_mem c hd)).mono
        (fun r p h => ⟨?_, h.2.poses, fun hnone d hd => ?_⟩)
        fun f p hf => halike.before_breaks (.after hstep hf fun W hW _ hE => ?_)
      · refine halike.before (hstep.trans h.1 (fun W hW hE => ?_) fun W hW hE => ?_)
        · exact hcharts'.true_of_implied hW (halike.evolves.confined hE) hc
            (h.1.evolves.decided hdecided) himplied
        · exact (halike.evolves.trans hstep.evolves).confined hE
      · rcases List.mem_cons.1 hd with rfl | hd
        · exact h.1.evolves.decided hdecided
        · exact h.2.decided hnone d hd
      · exact hcharts'.true_of_implied hW hE hc (hf.evolves.decided hdecided) himplied

/-- The constraints learnt make up a network. -/
theorem Wf.exists_ofPositives (hL : L.Wf issued s) {cs : List ConstraintId}
    (hcs : L.theory.positives = .ok cs) : ∃ N, Network.ofList L.arena L.bias.scope cs = .ok N := by
  refine Network.exists_ofList _ fun c hc => ?_
  obtain ⟨l, hl, -, rfl⟩ := ((positives_eq_ok hcs).2 c).1 hc
  obtain ⟨d, hd, hdl⟩ := mem_units.1 hl
  exact hL.registered _ l (hL.theory.listed d hd l (hdl ▸ List.mem_singleton_self l)).2

/-- The network of the constraints learnt together with those known. -/
theorem charts_of_positives (hL : L.Wf issued s) {cs : List ConstraintId}
    (hcs : L.theory.positives = .ok cs) {N : Network}
    (hN : Network.ofList L.arena L.bias.scope cs = .ok N) : L.Charts dom (N.union L.known) := by
  obtain ⟨hmono, hmem⟩ := positives_eq_ok hcs
  obtain ⟨-, hcons, hscope⟩ := Network.ofList_eq_ok hN
  have hunit : ∀ c ∈ cs, ∃ d ∈ L.theory.clauses, ∃ l, d.literals = [l] ∧ l.constraint = c :=
    fun c hc => by
      obtain ⟨l, hl, -, hlc⟩ := (hmem c).1 hc
      obtain ⟨d, hd, hdl⟩ := mem_units.1 hl
      exact ⟨d, hd, l, hdl, hlc⟩
  refine ⟨(Network.closed_ofList hN).union hL.known, fun v hv => mem_union.2 (.inl ?_),
    fun d hd l hl f hf hNf => hNf _ (mem_union.2 (.inl ?_)), fun v hv => ?_, fun c hc => ?_⟩
  · exact (hscope v).2 (.inl hv)
  · obtain ⟨m, hm⟩ := hmono d hd
    have hlist := (hL.theory.listed d hd l hl).2
    rw [hm, List.mem_singleton] at hl
    refine (hcons _).2 ((hmem _).2 ⟨m, mem_units.2 ⟨d, hd, hm⟩, hl ▸ hL.names.positive hlist, ?_⟩)
    rw [hl]
  · rcases mem_union.1 hv with hv | hv
    · apply L.bias_subset_span
      rcases (hscope v).1 hv with hv | ⟨c, hc, hv⟩
      · exact hv
      · obtain ⟨d, hd, l, hdl, rfl⟩ := hunit c hc
        have hbias := (hL.theory.listed d hd l (hdl ▸ List.mem_singleton_self l)).1
        exact (hL.closed _ hbias).2 v hv
    · exact mem_union.2 (.inr hv)
  · rcases mem_union.1 hc with hc | hc
    · obtain ⟨d, hd, l, hdl, hlc⟩ := hunit c ((hcons c).1 hc)
      exact .inl ⟨d, hd, fun m hm => by rw [hdl, List.mem_singleton] at hm; rw [hm, hlc]⟩
    · exact .inr hc

/-- Probing a theory of single literals finds a query, or decides each undecided constraint
that is not known. -/
theorem leads_probeQuery {B : Backends σ} (hB : B.Lawful issued dom Err) (hL : L.Wf issued s)
    (hmono : L.theory.isMonomial = .ok true) :
    Action.Leads (probeQuery B) (L, s)
      (fun r p => L.Continues issued dom (L.Confined dom p.1.Decided) p ∧
        (∀ q, r = some q → p.1.Poses dom q ∧ ∃ c, p.1.Kappa q c) ∧
        (r = none → ∀ c ∈ p.1.undecided.constraints,
          p.1.Decided c ∨ c ∈ L.known.constraints))
      (L.Breaks issued dom Err) := by
  obtain ⟨cs, hcs⟩ := exists_positives hmono
  obtain ⟨out, hout⟩ := exists_negatives hmono
  obtain ⟨N, hN⟩ := hL.exists_ofPositives hcs
  have hcharts : L.Charts dom (N.union L.known) := charts_of_positives hL hcs hN
  -- What is left once no sample was of use.
  have hprobe : ∀ k t, issued.Grows s t →
      Action.Leads (do
          probe B.cp (N.union L.known)
            ((← Procedure.own).undecided.toList.filter (!(N.union L.known).contains ·)))
        ({ L with counters := k }, t)
        (fun r p => L.Continues issued dom (L.Confined dom p.1.Decided) p ∧
          (∀ q, r = some q → p.1.Poses dom q ∧ ∃ c, p.1.Kappa q c) ∧
          (r = none → ∀ c ∈ p.1.undecided.constraints,
            p.1.Decided c ∨ c ∈ L.known.constraints))
        (L.Breaks issued dom Err) := fun k t ht => by
    have halike := L.alike_counters k
    rw [Action.leads_bind, Procedure.leads_own]
    refine (leads_probe hB.cp hB.keeps (halike.wf (hL.grows ht)) (halike.charts hcharts) fun c hc =>
      mem_toList'.1 (List.mem_filter.1 hc).1).mono (fun r p ⟨hp, hq⟩ => ?_)
      fun f p hf => halike.before_breaks hf
    refine ⟨(halike.before hp).mono fun W _ h => halike.evolves.confined h, hq.poses,
      fun hnone c hc => ?_⟩
    by_cases hin : c ∈ (N.union L.known).constraints
    · exact (hcharts.learnt c hin).imp (halike.evolves.trans hp.evolves).decided id
    · apply Or.inl
      refine hq.decided hnone c (List.mem_filter.2 ⟨mem_toList'.2 (hp.evolves.undecided c hc), ?_⟩)
      rw [Bool.not_eq_true', ← Bool.not_eq_true]
      exact hin
  rw [probeQuery, Action.leads_bind, Procedure.leads_check, hcs]
  refine ⟨fun cs' e => ?_, nofun⟩
  cases e
  rw [Action.leads_bind, Procedure.leads_check, hN]
  refine ⟨fun N' e => ?_, nofun⟩
  cases e
  rw [Action.leads_bind, Procedure.leads_check, hout]
  refine ⟨fun out' e => ?_, nofun⟩
  cases e
  rw [Action.leads_bind, Procedure.leads_own]
  dsimp only
  split
  · rw [Action.leads_bind, Procedure.leads_call, Action.leads_map, Action.leads_get,
      Action.leads_bind]
    refine (leads_sample hB.cp hB.keeps _ _ hL hcharts.closed).mono ?_ fun _ _ h => h
    rintro r ⟨L', t⟩ ⟨⟨k, rfl⟩, ht, hr⟩
    have halike := L.alike_counters k
    cases r with
    | none => exact hprobe k t ht
    | some q =>
      obtain ⟨hq, hinforms⟩ := hr q rfl
      refine ⟨halike.continues (hL.grows ht), fun q' e => ?_, nofun⟩
      cases e
      exact ⟨halike.poses (hcharts.poses hL hq), hinforms⟩
  · exact hprobe L.counters s (.refl issued s)

/-- Generation ends in a query to ask, or with each undecided constraint decided that is not
known. -/
theorem leads_generate {B : Backends σ} (hB : B.Lawful issued dom Err) (fuel : Nat)
    (hL : L.Wf issued s) :
    Action.Leads (generate B fuel) (L, s)
      (fun r p => L.Continues issued dom
          (fun W => L.Grounded dom ∧ L.Confined dom p.1.Decided W) p ∧
        (∀ q, r = some q → p.1.Poses dom q ∧ ((∃ c, p.1.Kappa q c) ∨ p.1.Stale)) ∧
        (r = none → ∀ c ∈ p.1.undecided.constraints,
          p.1.Decided c ∨ c ∈ L.known.constraints))
      (L.Breaks issued dom Err) := by
  induction fuel generalizing L s with
  | zero => exact hL.breaks fun _ => .inl rfl
  | succ fuel ih =>
    obtain ⟨b, hb⟩ := exists_isMonomial hL.theory.nonEmpty
    rw [generate, Action.leads_bind, Procedure.leads_check, hb]
    refine ⟨fun b' e => ?_, nofun⟩
    cases e
    cases b with
    | true =>
      rw [if_pos rfl]
      refine (leads_probeQuery hB hL hb).mono (fun r p ⟨hp, hq, hnone⟩ => ?_)
        fun _ _ h => h
      exact ⟨hp.mono fun W _ h => h.2, fun q e => ⟨(hq q e).1, .inl (hq q e).2⟩, hnone⟩
    | false =>
      rw [if_neg Bool.false_ne_true, Action.leads_bind]
      refine (leads_attemptSplit hB hL ((isMonomial_eq_ok hb).2 rfl)).mono
        (fun r p ⟨hp, hq⟩ => ?_) fun _ _ h => h
      cases r with
      | some q => exact ⟨hp, hq, nofun⟩
      | none =>
        refine (ih hp.wf).mono (fun r p' ⟨hp', hq', hnone⟩ => ⟨?_, hq', fun h => ?_⟩)
          fun f p' hf => .after hp hf fun W _ hG hE => ⟨hG, hE.mono fun _ => hf.evolves.decided⟩
        · exact hp.trans hp' (fun W _ h => ⟨h.1, h.2.mono fun _ => hp'.evolves.decided⟩)
            fun W _ h => ⟨hp.evolves.grounded h.1, hp.evolves.confined h.2⟩
        · rw [← hp.evolves.known]
          exact hnone h

end Learner

end Acquisition
