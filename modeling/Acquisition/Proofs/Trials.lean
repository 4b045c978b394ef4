import Acquisition.Proofs.Novelty

/-!
# What attempts come to

An attempt at a split that finds no query makes the window wider, puts the literals of the
pivot in its place, or adds a new contradiction to the background. Nothing else happens to
what the next attempt goes by.

Probing and attempts fail at the deadline, on a sum that leaves its word, or where a backend
fails. Not one promise between the parts of a learner is broken.
-/
namespace Acquisition.Learner

open Procedure IndexSet ClauseStore

variable {σ : Type} {issued : Issued σ} {s t : σ} {dom : Ranges} {Err : Failure → σ → Prop}
  {D : ConstraintId → Prop} {A : Arena} {R : IndexSet} {B : Backends σ} {L L' : Learner}
  {f : Failure} {p q : Learner × σ} {N : Network}

/-- The contradictions, how many of them were found, and the time that is left. -/
def margins (L : Learner) : ClauseStore × Nat × Limit :=
  (L.background, L.counters.contradictions, L.deadline)

theorem margins_counters (L : Learner) {k : Counters}
    (hk : k.contradictions = L.counters.contradictions) :
    margins { L with counters := k } = L.margins := by
  rw [margins, margins]
  dsimp only
  rw [hk]

theorem aloof_margins {m : ClauseStore × Nat × Limit} : Aloof fun L => L.margins = m :=
  fun L _ _ _ _ _ _ hk h => (L.margins_counters hk).trans h

/-- How generation may fail without a fault of its own. -/
def Fails (Err : Failure → σ → Prop) (deadline : Limit) (f : Failure) (t : σ) : Prop :=
  f = .error .timeout ∧ deadline = .passed ∨ f = .fault .overflow ∨ Err f t

/-- A step that found no contradiction. -/
structure Stays (issued : Issued σ) (L : Learner) (p : Learner × σ) : Prop
    extends Stops issued L p where
  margins : p.1.margins = L.margins

/-- A failure before which no contradiction was found. -/
structure Halts (issued : Issued σ) (Err : Failure → σ → Prop) (L : Learner) (f : Failure)
    (p : Learner × σ) : Prop extends Stays issued L p where
  fails : Fails Err L.deadline f p.2

theorem Stops.trans (h : L.Stops issued p) (h' : p.1.Stops issued q) : L.Stops issued q :=
  ⟨h'.wf, h.evolves.trans h'.evolves⟩

theorem Wf.stays (hL : L.Wf issued s) : L.Stays issued (L, s) := ⟨⟨hL, .refl L⟩, rfl⟩

theorem Wf.halts (hL : L.Wf issued s) (hf : Fails Err L.deadline f s) :
    L.Halts issued Err f (L, s) := ⟨hL.stays, hf⟩

theorem Stays.trans (h : L.Stays issued p) (h' : p.1.Stays issued q) : L.Stays issued q :=
  ⟨h.toStops.trans h'.toStops, h'.margins.trans h.margins⟩

theorem Stays.deadline (h : L.Stays issued p) : p.1.deadline = L.deadline :=
  congrArg (·.2.2) h.margins

theorem Stays.halts (h : L.Stays issued p) (h' : p.1.Halts issued Err f q) :
    L.Halts issued Err f q := ⟨h.trans h'.toStays, h.deadline ▸ h'.fails⟩

theorem Wf.stays_counters (hL : L.Wf issued s) (ht : issued.Grows s t) {k : Counters}
    (hk : k.contradictions = L.counters.contradictions) :
    L.Stays issued ({ L with counters := k }, t) where
  wf := (L.alike_counters k).wf (hL.grows ht)
  evolves := (L.alike_counters k).evolves
  margins := L.margins_counters hk

/-- What a witness is known to satisfy, and that nothing else changes but a count. -/
theorem leads_witness_of {P : Option Query → Prop} (hk : B.cp.Keeps issued) (hL : L.Wf issued s)
    (h : (B.cp.witness L.arena N).Leads s (fun r _ => P r) Err) :
    Action.Leads (witness B.cp N) (L, s)
      (fun r p => (∃ k, k.contradictions = L.counters.contradictions ∧
        p.1 = { L with counters := k }) ∧ issued.Grows s p.2 ∧ P r)
      (L.Halts issued Err) := by
  rw [witness, Action.leads_bind, leads_count, leads_callWith]
  apply (h.and (hk.witness L.arena N s)).mono
  · intro r t h
    exact ⟨⟨{ L.counters with cpCalls := L.counters.cpCalls + 1 }, rfl, rfl⟩, h.2, h.1⟩
  · exact fun f t h => ⟨hL.stays_counters h.2 rfl, .inr (.inr h.1)⟩

/-! ### Probing -/

theorem leads_sample_stays (hB : B.Serves issued dom L.arena R D Err) (draws : Nat)
    (ruledOut : IndexSet) (hL : L.Wf issued s) (hN : N.Closed L.arena) :
    Action.Leads (sample B.cp N ruledOut draws) (L, s) (fun _ => L.Stays issued)
      (L.Halts issued Err) := by
  induction draws generalizing L s with
  | zero => exact hL.stays
  | succ draws ih =>
    rw [sample, Action.leads_bind, leads_poll]
    refine ⟨fun _ => ?_, fun hpassed => hL.halts (.inl ⟨rfl, hpassed⟩)⟩
    rw [Action.leads_bind]
    apply (leads_witness_of hB.keeps hL (hB.errors N s hN)).mono _ fun _ _ h => h
    rintro r ⟨L', t⟩ ⟨⟨k, hk, rfl⟩, ht, -⟩
    have hstays := hL.stays_counters ht hk
    cases r with
    | none => exact hstays
    | some q =>
      rw [Action.leads_bind, leads_check]
      constructor
      · intro kappa _
        split
        · exact (ih (L := { L with counters := k }) hB hstays.wf hN).mono
            (fun _ _ h => hstays.trans h) fun _ _ h => hstays.halts h
        · exact hstays
      · intro e he
        rw [Bias.kappa_error (fun c hc => (hL.closed c (hL.undecided c hc)).1) he]
        exact hstays.halts (hstays.wf.halts (.inr (.inl rfl)))

theorem leads_probe_stays (hB : B.Serves issued dom L.arena R D Err) (hL : L.Wf issued s)
    (hN : N.Closed L.arena) {cs : List ConstraintId}
    (hcs : ∀ c ∈ cs, c ∈ L.undecided.constraints) :
    Action.Leads (probe B.cp N cs) (L, s) (fun _ => L.Stays issued) (L.Halts issued Err) := by
  induction cs generalizing L s N with
  | nil => exact hL.stays
  | cons c cs ih =>
    have hbias := hL.undecided c (hcs c List.mem_cons_self)
    have hreg := (hL.closed c hbias).1
    obtain ⟨l, hl⟩ := (hL.atoms c hbias).1
    obtain ⟨M, hM⟩ := Network.exists_add (hL.built.paired.registered_twin hreg) N
    have hMclosed := hN.add hM
    rw [probe, Action.leads_bind, leads_poll]
    refine ⟨fun _ => ?_, fun hpassed => hL.halts (.inl ⟨rfl, hpassed⟩)⟩
    rw [Action.leads_bind, leads_negation, hreg.negation]
    refine ⟨fun n e => ?_, by simp⟩
    cases e
    rw [Action.leads_bind, leads_check, hM]
    refine ⟨fun M' e => ?_, by simp⟩
    cases e
    rw [Action.leads_bind]
    apply (leads_witness_of hB.keeps hL (hB.errors M s hMclosed)).mono _ fun _ _ h => h
    rintro r ⟨L', t⟩ ⟨⟨k, hk, rfl⟩, ht, -⟩
    have hstays := hL.stays_counters ht hk
    cases r with
    | some q => exact hstays
    | none =>
      rw [Action.leads_bind, leads_literal, hl]
      refine ⟨fun l' e => ?_, by simp⟩
      cases e
      rw [Action.leads_bind, leads_update]
      have hlearnt : L.Stays issued
          ({ L with counters := k, theory := L.theory.adding (.ofLiteral l) }, t) :=
        hstays.trans ⟨hstays.wf.stops_learning hbias hl, rfl⟩
      have hleft : (if N.contains (Arena.twin c) then M else M.remove (Arena.twin c)).Closed
          L.arena := by
        split
        · exact hMclosed
        · exact hMclosed.remove _
      apply (ih (L := { L with counters := k, theory := L.theory.adding (.ofLiteral l) }) hB
        hlearnt.wf hleft fun d hd => hcs d (List.mem_cons_of_mem c hd)).mono
      · exact fun _ _ h => hlearnt.trans h
      · exact fun _ _ h => hlearnt.halts h

theorem leads_probeQuery_stays (hB : B.Serves issued dom L.arena R D Err) (hL : L.Wf issued s)
    (hmono : L.theory.isMonomial = .ok true) :
    Action.Leads (probeQuery B) (L, s) (fun _ => L.Stays issued) (L.Halts issued Err) := by
  obtain ⟨cs, hcs⟩ := exists_positives hmono
  obtain ⟨out, hout⟩ := exists_negatives hmono
  obtain ⟨N, hN⟩ := hL.exists_ofPositives hcs
  have hclosed : (N.union L.known).Closed L.arena := (Network.closed_ofList hN).union hL.known
  -- What is left once no sample was of use.
  have hprobe : ∀ p, L.Stays issued p → Action.Leads (do
      probe B.cp (N.union L.known)
        ((← own).undecided.toList.filter (!(N.union L.known).contains ·))) p
      (fun _ => L.Stays issued) (L.Halts issued Err) := by
    rintro ⟨L', t⟩ hstays
    have harena : L'.arena = L.arena := hstays.evolves.arena
    rw [Action.leads_bind, leads_own]
    apply (leads_probe_stays (harena ▸ hB) hstays.wf (harena ▸ hclosed) fun c hc =>
      mem_toList'.1 (List.mem_filter.1 hc).1).mono
    · exact fun _ _ h => hstays.trans h
    · exact fun _ _ h => hstays.halts h
  have hlearned : (·.union L.known) <$> Network.ofList L.arena L.bias.scope cs =
      .ok (N.union L.known) := by
    rw [hN]
    rfl
  rw [probeQuery, Action.leads_bind, leads_check_of hcs, Action.leads_bind,
    leads_check_of hlearned, Action.leads_bind, leads_check_of hout, Action.leads_bind, leads_own]
  dsimp only
  split
  · rw [Action.leads_bind, leads_call, Action.leads_map, Action.leads_get, Action.leads_bind]
    apply (leads_sample_stays hB _ _ hL hclosed).mono _ fun _ _ h => h
    intro r p hstays
    cases r with
    | none => exact hprobe p hstays
    | some q => exact hstays
  · exact hprobe (L, s) hL.stays

/-! ### Attempts -/

theorem Chooses.pivot {k : ClauseKey} {c : Clause} (h : L.Chooses k c L') :
    L'.pivot = some k ∧ L'.theory.get? k = some c := by
  cases h with
  | kept hk hc => exact ⟨hk, hc⟩
  | fresh _ _ _ hc _ => exact ⟨rfl, hc⟩

theorem Chooses.stays {k : ClauseKey} {c : Clause} (h : L.Chooses k c L') (hL : L.Wf issued s) :
    L.Stays issued (L', s) := by
  cases h with
  | kept _ _ => exact hL.stays
  | fresh _ hv hS _ _ =>
    have hmarked := continues_marked (fun _ _ => True) hL hv hS (some k) 1 0 L.counters
      fun _ => True
    exact ⟨hmarked.stops, rfl⟩

theorem keeps_propagate_long (K : Finset ClauseKey) (l : Literal) :
    Keeps (fun p => p.1.theory.Valid ∧ p.1.theory.longKeys ⊆ K)
      (propagate l : Procedure Learner σ Unit) := by
  rintro p ⟨hv, hsub⟩
  rw [propagate, Action.leads_bind, leads_check]
  refine ⟨fun r hr => ?_, fun _ _ => ⟨hv, hsub⟩⟩
  obtain ⟨report, S⟩ := r
  obtain ⟨hsimp, -⟩ := propagate_eq_ok hv hr
  have hS : S.Valid ∧ S.longKeys ⊆ K := ⟨hsimp.valid, hsimp.longKeys_subset.trans hsub⟩
  rw [Action.leads_bind, leads_update]
  split
  · exact hS
  · exact hS

/-- To commit literals makes no clause long that was not. -/
theorem keeps_commitEach_long (K : Finset ClauseKey) (origin : Option Query) (ls : List Literal) :
    Keeps (fun p => p.1.theory.Valid ∧ p.1.theory.longKeys ⊆ K)
      (commitEach origin ls : Procedure Learner σ Unit) := by
  induction ls with
  | nil => exact keeps_pure _
  | cons l ls ih =>
    have rest : Keeps (fun p => p.1.theory.Valid ∧ p.1.theory.longKeys ⊆ K) (do
        update fun L =>
          { L with theory := L.theory.adding ((Clause.ofLiteral l).withOrigin origin) }
        propagate l
        let n ← negation l.constraint
        update fun L => { L with undecided := L.undecided.reduce n }
        commitEach origin ls : Procedure Learner σ Unit) := by
      have hadd : ∀ p : Learner × σ, p.1.theory.Valid ∧ p.1.theory.longKeys ⊆ K →
          (p.1.theory.adding ((Clause.ofLiteral l).withOrigin origin)).Valid ∧
            (p.1.theory.adding ((Clause.ofLiteral l).withOrigin origin)).longKeys ⊆ K :=
        fun p ⟨hv, hsub⟩ => ⟨hv.adding _, (longKeys_adding_subset hv rfl).trans hsub⟩
      apply (keeps_update hadd).bind
      intro _
      apply (keeps_propagate_long K l).bind
      intro _
      apply (keeps_negation _).bind
      intro n
      exact Keeps.bind (keeps_update fun _ h => h) fun _ => ih
    rw [commitEach]
    split
    · exact (keeps_throw _).bind fun _ => rest
    · exact rest

/-- To commit a clause takes it out of the long ones. -/
theorem leads_commit_shortens (hL : L.Wf issued s) {k : ClauseKey} {c : Clause}
    (hk : L.theory.get? k = some c) {E : Failure → Learner × σ → Prop} :
    Action.Leads (commit k c) (L, s)
      (fun _ p => L.Stays issued p ∧ p.1.theory.longKeys ⊆ L.theory.longKeys.erase k) E := by
  have hlong : Action.Leads (commit k c) (L, s)
      (fun _ p => p.1.theory.Valid ∧ p.1.theory.longKeys ⊆ L.theory.longKeys.erase k)
      fun _ _ => True := by
    rw [commit, Action.leads_bind, leads_update]
    apply (keeps_commitEach_long (L.theory.longKeys.erase k) c.origin c.literals _ _).mono
      (fun _ _ h => h) fun _ _ _ => trivial
    exact ⟨hL.theory.valid.erase k, (longKeys_erase L.theory k).subset⟩
  apply (((leads_commit (fun _ _ => True) hL hk (E := fun _ _ => False)).and
    (rests_commit aloof_margins.apart k c (L, s) rfl)).and hlong).mono
  · exact fun _ p h => ⟨⟨h.1.1.1.stops, h.1.2⟩, h.2.2⟩
  · exact fun _ _ h => h.1.1.elim

/-- What an attempt at the clause `c` under the key `k` does that finds no query. -/
inductive Misses (Sat : IndexSet → Prop) (L : Learner) (k : ClauseKey) (c : Clause) :
    Learner → Prop
  /-- A split that is still close becomes wider. -/
  | widened {n : Counters} : L.isClose c.size = true →
      n.contradictions = L.counters.contradictions →
      Misses Sat L k c { L with slack := L.slack + 1, counters := n }
  /-- The clause makes room for its literals. -/
  | committed {L' : Learner} : L'.margins = L.margins → L'.atoms = L.atoms → L'.pivot = none →
      L'.theory.longKeys ⊆ L.theory.longKeys.erase k → Misses Sat L k c L'
  /-- A conflict was found. -/
  | contradicted {d : Clause} {M : IndexSet} {n : Counters} : L.Adds Sat d M →
      n.contradictions = L.counters.contradictions + 1 →
      Misses Sat L k c { L with background := L.background.adding d, counters := n }

variable {k : ClauseKey} {c : Clause}

theorem leads_widen_misses (Sat : IndexSet → Prop) (hL : L.Wf issued s)
    (hk : L.theory.get? k = some c) {n : Counters}
    (hn : n.contradictions = L.counters.contradictions) {E : Failure → Learner × σ → Prop} :
    Action.Leads (widen (some (k, c)) (L.isClose c.size)) ({ L with counters := n }, s)
      (fun _ p => L.Stops issued p ∧ L.Misses Sat k c p.1) E := by
  have hstays := hL.stays_counters (.refl issued s) hn
  cases hclose : L.isClose c.size with
  | true =>
    rw [widen, leads_update]
    have halike : L.Alike { L with slack := L.slack + 1, counters := n } :=
      ⟨rfl, rfl, rfl, rfl, rfl, fun _ => id, rfl, rfl, rfl⟩
    exact ⟨⟨halike.wf hL, halike.evolves⟩, .widened hclose hn⟩
  | false =>
    rw [widen, Action.leads_bind]
    apply (leads_commit_shortens hstays.wf hk).mono _ fun _ _ h => h
    rintro _ ⟨L', t⟩ ⟨hcommitted, hshort⟩
    have hall := hstays.trans hcommitted
    have halike : L'.Alike { L' with pivot := none } :=
      ⟨rfl, rfl, rfl, rfl, rfl, fun _ => id, rfl, rfl, rfl⟩
    rw [leads_update]
    refine ⟨⟨halike.wf hall.wf, hall.evolves.trans halike.evolves⟩, ?_⟩
    exact .committed hall.margins hall.evolves.atoms rfl hshort

/-- What an attempt comes to. -/
structure Tries (issued : Issued σ) (Sat : IndexSet → Prop) (L : Learner) (r : Option Query)
    (p : Learner × σ) : Prop extends Stops issued L p where
  found : ∀ q, r = some q → p.1.margins = L.margins
  missed : r = none → ∃ k c L', L.Chooses k c L' ∧ L'.Misses Sat k c p.1

variable {Sat : IndexSet → Prop}

theorem Stays.tries (h : L.Stays issued p) (r : Query) : L.Tries issued Sat (some r) p where
  toStops := h.toStops
  found := fun _ _ => h.margins
  missed := by
    intro e
    cases e

theorem Chooses.tries {L₁ : Learner} (h : L.Chooses k c L₁) (hp : L.Stops issued p)
    (hmisses : L₁.Misses Sat k c p.1) : L.Tries issued Sat none p where
  toStops := hp
  found := by
    intro _ e
    cases e
  missed := fun _ => ⟨k, c, L₁, h, hmisses⟩

/-- A model of a split either has a witness, which is a query, or is the source of a conflict. -/
theorem leads_model_tries {L₀ : Learner} (hL₀ : L₀.Wf issued s) (hchooses : L₀.Chooses k c L)
    (hB : B.Serves issued dom L₀.arena R D Err) (hhoused : L.Housed B.sat issued dom R D)
    {m : Model} (hm : L.Offers B.sat issued m) (ht : issued.Grows s t) {n : Counters}
    (hn : n.contradictions = L.counters.contradictions) :
    Action.Leads (do
        let N ← check fun L => Network.ofList L.arena L.bias.scope m
        match ← witness B.cp N with
        | none => do
          addConflict B.cp N
          return none
        | some q => do
          if !L.isClose c.size then
            if let some (k, _) := some (k, c) then
              update fun L => { L with theory := L.theory.mark k }
          return some q : Procedure Learner σ (Option Query))
      ({ L with counters := n }, t) (L₀.Tries issued ((Network.ofScope R).Admits L₀.arena dom))
      (L₀.Halts issued Err) := by
  have hchosen : L₀.Stays issued (L, s) := hchooses.stays hL₀
  have hL : L.Wf issued s := hchosen.wf
  have harena : L.arena = L₀.arena := hchosen.evolves.arena
  rw [← harena] at hB ⊢
  have hbegun : issued.Begun s := hL.begun (get?_mem hchooses.pivot.2)
  have hcounted : L.Stays issued ({ L with counters := n }, t) := hL.stays_counters ht hn
  obtain ⟨N, hN⟩ := Network.exists_ofList L.bias.scope fun d hd => by
    obtain ⟨l, hl⟩ := hm.tabled d hd
    exact hL.registered d l hl
  obtain ⟨hover, hD⟩ := hm.over hhoused hN
  rw [Action.leads_bind, leads_check_of hN, Action.leads_bind]
  apply (leads_witness_of hB.keeps hcounted.wf (hB.answers N t (ht.begun hbegun) hover hD)).mono
  swap
  · exact fun f p hf => hchosen.halts (hcounted.halts hf)
  rintro r ⟨L', u⟩ ⟨⟨n', hn', rfl⟩, hu, hanswer⟩
  have hseen : L.Stays issued ({ L with counters := n' }, u) :=
    hL.stays_counters (ht.trans hu) (hn'.trans hn)
  cases r with
  | none =>
    have hhoused' : { L with counters := n' }.Housed B.sat issued dom R D :=
      hseen.evolves.housed hhoused
    have hm' : { L with counters := n' }.Offers B.sat issued m :=
      ⟨hm.tabled, hm.concerns, hm.avoids⟩
    rw [Action.leads_bind]
    apply (leads_addConflict_adds (L := { L with counters := n' }) hB hseen.wf
      ((ht.trans hu).begun hbegun) hhoused' hm' hN hanswer).mono
    · rintro - ⟨L₂, v⟩ ⟨hv, n₂, d, M, rfl, hn₂, hadds⟩
      have hadds' : L.Adds ((Network.ofScope R).Admits L.arena dom) d M :=
        ⟨hadds.nonEmpty, hadds.listed, hadds.members, hadds.minimal, hadds.new⟩
      have hsum : n₂.contradictions = L.counters.contradictions + 1 :=
        hn₂.trans (congrArg (· + 1) (hn'.trans hn))
      have hstops := hadds'.stops (hL.grows (ht.trans (hu.trans hv))) n₂
      exact hchooses.tries (hchosen.toStops.trans hstops) (.contradicted hadds' hsum)
    · rintro f ⟨L₂, v⟩ ⟨hv, ⟨n₂, hn₂, rfl⟩, hf⟩
      have hlast := hL.stays_counters (ht.trans (hu.trans hv)) (hn₂.trans (hn'.trans hn))
      exact hchosen.halts ⟨hlast, hf.imp id .inr⟩
  | some q =>
    cases hclose : L.isClose c.size with
    | true => exact (hchosen.trans hseen).tries q
    | false =>
      have hmarked := continues_marked (fun _ _ => True) hseen.wf
        (hseen.wf.theory.valid.mark k) (sameLiterals_mark L.theory k) L.pivot L.aim L.slack n'
        fun _ => True
      exact (hchosen.trans (hseen.trans ⟨hmarked.stops, rfl⟩)).tries q

/-- An attempt on a theory with a clause of several literals. -/
theorem leads_attemptSplit_tries (hB : B.Serves issued dom L.arena R D Err) (hL : L.Wf issued s)
    (hhoused : L.Housed B.sat issued dom R D)
    (hlong : ∃ c ∈ L.theory.clauses, isLong c = true) :
    Action.Leads (attemptSplit B) (L, s)
      (L.Tries issued ((Network.ofScope R).Admits L.arena dom)) (L.Halts issued Err) := by
  rw [attemptSplit, Action.leads_bind, leads_poll]
  refine ⟨fun _ => ?_, fun hpassed => hL.halts (.inl ⟨rfl, hpassed⟩)⟩
  rw [Action.leads_bind]
  apply (leads_choosePivot_or_overflow hL hlong).mono
  swap
  · rintro f p ⟨rfl, rfl⟩
    exact hL.halts (.inr (.inl rfl))
  rintro - ⟨L', t⟩ ⟨hs, k, c, hchooses⟩
  obtain rfl : t = s := hs
  have hchosen : L.Stays issued (L', t) := hchooses.stays hL
  obtain ⟨hpivot, hkc⟩ : L'.pivot = some k ∧ L'.theory.get? k = some c := hchooses.pivot
  have harena : L'.arena = L.arena := hchosen.evolves.arena
  have hB' : B.Serves issued dom L'.arena R D Err := harena ▸ hB
  have hL' : L'.Wf issued t := hchosen.wf
  have hhoused' : L'.Housed B.sat issued dom R D := hchosen.evolves.housed hhoused
  rw [Action.leads_bind, leads_own]
  dsimp only
  rw [hpivot, Option.bind_some, hkc, Option.map_some, Option.map_some, Option.any_some,
    Action.leads_bind, formula]
  apply (leads_splitFormula hL' fun l hl => hL'.voices (get?_mem hkc) hl).mono
  swap
  · rintro f p ⟨rfl, rfl⟩
    exact hchosen.halts (hL'.halts (.inr (.inl rfl)))
  rintro F p ⟨rfl, hF⟩
  rw [Action.leads_bind, leads_count, Action.leads_bind, leads_callWith]
  apply (leads_solveSplit_offers hB'.sat hL' hF).mono
  swap
  · rintro f u ⟨hu, hf⟩
    exact hchosen.halts ⟨hL'.stays_counters hu rfl, .inr (.inr hf)⟩
  rintro r u ⟨hu, hoffers⟩
  cases r with
  | none =>
    rw [Action.leads_bind]
    apply (leads_widen_misses ((Network.ofScope R).Admits L.arena dom) (hL'.grows hu) hkc
      (n := { L'.counters with satCalls := L'.counters.satCalls + 1 }) rfl).mono _ fun _ _ h => h
    rintro - p ⟨hp, hmisses⟩
    exact hchooses.tries (hchosen.toStops.trans hp) (harena ▸ hmisses)
  | some m =>
    exact leads_model_tries hL hchooses hB hhoused' (hoffers m rfl) hu rfl

end Acquisition.Learner
