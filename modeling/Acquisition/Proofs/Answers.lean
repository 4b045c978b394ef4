import Acquisition.Proofs.Knowledge

/-!
# Learning from an answer loses nothing

What an answer rules out or confirms is carried into the theory by propagation and by
new clauses. Each of the steps is described by what it does to the theory, and learning
from a query is put together from these descriptions.
-/
namespace Acquisition

open Checked IndexSet ClauseStore

/-- What is left of a store once some constraints are ruled out. -/
structure AtomTable.Prunes (T : AtomTable) (out : ConstraintId → Prop) (S S' : ClauseStore) :
    Prop where
  formed : ∀ bias opens due, T.Formed bias opens due S → T.Formed bias opens due S'
  covered : ∀ c ∈ S.clauses, ∃ d ∈ S'.clauses, ∀ l ∈ d.literals, l ∈ c.literals
  sound : ∀ W : ConstraintId → Prop, (∀ c, out c → ¬ W c) →
    (∀ c ∈ S.clauses, ∃ l ∈ c.literals, W l.constraint) →
    ∀ d ∈ S'.clauses, ∃ l ∈ d.literals, W l.constraint
  narrower : ∀ d ∈ S'.clauses, isLong d = true →
    ∃ c ∈ S.clauses, isLong c = true ∧ ∀ l ∈ d.literals, l ∈ c.literals
  gone : ∀ d ∈ S'.clauses, isLong d = true → ∀ l ∈ d.literals, ¬ out l.constraint

namespace AtomTable.Prunes

variable {T : AtomTable} {out out' : ConstraintId → Prop} {S S' S'' : ClauseStore}

theorem refl (T : AtomTable) (S : ClauseStore) : T.Prunes (fun _ => False) S S where
  formed := fun _ _ _ h => h
  covered := fun c hc => ⟨c, hc, fun _ h => h⟩
  sound := fun _ _ h => h
  narrower := fun c hc hlong => ⟨c, hc, hlong, fun _ h => h⟩
  gone := fun _ _ _ _ _ h => h

theorem trans (h : T.Prunes out S S') (h' : T.Prunes out' S' S'') :
    T.Prunes (fun c => out c ∨ out' c) S S'' where
  formed := fun bias opens due hS => h'.formed bias opens due (h.formed bias opens due hS)
  covered := fun c hc => by
    obtain ⟨d, hd, hdc⟩ := h.covered c hc
    obtain ⟨e, he, hed⟩ := h'.covered d hd
    exact ⟨e, he, fun l hl => hdc l (hed l hl)⟩
  sound := fun W hout hS => h'.sound W (fun c hc => hout c (.inr hc))
    (h.sound W (fun c hc => hout c (.inl hc)) hS)
  narrower := fun e he hlong => by
    obtain ⟨d, hd, hlong', hed⟩ := h'.narrower e he hlong
    obtain ⟨c, hc, hlong'', hdc⟩ := h.narrower d hd hlong'
    exact ⟨c, hc, hlong'', fun l hl => hdc l (hed l hl)⟩
  gone := fun e he hlong l hl => by
    obtain ⟨d, hd, hlong', hed⟩ := h'.narrower e he hlong
    rintro (hout | hout)
    · exact h.gone d hd hlong' l (hed l hl) hout
    · exact h'.gone e he hlong l hl hout

end AtomTable.Prunes

section

variable {σ : Type} {issued : Issued σ} {s : σ} {T : AtomTable} {bias opens : IndexSet}
  {due : Literal → Prop} {S S' : ClauseStore} {l : Literal}

/-- Propagation of a literal keeps what the constraints of `W` satisfy, if they agree with
the literal. -/
theorem ClauseStore.Simplifies.sound (h : Simplifies l S S') (hT : T.Names issued s)
    (hS : T.Formed bias opens due S) {W : ConstraintId → Prop}
    (hl : W l.constraint ↔ l.negated = false)
    (hW : ∀ c ∈ S.clauses, ∃ m ∈ c.literals, W m.constraint) :
    ∀ d ∈ S'.clauses, ∃ m ∈ d.literals, W m.constraint := by
  have hcons : Consistent fun m => W m.constraint ↔ m.negated = false := fun m n hm hn => by
    simp only [Literal.isComplement, Literal.sameConstraint]
    by_cases he : m.constraint = n.constraint
    · dsimp only at hm hn
      rw [he] at hm
      have : m.negated = n.negated := by
        rw [Bool.eq_iff_iff, ← not_iff_not, Bool.not_eq_true, Bool.not_eq_true]
        exact hm.symm.trans hn
      simp [this]
    · simp [he]
  intro d hd
  obtain ⟨m, hm, hWm⟩ := h.kept _ hcons hl (fun c hc => by
    obtain ⟨m, hm, hWm⟩ := hW c hc
    exact ⟨m, hm, iff_of_true hWm (hT.positive (hS.listed c hc m hm).2)⟩) d hd
  exact ⟨m, hm, hWm.2 (hT.positive ((hS.simplifies h).listed d hd m hm).2)⟩

/-- To propagate the negated literal of a constraint prunes it. -/
theorem AtomTable.Names.prunes (hT : T.Names issued s) {c : ConstraintId}
    (hc : T.literal c = .ok l) (hS : T.Formed bias opens due S)
    (h : Simplifies l.negate S S')
    (hclean : ∀ d ∈ S'.clauses, isLong d = true →
      ∀ m ∈ d.literals, m.isComplement l.negate = false) :
    T.Prunes (· = c) S S' := by
  obtain ⟨hn, hlc, -⟩ := hT.entry c l hc
  refine ⟨fun bias opens due hS => hS.simplifies h, fun d hd => ?_, fun W hout hW => ?_,
    fun d hd hlong => ?_, fun d hd hlong m hm e => ?_⟩
  · refine (h.covered d hd).resolve_left fun hl => ?_
    have := hT.positive (hS.listed d hd _ hl).2
    simp [Literal.negate, hn] at this
  · refine h.sound hT hS (iff_of_false ?_ ?_) hW
    · exact hout _ hlc
    · simp [Literal.negate, hn]
  · obtain ⟨k, hk⟩ := mem_clauses.1 hd
    obtain ⟨e, he, hsub⟩ := h.shrinks k d hk
    exact ⟨e, get?_mem he, isLong_of_sublist hsub hlong, fun m hm => hsub.subset hm⟩
  · have hpos := hT.positive ((hS.simplifies h).listed d hd m hm).2
    have := hclean d hd hlong m hm
    simp [Literal.isComplement, Literal.sameConstraint, Literal.negate, hn, hlc, e, hpos] at this

end

namespace Learner

variable {σ : Type} {issued : Issued σ} {s : σ} {dom : Ranges} {Err : Failure → σ → Prop}
  {L : Learner}

@[simp] theorem leads_literal (c : ConstraintId) (p : Learner × σ)
    (Q : Literal → Learner × σ → Prop) (E : Failure → Learner × σ → Prop) :
    Action.Leads (literal c : Procedure Learner σ Literal) p Q E ↔
      (∀ l, p.1.atoms.literal c = .ok l → Q l p) ∧
        (∀ e, p.1.atoms.literal c = .error e → E (.error e) p) := by
  simp [literal]

@[simp] theorem leads_negation (c : ConstraintId) (p : Learner × σ)
    (Q : ConstraintId → Learner × σ → Prop) (E : Failure → Learner × σ → Prop) :
    Action.Leads (negation c : Procedure Learner σ ConstraintId) p Q E ↔
      (∀ n, p.1.arena.negation c = .ok n → Q n p) ∧
        (∀ e, p.1.arena.negation c = .error e → E (.fault e) p) := by
  simp [negation]

@[simp] theorem leads_count (f : Counters → Counters) (p : Learner × σ)
    (Q : Unit → Learner × σ → Prop) (E : Failure → Learner × σ → Prop) :
    Action.Leads (count f : Procedure Learner σ Unit) p Q E ↔
      Q () ({ p.1 with counters := f p.1.counters }, p.2) := Iff.rfl

@[simp] theorem leads_noteFirstLearned (p : Learner × σ)
    (Q : Unit → Learner × σ → Prop) (E : Failure → Learner × σ → Prop) :
    Action.Leads (noteFirstLearned : Procedure Learner σ Unit) p Q E ↔
      Q () ({ p.1 with counters := { p.1.counters with firstLearned := true } }, p.2) := Iff.rfl

@[simp] theorem leads_noteAsked (q : Query) (p : Learner × σ)
    (Q : Unit → Learner × σ → Prop) (E : Failure → Learner × σ → Prop) :
    Action.Leads (noteAsked q : Procedure Learner σ Unit) p Q E ↔
      Q () ({ p.1 with asked := p.1.asked ++ [q] }, p.2) := Iff.rfl

@[simp] theorem leads_addClause (reduce : Bool) (c : Clause) (p : Learner × σ)
    (Q : Unit → Learner × σ → Prop) (E : Failure → Learner × σ → Prop) :
    Action.Leads (addClause reduce c : Procedure Learner σ Unit) p Q E ↔
      Q () ({ p.1 with theory :=
        if reduce then (p.1.theory.addReduced c).2 else p.1.theory.adding c }, p.2) := Iff.rfl

/-- Propagation never fails on a theory without empty clauses. -/
theorem leads_propagate (hv : L.theory.Valid) (hne : L.theory.NonEmpty) (l : Literal)
    {Q : Unit → Learner × σ → Prop} {E : Failure → Learner × σ → Prop}
    (h : ∀ S k, Simplifies l L.theory S →
      (∀ c ∈ S.clauses, isLong c = true → ∀ m ∈ c.literals, m.isComplement l = false) →
      Q () ({ L with theory := S, counters := k }, s)) :
    Action.Leads (propagate l) (L, s) Q E := by
  obtain ⟨⟨report, S⟩, hS⟩ := exists_propagate hne l
  obtain ⟨hsimp, hclean⟩ := propagate_eq_ok hv hS
  simp only [propagate, Action.leads_bind, Procedure.leads_check, hS, Procedure.leads_update]
  refine ⟨fun r hr => ?_, by simp⟩
  cases hr
  split
  · exact h S _ hsimp hclean
  · exact h S _ hsimp hclean

/-- The propagation of the negated literals of some constraints. -/
theorem leads_propagateEach {cs : List ConstraintId} (hT : L.atoms.Names issued s)
    (hcs : ∀ c ∈ cs, ∃ l, L.atoms.literal c = .ok l) {bias opens : IndexSet}
    {due : Literal → Prop} (hS : L.atoms.Formed bias opens due L.theory)
    {Q : PUnit → Learner × σ → Prop} {E : Failure → Learner × σ → Prop}
    (h : ∀ S k, L.atoms.Prunes (· ∈ cs) L.theory S →
      Q ⟨⟩ ({ L with theory := S, counters := k }, s)) :
    Action.Leads (cs.forM fun c => do propagate (← literal c).negate) (L, s) Q E := by
  induction cs generalizing L with
  | nil =>
    refine h L.theory L.counters ?_
    have hnone : (· ∈ ([] : List ConstraintId)) = fun _ => False := by simp
    rw [hnone]
    exact .refl _ _
  | cons c cs ih =>
    obtain ⟨l, hl⟩ := hcs c List.mem_cons_self
    change Action.Leads ((do propagate (← literal c).negate) >>= fun _ =>
      cs.forM fun c => do propagate (← literal c).negate) (L, s) Q E
    rw [Action.leads_bind, Action.leads_bind, leads_literal, hl]
    refine ⟨fun m hm => ?_, nofun⟩
    cases hm
    refine leads_propagate hS.valid hS.nonEmpty _ fun S k hsimp hclean => ?_
    have hprune := hT.prunes hl hS hsimp hclean
    refine ih (L := { L with theory := S, counters := k }) hT
      (fun d hd => hcs d (List.mem_cons_of_mem c hd)) (hprune.formed _ _ _ hS)
      fun S' k' hprune' => h S' k' ?_
    have hmem : (· ∈ c :: cs) = fun d => d = c ∨ d ∈ cs := by simp
    rw [hmem]
    exact hprune.trans hprune'

/-- A constraint of the bias that a query says something about. -/
def Kappa (L : Learner) (q : Query) (c : ConstraintId) : Prop :=
  c ∈ L.undecided.constraints ∧ q.Violates L.arena c

theorem leads_ruleOut (dom : Ranges) (hL : L.Wf issued s) {kappa : IndexSet}
    (hk : kappa ⊆ L.undecided.constraints) {Q : Unit → Learner × σ → Prop}
    {E : Failure → Learner × σ → Prop}
    (h : ∀ L', L.Continues issued dom (fun W => ∀ c ∈ kappa, ¬ W c) (L', s) →
      (∀ c ∈ L'.undecided.constraints, c ∉ kappa) → Q () (L', s)) :
    Action.Leads (ruleOut kappa) (L, s) Q E := by
  have hentry : ∀ c ∈ kappa.toList, ∃ l, L.atoms.literal c = .ok l := fun c hc =>
    (hL.atoms c (hL.undecided c (hk c (mem_toList'.1 hc)))).1
  rw [ruleOut, Action.leads_bind]
  refine leads_propagateEach hL.names hentry hL.theory fun S k hS => ?_
  rw [Procedure.leads_update]
  refine h _ ⟨?_, ?_, fun W hW hsound => ?_⟩ fun c hc => (Bias.mem_reduceAll.1 hc).2
  · refine ⟨hL.built, hL.closed, hL.known, hL.names, hL.atoms, hL.registered,
      fun c hc => hL.undecided c (Bias.mem_reduceAll.1 hc).1, ?_, hL.background, hL.kept⟩
    refine (hS.formed _ _ _ hL.theory).reduce fun d hd hlong l hl hopen => .inl ?_
    exact Bias.mem_reduceAll.2 ⟨hopen, fun hc => hS.gone d hd hlong l hl (mem_toList'.2 hc)⟩
  · exact ⟨rfl, rfl, rfl, rfl, rfl, fun _ => id,
      fun c hc => (Bias.mem_reduceAll.1 hc).1, hS.covered⟩
  · exact ⟨hS.sound W (fun c hc => hW c (mem_toList'.1 hc)) hsound.theory,
      fun c hc => Bias.mem_reduceAll.2 ⟨hsound.undecided c hc, fun hk => hW c hk hc⟩,
      hsound.apart, hsound.background⟩

/-- What adding a clause does to a store, however it is added. -/
theorem added (reduce : Bool) {T : AtomTable} {bias opens : IndexSet} {due : Literal → Prop}
    {S : ClauseStore} (hS : T.Formed bias opens due S) {c : Clause} (hne : c.literals ≠ [])
    (hlist : ∀ l ∈ c.literals, l.constraint ∈ bias ∧ T.Lists l)
    (hopen : isLong c = true → ∀ l ∈ c.literals, l.constraint ∈ opens) :
    let S' := if reduce then (S.addReduced c).2 else S.adding c
    T.Formed bias opens due S' ∧ (∀ d ∈ S'.clauses, d = c ∨ d ∈ S.clauses) ∧
      ∀ d, d ∈ S.clauses ∨ d = c → ∃ e ∈ S'.clauses, ∀ l ∈ e.literals, l ∈ d.literals := by
  cases reduce with
  | true =>
    exact ⟨hS.addReduced hne hlist hopen, fun d hd => mem_of_mem_addReduced hS.valid hd,
      fun d hd => exists_addReduced hS.valid hd⟩
  | false =>
    refine ⟨hS.adding hne hlist hopen fun m hm => .inl hm,
      fun d hd => mem_of_mem_adding hS.valid hd, ?_⟩
    rintro d (hd | rfl)
    · exact ⟨d, mem_adding_of_mem hS.valid c hd, fun _ h => h⟩
    · obtain ⟨e, he, hl⟩ := exists_adding hS.valid d
      exact ⟨e, he, fun l h => hl ▸ h⟩

theorem leads_confirm (dom : Ranges) (hL : L.Wf issued s) (reduce : Bool) (q : Query)
    {c : ConstraintId}
    (hc : c ∈ L.undecided.constraints) {Q : Unit → Learner × σ → Prop}
    {E : Failure → Learner × σ → Prop}
    (h : ∀ L', L.Continues issued dom (fun W => W c) (L', s) →
      (∃ d ∈ L'.theory.clauses, ∀ l ∈ d.literals, l.constraint = c) → Q () (L', s)) :
    Action.Leads (confirm reduce q c) (L, s) Q E := by
  have hbias := hL.undecided c hc
  obtain ⟨⟨l, hl⟩, m, hm⟩ := hL.atoms c hbias
  obtain ⟨hpos, hlc, -⟩ := hL.names.entry c l hl
  have hreg := (hL.closed c hbias).1
  simp only [confirm, Action.leads_bind, leads_noteFirstLearned, leads_literal, hl]
  refine ⟨fun l' e => ?_, by simp⟩
  cases e
  refine leads_propagate (by exact hL.theory.valid) (by exact hL.theory.nonEmpty) _
    fun S k hS _ => ?_
  have hformed := hL.theory.simplifies hS
  have hlist : ∀ n ∈ ((Clause.ofLiteral l).withOrigin (some q)).literals,
      n.constraint ∈ L.bias.constraints ∧ L.atoms.Lists n := fun n hn => by
    rw [Clause.literals_withOrigin, Clause.literals_ofLiteral, List.mem_singleton] at hn
    subst hn
    exact ⟨hlc ▸ hbias, hL.names.lists hl⟩
  obtain ⟨hadded, hfrom, hcover⟩ := added reduce hformed (by simp) hlist (fun hlong => by cases hlong)
  simp only [leads_addClause, leads_negation, hreg.negation, Procedure.leads_update]
  refine ⟨fun n e => ?_, by simp⟩
  cases e
  rw [hm]
  refine ⟨fun l' e => ?_, by simp⟩
  cases e
  refine leads_propagate (by exact hadded.valid) (by exact hadded.nonEmpty) _
    fun S' k' hS' hclean => ?_
  have hprune := hL.names.prunes hm hadded hS' hclean
  refine h _ ⟨?_, ?_, fun W hW hsound => ?_⟩ ?_
  · refine ⟨hL.built, hL.closed, hL.known, hL.names, hL.atoms, hL.registered,
      fun d hd => hL.undecided d (Bias.mem_reduce.1 hd).1, ?_, hL.background, hL.kept⟩
    refine (hprune.formed _ _ _ hadded).reduce fun d hd hlong n hn hopen => .inl ?_
    exact Bias.mem_reduce.2 ⟨hopen, hprune.gone d hd hlong n hn⟩
  · refine ⟨rfl, rfl, rfl, rfl, rfl, fun _ => id,
      fun d hd => (Bias.mem_reduce.1 hd).1, fun d hd => ?_⟩
    -- A clause with the literal of `c` is covered by the new one.
    obtain ⟨e, he, hed⟩ : ∃ e, (e ∈ S.clauses ∨ e = (Clause.ofLiteral l).withOrigin (some q)) ∧
        ∀ n ∈ e.literals, n ∈ d.literals := by
      rcases hS.covered d hd with hld | ⟨e, he, hed⟩
      · exact ⟨_, .inr rfl, fun n hn => List.mem_singleton.1 hn ▸ hld⟩
      · exact ⟨e, .inl he, hed⟩
    obtain ⟨e', he', hee⟩ := hcover e he
    obtain ⟨e'', he'', hee'⟩ := hprune.covered e' he'
    exact ⟨e'', he'', fun n hn => hed n (hee n (hee' n hn))⟩
  · refine ⟨hprune.sound W ?_ fun d hd => ?_, fun d hd => ?_, hsound.apart, hsound.background⟩
    · rintro d rfl
      exact hsound.apart c hW
    · rcases hfrom d hd with rfl | hd
      · exact ⟨l, by simp, hlc ▸ hW⟩
      · refine hS.sound hL.names hL.theory (iff_of_true ?_ hpos) hsound.theory d hd
        rwa [hlc]
    · refine Bias.mem_reduce.2 ⟨hsound.undecided d hd, ?_⟩
      rintro rfl
      exact hsound.apart c hW hd
  · obtain ⟨e, he, hel⟩ := hcover _ (.inr rfl)
    obtain ⟨e', he', hee⟩ := hprune.covered e he
    refine ⟨e', he', fun n hn => ?_⟩
    rw [List.mem_singleton.1 (hel n (hee n hn)), hlc]

/-- The verdict on a query is the one that the constraints of `W` give, as far as the query
says something about the bias. -/
def Agrees (L : Learner) (q : Query) (W : ConstraintId → Prop) : Prop :=
  q.isPositive = true ↔ ∀ c, L.Kappa q c → ¬ W c

/-- What a learner makes of a verdict. -/
structure Learns (L : Learner) (q : Query) (r : Learnt) (L' : Learner) : Prop where
  accepted : q.isPositive = true →
    r = .consistent ∧ ∀ c ∈ L'.undecided.constraints, ¬ q.Violates L.arena c
  rejected : q.isPositive = false → (∃ c, L.Kappa q c) →
    r = .consistent ∧ ∃ d ∈ L'.theory.clauses, ∀ l ∈ d.literals, q.Violates L.arena l.constraint
  collapsed : q.isPositive = false → (¬ ∃ c, L.Kappa q c) → r = .collapse

theorem Alike.kappa {L L' : Learner} (h : L.Alike L') {q : Query} {c : ConstraintId} :
    L'.Kappa q c ↔ L.Kappa q c := by
  rw [Kappa, Kappa, h.undecided, h.arena]

theorem Alike.agrees {L L' : Learner} (h : L.Alike L') {q : Query} {W : ConstraintId → Prop} :
    L'.Agrees q W ↔ L.Agrees q W := by
  simp only [Agrees, h.kappa]

theorem Alike.learns {L L' L'' : Learner} (h : L.Alike L') {q : Query} {r : Learnt}
    (hl : L'.Learns q r L'') : L.Learns q r L'' where
  accepted := h.arena ▸ hl.accepted
  rejected := fun hneg hk => by
    rw [← h.arena]
    exact hl.rejected hneg (by simpa only [h.kappa] using hk)
  collapsed := fun hneg hk => hl.collapsed hneg (by simpa only [h.kappa] using hk)

theorem leads_literals {cs : List ConstraintId} (h : ∀ c ∈ cs, ∃ l, L.atoms.literal c = .ok l)
    {Q : List Literal → Learner × σ → Prop} {E : Failure → Learner × σ → Prop}
    (hQ : ∀ ls, (∀ l, l ∈ ls ↔ ∃ c ∈ cs, L.atoms.literal c = .ok l) → Q ls (L, s)) :
    Action.Leads (cs.mapM literal : Procedure Learner σ (List Literal)) (L, s) Q E := by
  induction cs generalizing Q with
  | nil => exact hQ [] (by simp)
  | cons c cs ih =>
    obtain ⟨l, hl⟩ := h c List.mem_cons_self
    rw [List.mapM_cons]
    simp only [Action.leads_bind, leads_literal, hl, Action.leads_pure]
    refine ⟨fun m e => ?_, by simp⟩
    cases e
    refine ih (fun d hd => h d (List.mem_cons_of_mem c hd)) fun ls hls => hQ _ fun m => ?_
    rw [List.mem_cons, hls, List.exists_mem_cons_iff, hl, Except.ok.injEq, eq_comm]

/-- Of a rejected query one of several constraints is learnt to hold. -/
theorem leads_addKappa (dom : Ranges) (hL : L.Wf issued s) (reduce : Bool) (q : Query)
    {kappa : IndexSet}
    (hk : kappa ⊆ L.undecided.constraints) (hne : kappa.toList ≠ [])
    {E : Failure → Learner × σ → Prop} :
    Action.Leads (kappa.toList.mapM literal : Procedure Learner σ (List Literal)) (L, s)
      (fun ls p => p = (L, s) ∧ ∀ L', L' = { L with theory :=
          let c := (Clause.ofList ls).withOrigin (some q)
          if reduce then (L.theory.addReduced c).2 else L.theory.adding c } →
        L.Continues issued dom (fun W => ∃ c ∈ kappa, W c) (L', s) ∧
          ∃ d ∈ L'.theory.clauses, ∀ l ∈ d.literals, l.constraint ∈ kappa) E := by
  have hentry : ∀ c ∈ kappa.toList, ∃ l, L.atoms.literal c = .ok l := fun c hc =>
    (hL.atoms c (hL.undecided c (hk c (mem_toList'.1 hc)))).1
  refine leads_literals hentry fun ls hls => ⟨rfl, ?_⟩
  rintro L' rfl
  have hmem : ∀ l ∈ ((Clause.ofList ls).withOrigin (some q)).literals,
      l.constraint ∈ kappa ∧ L.atoms.Lists l := fun l hl => by
    rw [Clause.literals_withOrigin, Clause.mem_ofList, hls] at hl
    obtain ⟨c, hc, hl⟩ := hl
    refine ⟨?_, hL.names.lists hl⟩
    rw [(hL.names.entry c l hl).2.1]
    exact mem_toList'.1 hc
  have hhas : ∀ c ∈ kappa, ∃ l ∈ ((Clause.ofList ls).withOrigin (some q)).literals,
      l.constraint = c := fun c hc => by
    obtain ⟨l, hl⟩ := hentry c (mem_toList'.2 hc)
    refine ⟨l, ?_, (hL.names.entry c l hl).2.1⟩
    rw [Clause.literals_withOrigin, Clause.mem_ofList, hls]
    exact ⟨c, mem_toList'.2 hc, hl⟩
  have hnonempty : ((Clause.ofList ls).withOrigin (some q)).literals ≠ [] := fun hnil => by
    obtain ⟨c, hc⟩ := List.exists_mem_of_ne_nil _ hne
    obtain ⟨l, hl, -⟩ := hhas c (mem_toList'.1 hc)
    rw [hnil] at hl
    cases hl
  obtain ⟨hadded, hfrom, hcover⟩ := added reduce hL.theory hnonempty
    (fun l hl => ⟨hL.undecided _ (hk _ (hmem l hl).1), (hmem l hl).2⟩)
    fun _ l hl => hk _ (hmem l hl).1
  refine ⟨⟨?_, ?_, fun W hW hsound => ?_⟩, ?_⟩
  · exact ⟨hL.built, hL.closed, hL.known, hL.names, hL.atoms, hL.registered, hL.undecided, hadded,
      hL.background, hL.kept⟩
  · exact ⟨rfl, rfl, rfl, rfl, rfl, fun _ => id, Subset.refl _, fun d hd => hcover d (.inl hd)⟩
  · refine ⟨fun d hd => ?_, hsound.undecided, hsound.apart, hsound.background⟩
    rcases hfrom d hd with rfl | hd
    · obtain ⟨c, hc, hWc⟩ := hW
      obtain ⟨l, hl, hlc⟩ := hhas c hc
      exact ⟨l, hl, hlc ▸ hWc⟩
    · exact hsound.theory d hd
  · obtain ⟨e, he, hsub⟩ := hcover _ (.inr rfl)
    exact ⟨e, he, fun l hl => (hmem l (hsub l hl)).1⟩

/-- Learning from an accepted query, once its kappa is known. -/
theorem leads_learnAccepted (dom : Ranges) (hL : L.Wf issued s) {q : Query} {kappa : IndexSet}
    (hk : ∀ c, c ∈ kappa ↔ L.Kappa q c) (hpos : q.isPositive = true)
    {E : Failure → Learner × σ → Prop} :
    Action.Leads (do ruleOut kappa; noteAsked q; return .consistent :
        Procedure Learner σ Learnt) (L, s)
      (fun r p => p.2 = s ∧ L.Continues issued dom (L.Agrees q) p ∧ L.Learns q r p.1) E := by
  have hneg : q.isPositive ≠ false := fun h => by rw [hpos] at h; cases h
  rw [Action.leads_bind]
  refine leads_ruleOut dom hL (fun c hc => ((hk c).1 hc).1) fun L' hL' hout => ?_
  rw [Action.leads_bind, leads_noteAsked, Action.leads_pure]
  refine ⟨rfl, (hL'.alike (alike_asked _ _)).mono fun W _ hW c hc => hW.1 hpos c ((hk c).1 hc),
    fun _ => ⟨rfl, fun c hc hv => ?_⟩, fun h => absurd h hneg, fun h => absurd h hneg⟩
  exact hout c hc ((hk c).2 ⟨hL'.evolves.undecided c hc, hv⟩)

/-- Learning from a rejected query with a single constraint in its kappa. -/
theorem leads_learnOnly (dom : Ranges) (hL : L.Wf issued s) (reduce : Bool) {q : Query}
    {c : ConstraintId} (hk : ∀ d, d = c ↔ L.Kappa q d) (hneg : q.isPositive = false)
    {E : Failure → Learner × σ → Prop} :
    Action.Leads (do confirm reduce q c; noteAsked q; return .consistent :
        Procedure Learner σ Learnt) (L, s)
      (fun r p => p.2 = s ∧ L.Continues issued dom (L.Agrees q) p ∧ L.Learns q r p.1) E := by
  have hkc := (hk c).1 rfl
  rw [Action.leads_bind]
  refine leads_confirm dom hL reduce q hkc.1 fun L' hL' hd => ?_
  rw [Action.leads_bind, leads_noteAsked, Action.leads_pure]
  refine ⟨rfl, (hL'.alike (alike_asked _ _)).mono fun W _ h => ?_, fun h => ?_,
      fun _ _ => ⟨rfl, ?_⟩,
    fun _ h => absurd ⟨c, hkc⟩ h⟩
  · by_contra hno
    have hpos : q.isPositive = true := h.2 fun d hd => (hk d).2 hd ▸ hno
    rw [hneg] at hpos
    cases hpos
  · rw [hneg] at h
    cases h
  · obtain ⟨d, hd, hl⟩ := hd
    exact ⟨d, hd, fun l h => hl l h ▸ hkc.2⟩

/-- Learning from a rejected query with several constraints in its kappa. -/
theorem leads_learnSome (dom : Ranges) (hL : L.Wf issued s) (reduce : Bool) {q : Query}
    {kappa : IndexSet} (hk : ∀ c, c ∈ kappa ↔ L.Kappa q c) (hne : kappa.toList ≠ [])
    (hneg : q.isPositive = false) {E : Failure → Learner × σ → Prop} :
    Action.Leads (do
        addClause reduce ((Clause.ofList (← kappa.toList.mapM literal)).withOrigin (some q))
        noteAsked q
        return .consistent : Procedure Learner σ Learnt) (L, s)
      (fun r p => p.2 = s ∧ L.Continues issued dom (L.Agrees q) p ∧ L.Learns q r p.1) E := by
  have hex : ∃ c, L.Kappa q c := by
    obtain ⟨c, hc⟩ := List.exists_mem_of_ne_nil _ hne
    exact ⟨c, (hk c).1 (mem_toList'.1 hc)⟩
  rw [Action.leads_bind]
  refine (leads_addKappa dom hL reduce q (fun c hc => ((hk c).1 hc).1) hne).mono
    (fun ls p ⟨hp, h⟩ => ?_) fun _ _ h => h
  subst hp
  rw [Action.leads_bind, leads_addClause, Action.leads_bind, leads_noteAsked, Action.leads_pure]
  obtain ⟨hL', d, hd, hl⟩ := h _ rfl
  refine ⟨rfl, (hL'.alike (alike_asked _ _)).mono fun W _ h => ?_,
    fun h => ?_, fun _ _ => ⟨rfl, d, hd, fun l h => ((hk _).1 (hl l h)).2⟩,
    fun _ h => absurd hex h⟩
  · by_contra hno
    push Not at hno
    have hpos : q.isPositive = true := h.2 fun c hc => hno c ((hk c).2 hc)
    rw [hneg] at hpos
    cases hpos
  · rw [hneg] at h
    cases h

/-- Learning only ever fails before anything is learnt, on a sum that leaves its word. -/
theorem leads_learn_or_overflow (hL : L.Wf issued s) (q : Query) (reduce : Bool) :
    Action.Leads (learn q reduce) (L, s)
      (fun r p => p.2 = s ∧ L.Continues issued dom (L.Agrees q) p ∧ L.Learns q r p.1)
      (fun f p => f = .fault .overflow ∧ p = (L, s)) := by
  rw [learn, Action.leads_bind, Procedure.leads_check]
  refine ⟨fun kappa hkappa => ?_, fun e he => ?_⟩
  · have hk : ∀ c, c ∈ kappa ↔ L.Kappa q c := fun c => Bias.mem_kappa hkappa
    cases hq : q.isPositive with
    | true =>
      have halike := L.alike_counters { L.counters with positive := L.counters.positive + 1 }
      rw [if_pos rfl, Action.leads_bind, leads_count]
      exact (leads_learnAccepted dom (halike.wf hL) hk hq).mono
        (fun r p ⟨hs, hc, hl⟩ => ⟨hs, halike.before hc, halike.learns hl⟩) fun _ _ h => h
    | false =>
      have halike := L.alike_counters { L.counters with negative := L.counters.negative + 1 }
      rw [if_neg Bool.false_ne_true, Action.leads_bind, leads_count]
      split
      · next hnil =>
        have hnone : ¬ ∃ c, L.Kappa q c := fun ⟨c, hc⟩ => by
          have := mem_toList'.2 ((hk c).2 hc)
          rw [hnil] at this
          cases this
        rw [Action.leads_bind, Procedure.leads_update, Action.leads_bind, leads_noteAsked,
          Action.leads_pure]
        refine ⟨rfl, Alike.continues ⟨rfl, rfl, rfl, rfl, rfl, fun _ => id, rfl, rfl, rfl⟩ hL,
          fun h => ?_, fun _ h => absurd h hnone, fun _ _ => rfl⟩
        rw [hq] at h
        cases h
      · next c hone =>
        have hmem : ∀ d, d = c ↔ L.Kappa q d := fun d => by
          rw [← hk, ← mem_toList', hone, List.mem_singleton]
        exact (leads_learnOnly dom (halike.wf hL) reduce hmem hq).mono
          (fun r p ⟨hs, hc, hl⟩ => ⟨hs, halike.before hc, halike.learns hl⟩) fun _ _ h => h
      · next hnil _ =>
        exact (leads_learnSome dom (halike.wf hL) reduce hk hnil hq).mono
          (fun r p ⟨hs, hc, hl⟩ => ⟨hs, halike.before hc, halike.learns hl⟩) fun _ _ h => h
  · have hover := Bias.kappa_error (fun c hc => (hL.closed c (hL.undecided c hc)).1) he
    exact ⟨hover ▸ rfl, rfl⟩

theorem leads_learn (hL : L.Wf issued s) (q : Query) (reduce : Bool) :
    Action.Leads (learn q reduce) (L, s)
      (fun r p => p.2 = s ∧ L.Continues issued dom (L.Agrees q) p ∧ L.Learns q r p.1)
      (L.Lapses issued dom Err) := by
  apply (leads_learn_or_overflow hL q reduce).mono fun _ _ h => h
  rintro f p ⟨hf, rfl⟩
  exact ⟨⟨hL, .refl L⟩, fun _ => .inr (.inr (.inl hf))⟩

/-- What an oracle may say of a query, and how it may fail on those that are to be asked. It
leaves the atoms that were handed out alone. -/
def OracleSays (oracle : Oracle σ) (issued : Issued σ) (asks : Query → Prop)
    (Says : Query → Answer → Prop) (Err : Failure → σ → Prop) : Prop :=
  ∀ q s, (oracle q).Leads s (fun a t => issued.Grows s t ∧ Says q a)
    (fun f t => issued.Grows s t ∧ (asks q → Err f t))

/-- A query to which an oracle has an answer. -/
def Answerable (asks : Query → Prop) (Says : Query → Answer → Prop) (q : Query) : Prop :=
  q.verdict = none ∧ asks q ∧ ¬ Says q .unknown

/-- A failure that is a lapse under a condition. -/
def Falters (issued : Issued σ) (dom : Ranges) (Err : Failure → σ → Prop) (L : Learner)
    (H : Prop) (f : Failure) (p : Learner × σ) : Prop :=
  L.Stops issued p ∧ (H → L.Lapses issued dom Err f p)

theorem Lapses.falters {f : Failure} {p : Learner × σ} (h : L.Lapses issued dom Err f p)
    (H : Prop) : L.Falters issued dom Err H f p := ⟨h.toStops, fun _ => h⟩

variable {asks : Query → Prop} {Says : Query → Answer → Prop} {oracle : Oracle σ}

theorem leads_classify (horacle : OracleSays oracle issued asks Says Err) (hL : L.Wf issued s)
    (q : Query) :
    Action.Leads (classify oracle q) (L, s)
      (fun q' p => L.Alike p.1 ∧ issued.Grows s p.2 ∧
        ∃ b, q' = { q with verdict := some b } ∧ Says q (Answer.ofBool b))
      (L.Falters issued dom Err (Answerable asks Says q)) := by
  have halike := fun k => L.alike_counters k
  have hstops : ∀ t, issued.Grows s t → ∀ k, L.Stops issued ({ L with counters := k }, t) :=
    fun t ht k => ⟨(halike k).wf (hL.grows ht), (halike k).evolves⟩
  have hverdict : ∀ b, Says q (Answer.ofBool b) → ∀ t, issued.Grows s t → ∀ k,
      Action.Leads (Action.ofForeseen (q.classify b) : Procedure Learner σ Query)
        ({ L with counters := k }, t)
        (fun q' p => L.Alike p.1 ∧ issued.Grows s p.2 ∧
          ∃ b, q' = { q with verdict := some b } ∧ Says q (Answer.ofBool b))
        (L.Falters issued dom Err (Answerable asks Says q)) := fun b hb t ht k => by
    rw [Action.leads_ofForeseen, Query.classify]
    refine ⟨fun q' h => ?_, fun e h => ⟨hstops t ht k, ?_⟩⟩
    · split at h
      · cases h
      · cases h
        exact ⟨halike k, ht, b, rfl, hb⟩
    · intro hq
      split at h
      · next hc =>
        rw [Query.isClassified, hq.1] at hc
        cases hc
      · cases h
  rw [classify, Action.leads_bind, leads_count, Action.leads_bind, Procedure.leads_call]
  refine (horacle q s).mono (fun a t ⟨ht, ha⟩ => ?_) fun f t ⟨ht, hf⟩ => ?_
  · cases a with
    | accept => exact hverdict true ha t ht _
    | reject => exact hverdict false ha t ht _
    | unknown => exact ⟨hstops t ht _, fun h => absurd ha h.2.2⟩
  · exact ⟨hstops t ht _, fun h => ⟨hstops t ht _, fun _ => .inr (.inr (.inr (hf h.2.1)))⟩⟩

theorem leads_ask (dom : Ranges) (horacle : OracleSays oracle issued asks Says Err)
    (hL : L.Wf issued s) (q : Query) :
    Action.Leads (ask oracle q) (L, s)
      (fun r p => ∃ b, Says q (Answer.ofBool b) ∧
        L.Continues issued dom (L.Agrees { q with verdict := some b }) p ∧
        L.Learns { q with verdict := some b } r p.1)
      (L.Falters issued dom Err (Answerable asks Says q)) := by
  rw [ask, Action.leads_bind]
  refine (leads_classify horacle hL q).mono (fun q' p ⟨halike, hg, b, hq, hb⟩ => ?_)
    fun _ _ h => h
  obtain ⟨L', t⟩ := p
  subst hq
  refine (leads_learn (halike.wf (hL.grows hg)) _ false).mono (fun r p ⟨_, hc, hl⟩ => ?_)
    fun f p hf => (halike.lapses hf).falters _
  exact ⟨b, hb, (halike.before hc).mono fun W _ => halike.agrees.2, halike.learns hl⟩

end Learner

end Acquisition
