import Acquisition.Proofs.Implications
import Acquisition.Proofs.Rules
import Acquisition.Proofs.Trials
import Acquisition.Proofs.Upkeep

/-!
# The first constraint learnt

A learner notes when the first constraint is learnt to hold. Whoever learns from an answer notes
it: where the kappa has one constraint only, and where a propagation leaves one literal of a
clause. Generation may learn constraints, too, and it notes neither those that it finds implied
nor those that it commits.

So a constraint that stands in the theory was noted, unless it was implied and comes from no
query, or was committed along with another one that the same query violates. What is shown
of a procedure is that the literals that stand unnoted are among some that are told before it
starts.
-/
namespace Acquisition

open Checked IndexSet ClauseStore Procedure

/-- The query that a clause comes from was rejected, and violates each of its constraints. -/
def Clause.Warranted (A : Arena) (d : Clause) : Prop :=
  ∀ q, d.origin = some q → q.isPositive = false ∧ ∀ l ∈ d.literals, q.Violates A l.constraint

theorem Clause.Warranted.mono {A : Arena} {c d : Clause} (h : c.Warranted A)
    (horigin : d.origin = c.origin) (hsub : ∀ l ∈ d.literals, l ∈ c.literals) : d.Warranted A := by
  intro q hq
  obtain ⟨hneg, hviolates⟩ := h q (horigin ▸ hq)
  exact ⟨hneg, fun l hl => hviolates l (hsub l hl)⟩

theorem Clause.warranted_of_no_origin {A : Arena} {d : Clause} (h : d.origin = none) :
    d.Warranted A := by
  intro q hq
  rw [h] at hq
  cases hq

variable {A : Arena} {before noted noted' : Bool} {may may' : Literal → Option Query → Prop}

/-! ### Stores -/

namespace ClauseStore

/-- A clause that may come to a store: if nothing was noted before and it is a positive literal
alone, then that is one of those that may stand, with its origin. -/
structure Admitted (A : Arena) (before : Bool) (may : Literal → Option Query → Prop)
    (d : Clause) : Prop where
  warranted : d.Warranted A
  allowed : before = false → ∀ l, d.literals = [l] → l.negated = false → may l d.origin

/-- Each clause is warranted by its origin. As long as nothing is noted, nothing was before, and
each positive literal that stands alone may do so. -/
structure Traced (A : Arena) (before : Bool) (may : Literal → Option Query → Prop) (noted : Bool)
    (S : ClauseStore) : Prop where
  valid : S.Valid
  warranted : ∀ d ∈ S.clauses, d.Warranted A
  unnoted : noted = false → before = false ∧
    ∀ d ∈ S.clauses, ∀ l, d.literals = [l] → l.negated = false → may l d.origin

section

variable {S T : ClauseStore} {c d : Clause} {l : Literal} {w : Wave}

theorem Traced.change (h : Traced A before may noted S) (hT : T.Valid)
    (hnoted : noted' = false → noted = false)
    (hfrom : ∀ d ∈ T.clauses, d ∈ S.clauses ∨ d.Warranted A ∧
      (noted' = false → ∀ l, d.literals = [l] → l.negated = false → may l d.origin)) :
    Traced A before may noted' T where
  valid := hT
  warranted d hd := (hfrom d hd).elim (h.warranted d) And.left
  unnoted hno := by
    obtain ⟨hbefore, hmay⟩ := h.unnoted (hnoted hno)
    exact ⟨hbefore, fun d hd => (hfrom d hd).elim (hmay d) fun hd => hd.2 hno⟩

theorem Traced.noting (h : Traced A before may noted S) (hnoted : noted' = false → noted = false) :
    Traced A before may noted' S := h.change h.valid hnoted fun _ hd => .inl hd

theorem Traced.erase (h : Traced A before may noted S) (k : ClauseKey) :
    Traced A before may noted (S.erase k) :=
  h.change (h.valid.erase k) id fun _ hd => .inl (mem_of_mem_erase hd)

/-- Marks have no bearing on where a clause comes from. -/
theorem Traced.relabel (h : Traced A before may noted S) (hT : T.Valid)
    (hsame : ∀ d ∈ T.clauses, ∃ c ∈ S.clauses, d.literals = c.literals ∧ d.origin = c.origin) :
    Traced A before may noted T := by
  apply h.change hT id
  intro d hd
  obtain ⟨c, hc, hliterals, horigin⟩ := hsame d hd
  refine .inr ⟨(h.warranted c hc).mono horigin fun l hl => hliterals ▸ hl, fun hno l hl hpos => ?_⟩
  rw [horigin]
  exact (h.unnoted hno).2 c hc l (hliterals ▸ hl) hpos

theorem Traced.mark (h : Traced A before may noted S) (k : ClauseKey) :
    Traced A before may noted (S.mark k) := by
  apply h.relabel (h.valid.mark k)
  intro d hd
  obtain ⟨k', hk'⟩ := mem_clauses.1 hd
  rw [ClauseStore.mark, get?_modify] at hk'
  split at hk'
  · obtain ⟨c, hc, rfl⟩ := Option.map_eq_some_iff.1 hk'
    exact ⟨c, get?_mem hc, rfl, rfl⟩
  · exact ⟨d, get?_mem hk', rfl, rfl⟩

theorem Traced.unmarkAll (h : Traced A before may noted S) :
    Traced A before may noted S.unmarkAll := by
  apply h.relabel h.valid.unmarkAll
  intro d hd
  obtain ⟨k, hk⟩ := mem_clauses.1 hd
  rw [get?_unmarkAll] at hk
  obtain ⟨c, hc, rfl⟩ := Option.map_eq_some_iff.1 hk
  exact ⟨c, get?_mem hc, rfl, rfl⟩

theorem Traced.select (h : Traced A before may noted S) {B : Arena} {how : Selection}
    {k? : Option ClauseKey} (hT : S.select B how = .ok (k?, T)) : Traced A before may noted T := by
  rw [ClauseStore.select, bind_eq_ok] at hT
  obtain ⟨k, -, hT⟩ := hT
  cases k with
  | some k =>
    cases hT
    exact h
  | none =>
    dsimp only at hT
    split at hT
    · obtain ⟨k, -, hT⟩ := bind_eq_ok.1 hT
      cases hT
      exact h.unmarkAll
    · cases hT
      exact h

theorem Traced.added (h : Traced A before may noted S) (reduce : Bool) (hc : Admitted A before may c) :
    Traced A before may noted (if reduce then (S.addReduced c).2 else S.adding c) := by
  have hvalid : (if reduce then (S.addReduced c).2 else S.adding c).Valid := by
    split
    · exact h.valid.addReduced c
    · exact h.valid.adding c
  apply h.change hvalid id
  intro d hd
  have hd' : d = c ∨ d ∈ S.clauses := by
    split at hd
    · exact mem_of_mem_addReduced h.valid hd
    · exact mem_of_mem_adding h.valid hd
  rcases hd' with rfl | hd'
  · exact .inr ⟨hc.warranted, fun hno => hc.allowed (h.unnoted hno).1⟩
  · exact .inl hd'

/-! ### Propagation -/

/-- If no positive literal was noted then a clause that was shortened has not become one. -/
theorem learnedPositive_noteShortened
    (h : (w.noteShortened d).report.learnedPositive = false) :
    w.report.learnedPositive = false ∧ ∀ l, d.literals = [l] → l.negated = true := by
  unfold Wave.noteShortened at h
  split at h
  · next m hm =>
    simp only [Bool.or_eq_false_iff, Bool.not_eq_false'] at h
    refine ⟨h.1, fun l hl => ?_⟩
    rw [hm, List.singleton_inj] at hl
    exact hl ▸ h.2
  · next hmany => exact ⟨h, fun l hl => absurd hl (hmany l)⟩

/-- What is noted in the course of a propagation, after what was noted when it began. -/
def Wave.Traced (A : Arena) (before : Bool) (may : Literal → Option Query → Prop) (noted : Bool)
    (w : Wave) : Prop :=
  ClauseStore.Traced A before may (noted || w.report.learnedPositive) w.store

theorem Wave.Traced.visit (h : w.Traced A before may noted) (l : Literal) (k : ClauseKey) :
    (Wave.visit l w k).Traced A before may noted := by
  have hnoting : ∀ d, (noted || (w.noteShortened d).report.learnedPositive) = false →
      (noted || w.report.learnedPositive) = false := by
    intro d hno
    rw [Bool.or_eq_false_iff] at hno ⊢
    exact ⟨hno.1, (learnedPositive_noteShortened hno.2).1⟩
  cases hc : w.store.get? k with
  | none =>
    rw [visit_of_none l w k hc]
    exact h
  | some c =>
    cases visit_cases l w k hc with
    | satisfied hl hw =>
      rw [hw]
      exact ClauseStore.Traced.erase h k
    | untouched hl hfree hw =>
      rw [hw]
      exact h
    | doubled d hl hd hother hw =>
      rw [hw]
      exact (ClauseStore.Traced.erase h k).noting (hnoting d)
    | shortened d hl hd hother hw =>
      rw [hw]
      apply ClauseStore.Traced.change h (h.valid.modify k _) (hnoting d)
      intro e he
      rcases mem_of_mem_modify he with rfl | he
      · have hwarranted := (h.warranted c (get?_mem hc)).mono hd.origin fun _ hm =>
          hd.sublist.subset hm
        refine .inr ⟨hwarranted, fun hno m hm hpos => ?_⟩
        rw [(learnedPositive_noteShortened (Bool.or_eq_false_iff.1 hno).2).2 m hm] at hpos
        cases hpos
      · exact .inl he

theorem Wave.Traced.run (h : w.Traced A before may noted) (fuel : Nat) :
    (Wave.run fuel w).Traced A before may noted := by
  induction fuel generalizing w with
  | zero => exact h
  | succ fuel ih =>
    rw [Wave.run]
    split
    · exact h
    · next l rest hq =>
      apply ih
      exact pass_induction (P := fun w => w.Traced A before may noted) l
        (w := { w with queue := rest }) h fun _ k h _ => h.visit l k

/-- A positive literal that a propagation leaves alone in its clause is noted. -/
theorem Traced.propagate (h : Traced A before may noted S) {report : Report}
    (hT : S.propagate l = .ok (report, T)) :
    Traced A before may (noted || report.learnedPositive) T := by
  rw [ClauseStore.propagate, bind_eq_ok] at hT
  obtain ⟨b, -, hT⟩ := hT
  have hstart : ∀ report : Report, report.learnedPositive = false →
      Traced A before may (noted || report.learnedPositive) S := by
    intro report hnone
    rw [hnone, Bool.or_false]
    exact h
  cases b with
  | true =>
    cases hT
    exact hstart {} rfl
  | false =>
    cases hT
    have hwave : Wave.Traced A before may noted { store := S, queue := [l] } := hstart {} rfl
    exact hwave.run (S.size + 1)

end

end ClauseStore

/-! ### Learning from an answer -/

namespace Learner

variable {σ : Type} {issued : Issued σ} {dom : Ranges} {Err : Failure → σ → Prop} {L L' : Learner}
  {p p' : Learner × σ}

/-- The theory of a learner over some arena is traced. -/
structure Attentive (A : Arena) (before : Bool) (may : Literal → Option Query → Prop)
    (L : Learner) : Prop where
  arena : L.arena = A
  titled : ∀ c l, L.atoms.literal c = .ok l → l.constraint = c
  traced : Traced A before may L.counters.firstLearned L.theory

/-- Whatever comes of it, the procedure keeps the theory traced. -/
abbrev Traces (A : Arena) (before : Bool) (may : Literal → Option Query → Prop) {α : Type}
    (x : Procedure Learner σ α) : Prop := Keeps (Rests (Attentive A before may)) x

theorem Attentive.mono (h : Attentive A before may L)
    (hmay : L.counters.firstLearned = false → before = false → ∀ d ∈ L.theory.clauses, ∀ l,
      d.literals = [l] → l.negated = false → may l d.origin → may' l d.origin) :
    Attentive A false may' L where
  arena := h.arena
  titled := h.titled
  traced := by
    refine ⟨h.traced.valid, h.traced.warranted, fun hno => ⟨rfl, fun d hd l hl hpos => ?_⟩⟩
    obtain ⟨hbefore, hall⟩ := h.traced.unnoted hno
    exact hmay hno hbefore d hd l hl hpos (hall d hd l hl hpos)

/-- What was noted so far counts as noted before what comes next. -/
theorem Attentive.since (h : Attentive A false may L) (hmay : ∀ l o, may l o → may' l o) :
    Attentive A L.counters.firstLearned may' L where
  arena := h.arena
  titled := h.titled
  traced := by
    refine ⟨h.traced.valid, h.traced.warranted, fun hno => ⟨hno, fun d hd l hl hpos => ?_⟩⟩
    exact hmay l d.origin ((h.traced.unnoted hno).2 d hd l hl hpos)

theorem Attentive.of_noted (h : Attentive A true may' L) : Attentive A before may L where
  arena := h.arena
  titled := h.titled
  traced := ⟨h.traced.valid, h.traced.warranted, fun hno => nomatch (h.traced.unnoted hno).1⟩

theorem traces_theory {f : ClauseStore → ClauseStore}
    (hf : ∀ noted S, Traced A before may noted S → Traced A before may noted (f S)) :
    Traces A before may
      (update fun L => { L with theory := f L.theory } : Procedure Learner σ Unit) :=
  rests_update fun _ h => ⟨h.arena, h.titled, hf _ _ h.traced⟩

theorem traces_count (f : Counters → Counters)
    (hf : ∀ k, (f k).firstLearned = k.firstLearned := by exact fun _ => rfl) :
    Traces A before may (count f : Procedure Learner σ Unit) :=
  rests_update fun L h => ⟨h.arena, h.titled, (hf L.counters).symm ▸ h.traced⟩

theorem traces_propagate (l : Literal) :
    Traces A before may (propagate l : Procedure Learner σ Unit) := by
  intro p hp
  rw [propagate, Action.leads_bind, leads_check]
  refine ⟨fun r hr => ?_, fun _ _ => hp⟩
  obtain ⟨report, S⟩ := r
  have htraced := hp.traced.propagate hr
  rw [Action.leads_bind, leads_update]
  split
  · next hpositive =>
    rw [hpositive, Bool.or_true] at htraced
    exact ⟨hp.arena, hp.titled, htraced⟩
  · next hnone =>
    rw [Bool.not_eq_true] at hnone
    rw [hnone, Bool.or_false] at htraced
    exact ⟨hp.arena, hp.titled, htraced⟩

theorem traces_addClause (reduce : Bool) {c : Clause} (hc : Admitted A before may c) :
    Traces A before may (addClause reduce c : Procedure Learner σ Unit) :=
  traces_theory fun _ _ h => h.added reduce hc

theorem traces_noteAsked (q : Query) {α : Type} (a : α) :
    Traces A before may (do noteAsked q; return a : Procedure Learner σ α) :=
  Keeps.bind (rests_update fun _ h => ⟨h.arena, h.titled, h.traced⟩) fun _ => keeps_pure _

theorem traces_ruleOut (kappa : IndexSet) :
    Traces A before may (ruleOut kappa : Procedure Learner σ Unit) := by
  rw [ruleOut]
  apply Keeps.bind
  · apply keeps_forM
    intro c
    exact (keeps_literal c).bind fun _ => traces_propagate _
  · exact fun _ => rests_update fun _ h => ⟨h.arena, h.titled, h.traced⟩

theorem traces_confirm (reduce : Bool) {q : Query} (hneg : q.isPositive = false)
    {c : ConstraintId} (hc : q.Violates A c) :
    Traces A before may (confirm reduce q c : Procedure Learner σ Unit) := by
  intro p hp
  rw [confirm, Action.leads_bind, leads_noteFirstLearned, Action.leads_bind, leads_literal]
  -- From here on something was noted, and so any literal may stand alone.
  have hnoted : Attentive A true (fun _ _ => False)
      { p.1 with counters := { p.1.counters with firstLearned := true } } :=
    ⟨hp.arena, hp.titled, hp.traced.valid, hp.traced.warranted,
      fun h => absurd h.symm Bool.false_ne_true⟩
  refine ⟨fun l hl => ?_, fun _ _ => hnoted.of_noted⟩
  have hadmitted : Admitted A true (fun _ _ => False) ((Clause.ofLiteral l).withOrigin (some q)) := by
    refine ⟨fun q' hq' => ?_, fun h => absurd h.symm Bool.false_ne_true⟩
    cases hq'
    refine ⟨hneg, fun m hm => ?_⟩
    rw [List.mem_singleton.1 hm, hp.titled c l hl]
    exact hc
  have hrest : Traces A true (fun _ _ => False) (do
      propagate l
      addClause reduce ((Clause.ofLiteral l).withOrigin (some q))
      let n ← negation c
      update fun L => { L with undecided := L.undecided.reduce n }
      propagate (← literal n).negate : Procedure Learner σ Unit) := by
    apply (traces_propagate l).bind
    intro _
    apply (traces_addClause reduce hadmitted).bind
    intro _
    apply (keeps_negation c).bind
    intro n
    apply Keeps.bind (rests_update fun _ h => ⟨h.arena, h.titled, h.traced⟩)
    intro _
    exact (keeps_literal n).bind fun _ => traces_propagate _
  exact (hrest (_, p.2) hnoted).mono (fun _ _ h => h.of_noted) fun _ _ h => h.of_noted

/-- The literals of some constraints are those of the table. -/
theorem leads_literals_titled (htitled : ∀ c l, p.1.atoms.literal c = .ok l → l.constraint = c)
    (cs : List ConstraintId) :
    Action.Leads (cs.mapM literal : Procedure Learner σ (List Literal)) p
      (fun ls p' => p' = p ∧ ls.map (·.constraint) = cs) fun _ p' => p' = p := by
  induction cs with
  | nil => exact ⟨rfl, rfl⟩
  | cons c cs ih =>
    rw [List.mapM_cons, Action.leads_bind, leads_literal]
    refine ⟨fun l hl => ?_, fun _ _ => rfl⟩
    rw [Action.leads_bind]
    apply ih.mono _ fun _ _ h => h
    rintro ls p' ⟨rfl, hls⟩
    exact ⟨rfl, by rw [List.map_cons, htitled c l hl, hls]⟩

/-- A clause of several constraints is not a literal that stands alone. -/
theorem admitted_ofList {q : Query} (hneg : q.isPositive = false) {ls : List Literal}
    (hnodup : (ls.map (·.constraint)).Nodup) (hmany : 1 < ls.length)
    (hviolates : ∀ l ∈ ls, q.Violates A l.constraint) :
    Admitted A before may ((Clause.ofList ls).withOrigin (some q)) where
  warranted q' hq' := by
    cases hq'
    exact ⟨hneg, fun l hl => hviolates l (Clause.mem_ofList.1 hl)⟩
  allowed := by
    intro _ l hl
    have hall : ∀ m ∈ ls, m = l := fun m hm =>
      List.mem_singleton.1 (hl ▸ Clause.mem_ofList.2 hm)
    match ls with
    | [] => cases hmany
    | [_] => exact absurd hmany (Nat.lt_irrefl 1)
    | a :: b :: _ =>
      rw [hall a (by simp), hall b (by simp)] at hnodup
      simp at hnodup

theorem traces_addKappa (reduce : Bool) {q : Query} (hneg : q.isPositive = false)
    {cs : List ConstraintId} (hnodup : cs.Nodup) (hmany : 1 < cs.length)
    (hviolates : ∀ c ∈ cs, q.Violates A c) :
    Traces A before may (do
      addClause reduce ((Clause.ofList (← cs.mapM literal)).withOrigin (some q))
      noteAsked q
      return .consistent : Procedure Learner σ Learnt) := by
  intro p hp
  rw [Action.leads_bind]
  apply (leads_literals_titled hp.titled cs).mono
  · rintro ls p' ⟨rfl, hls⟩
    have hadmitted : Admitted A before may ((Clause.ofList ls).withOrigin (some q)) := by
      subst hls
      rw [List.length_map] at hmany
      exact admitted_ofList hneg hnodup hmany fun l hl => hviolates _ (List.mem_map_of_mem hl)
    exact ((traces_addClause reduce hadmitted).bind fun _ => traces_noteAsked q _) p' hp
  · rintro _ _ rfl
    exact hp

/-- What an answer brings to the theory is noted. -/
theorem traces_learn (q : Query) (reduce : Bool) :
    Traces A before may (learn q reduce : Procedure Learner σ Learnt) := by
  intro p hp
  rw [learn, Action.leads_bind, leads_check]
  refine ⟨fun kappa hkappa => ?_, fun _ _ => hp⟩
  have hviolates : ∀ c ∈ kappa.toList, q.Violates A c := by
    intro c hc
    rw [← hp.arena]
    exact ((Bias.mem_kappa hkappa).1 (mem_toList'.1 hc)).2
  refine (?_ : Traces A before may _) p hp
  split
  · apply (traces_count _).bind
    intro _
    exact (traces_ruleOut kappa).bind fun _ => traces_noteAsked q _
  · next hnot =>
    have hneg : q.isPositive = false := Bool.eq_false_iff.2 hnot
    apply (traces_count _).bind
    intro _
    split
    · apply Keeps.bind (rests_update fun _ h => ⟨h.arena, h.titled, h.traced⟩)
      exact fun _ => traces_noteAsked q _
    · next c hone =>
      have hc : q.Violates A c := hviolates c (by simp [hone])
      exact (traces_confirm reduce hneg hc).bind fun _ => traces_noteAsked q _
    · next hnil hone =>
      apply traces_addKappa reduce hneg (nodup_toList kappa) _ hviolates
      rcases hcs : kappa.toList with _ | ⟨c, _ | ⟨d, cs⟩⟩
      · exact absurd hcs hnil
      · exact absurd hcs (hone c)
      · exact Nat.succ_lt_succ (Nat.succ_pos _)

theorem traces_learnEarly (q : Query) :
    Traces A before may (learnEarly q : Procedure Learner σ Learnt) := by
  rw [learnEarly]
  split
  · apply (keeps_check _).bind
    intro b
    split
    · exact traces_noteAsked q _
    · exact traces_learn q true
  · exact traces_learn q true

/-! ### Generation -/

theorem traces_witness (cp : CpBackend σ) (N : Network) :
    Traces A before may (witness cp N : Procedure Learner σ (Option Query)) := by
  rw [witness]
  exact (traces_count _).bind fun _ => rests_callWith _

/-- A constraint that is found implied comes from no query. -/
theorem traces_probeQuery (B : Backends σ) (hmay : ∀ l, may l none) :
    Traces A before may (probeQuery B : Procedure Learner σ (Option Query)) := by
  apply keeps_probeQuery (traces_witness B.cp)
  intro l
  refine traces_theory fun _ _ h => h.added false ⟨Clause.warranted_of_no_origin rfl, ?_⟩
  exact fun _ m _ _ => hmay m

theorem traces_choosePivot :
    Traces A before may (choosePivot : Procedure Learner σ Unit) := by
  intro p hp
  rw [choosePivot, Action.leads_bind, leads_own]
  split
  · exact hp
  · rw [Action.leads_bind, leads_check]
    exact ⟨fun _ hr => ⟨hp.arena, hp.titled, hp.traced.select hr⟩, fun _ _ => hp⟩

theorem traces_commitEach {origin : Option Query} {ls : List Literal}
    (hls : ∀ l ∈ ls, Admitted A before may ((Clause.ofLiteral l).withOrigin origin)) :
    Traces A before may (commitEach origin ls : Procedure Learner σ Unit) := by
  induction ls with
  | nil => exact keeps_pure _
  | cons l ls ih =>
    rw [List.forall_mem_cons] at hls
    have rest : Traces A before may (do
        update fun L =>
          { L with theory := L.theory.adding ((Clause.ofLiteral l).withOrigin origin) }
        propagate l
        let n ← negation l.constraint
        update fun L => { L with undecided := L.undecided.reduce n }
        commitEach origin ls : Procedure Learner σ Unit) := by
      apply (traces_theory fun _ _ h => h.added false hls.1).bind
      intro _
      apply (traces_propagate l).bind
      intro _
      apply (keeps_negation _).bind
      intro n
      apply Keeps.bind (rests_update fun _ h => ⟨h.arena, h.titled, h.traced⟩)
      exact fun _ => ih hls.2
    rw [commitEach]
    split
    · exact (keeps_throw _).bind fun _ => rest
    · exact rest

/-- The constraints of a clause that is committed may be left to stand unnoted. -/
theorem traces_commit (k : ClauseKey) {c : Clause} (hc : c.Warranted A)
    (hmay : ∀ l ∈ c.literals, may l c.origin) :
    Traces A before may (commit k c : Procedure Learner σ Unit) := by
  rw [commit]
  apply (traces_theory fun _ _ h => h.erase k).bind
  intro _
  apply traces_commitEach
  intro l hl
  have hsub : ∀ m ∈ ((Clause.ofLiteral l).withOrigin c.origin).literals, m ∈ c.literals :=
    fun m hm => List.mem_singleton.1 hm ▸ hl
  refine ⟨hc.mono rfl hsub, fun _ m hm _ => hmay m (hsub m ?_)⟩
  exact hm ▸ List.mem_singleton_self m

theorem traces_addConflict (cp : CpBackend σ) (N : Network) :
    Traces A before may (addConflict cp N : Procedure Learner σ Unit) :=
  keeps_addConflict (keeps_addBackground fun _ => rests_update fun _ h =>
    ⟨h.arena, h.titled, h.traced⟩) (traces_count _) (traces_count _) N

theorem traces_extract (sat : SatBackend σ) :
    Traces A before may (extract sat : Procedure Learner σ Outcome) :=
  keeps_extract (traces_count _) fun _ _ _ h => ⟨h.arena, h.titled, h.traced⟩

/-! ### What stands unnoted -/

/-- The query that a literal comes from, if there is one, violates another constraint, too, which
is decided. -/
def Accompanied (L : Learner) (l : Literal) (origin : Option Query) : Prop :=
  ∀ q, origin = some q → ∃ c, c ≠ l.constraint ∧ q.Violates L.arena c ∧ L.Decided c

theorem Evolves.accompanied (h : L.Evolves L') {l : Literal} {origin : Option Query}
    (hl : L.Accompanied l origin) : L'.Accompanied l origin := by
  intro q hq
  obtain ⟨c, hne, hviolates, hdecided⟩ := hl q hq
  exact ⟨c, hne, h.arena ▸ hviolates, h.decided hdecided⟩

/-- A learner is well formed, and each literal that stands unnoted is accompanied. -/
structure Minds (issued : Issued σ) (p : Learner × σ) : Prop where
  wf : p.1.Wf issued p.2
  attentive : Attentive p.1.arena false p.1.Accompanied p.1

theorem Stops.minds (h : p.1.Stops issued p')
    (h' : Attentive p.1.arena false p.1.Accompanied p'.1) : Minds issued p' where
  wf := h.wf
  attentive := by
    rw [h.evolves.arena]
    exact h'.mono fun _ _ _ _ _ _ _ hl => h.evolves.accompanied hl

/-- What goes on from a learner and keeps its theory traced leaves no literal unnoted that is not accompanied. -/
theorem Minds.leads (hp : Minds issued p) {α : Type} {x : Procedure Learner σ α}
    (hx : Traces p.1.arena false p.1.Accompanied x)
    (hstops : Action.Leads x p (fun _ => p.1.Stops issued) fun _ => p.1.Stops issued) :
    Action.Leads x p (fun _ => Minds issued) fun _ => Minds issued :=
  (hstops.and (hx p hp.attentive)).mono (fun _ _ h => h.1.minds h.2) fun _ _ h => h.1.minds h.2

theorem steady_minds (issued : Issued σ) : Steady issued (Minds issued) := by
  intro L L' s t hp halike _ hfindings hgrows
  have hnoted : L'.counters.firstLearned = L.counters.firstLearned := (Prod.mk.inj hfindings).2
  apply Stops.minds (p := (L, s)) ⟨halike.wf (hp.wf.grows hgrows), halike.evolves⟩
  refine ⟨halike.arena, ?_, ?_⟩
  · rw [halike.atoms]
    exact hp.attentive.titled
  · rw [halike.theory, hnoted]
    exact hp.attentive.traced

section

variable {s : σ} {k : ClauseKey} {c : Clause} {l : Literal}

/-- A clause about one constraint alone is the positive literal of the constraint. -/
theorem Wf.asserts (hL : L.Wf issued s) {d : ConstraintId} (hd : L.Decided d) : L.Asserts d := by
  obtain ⟨c, hc, hall⟩ := hd
  have hshort : isLong c = false := by
    rw [Bool.eq_false_iff]
    intro hlong
    obtain ⟨m, hm, hne⟩ := exists_ne_of_isLong hlong (hL.theory.separate c hc) d
    exact hne (hall m hm)
  obtain ⟨l, hl⟩ := exists_literal_of_not_isLong (hL.theory.nonEmpty c hc) hshort
  have hmem : l ∈ c.literals := by simp [hl]
  exact ⟨c, hc, l, hl, hL.names.positive (hL.theory.listed c hc l hmem).2, hall l hmem⟩

/-- Once all constraints of a clause are decided, each of them is accompanied if nothing was noted. -/
theorem Minds.accompanied (hp : Minds issued (L, s)) (hc : c ∈ L.theory.clauses)
    (hno : L.counters.firstLearned = false) (hevolves : L.Evolves L')
    (hdecided : ∀ m ∈ c.literals, L'.Decided m.constraint) (hl : l ∈ c.literals)
    (hpos : l.negated = false) : L'.Accompanied l c.origin := by
  cases hlong : isLong c with
  | true =>
    intro q hq
    obtain ⟨m, hm, hne⟩ := exists_ne_of_isLong hlong (hp.wf.theory.separate c hc) l.constraint
    obtain ⟨-, hviolates⟩ := hp.attentive.traced.warranted c hc q hq
    exact ⟨m.constraint, hne, hevolves.arena ▸ hviolates m hm, hdecided m hm⟩
  | false =>
    -- The literal stood alone before.
    obtain ⟨m, hm⟩ := exists_literal_of_not_isLong (hp.wf.theory.nonEmpty c hc) hlong
    rw [hm, List.mem_singleton] at hl
    subst hl
    exact hevolves.accompanied ((hp.attentive.traced.unnoted hno).2 c hc l hm hpos)

theorem Minds.commit (hp : Minds issued (L, s)) (hk : L.theory.get? k = some c)
    {E : Failure → Learner × σ → Prop} :
    Action.Leads (commit k c) (L, s) (fun _ => Minds issued) E := by
  have hc : c ∈ L.theory.clauses := get?_mem hk
  have hstart : Attentive L.arena L.counters.firstLearned
      (fun l o => L.Accompanied l o ∨ l ∈ c.literals ∧ o = c.origin) L :=
    hp.attentive.since fun _ _ h => .inl h
  have htraces := traces_commit k (hp.attentive.traced.warranted c hc)
    (fun l hl => .inr ⟨hl, rfl⟩) (L, s) hstart
  have hcommit := leads_commit (fun _ _ => True) hp.wf hk (E := fun _ _ => False)
  apply (hcommit.and htraces).mono
  · rintro _ p' ⟨⟨hcontinues, hdecided⟩, hattentive⟩
    refine ⟨hcontinues.wf, ?_⟩
    rw [hcontinues.evolves.arena]
    apply Attentive.mono hattentive
    rintro - hno d - l - hpos (hl | ⟨hl, horigin⟩)
    · exact hcontinues.evolves.accompanied hl
    · rw [horigin]
      exact hp.accompanied hc hno hcontinues.evolves hdecided hl hpos
  · exact fun _ _ h => h.1.elim

theorem Minds.widen (hp : Minds issued (L, s)) (hk : L.theory.get? k = some c) (close : Bool)
    {E : Failure → Learner × σ → Prop} :
    Action.Leads (widen (some (k, c)) close) (L, s) (fun _ => Minds issued) E := by
  cases close with
  | true =>
    rw [Learner.widen, leads_update]
    exact steady_minds issued L _ s s hp ⟨rfl, rfl, rfl, rfl, rfl, fun _ => id, rfl, rfl, rfl⟩ rfl
      rfl (.refl issued s)
  | false =>
    rw [Learner.widen, Action.leads_bind]
    apply (hp.commit hk).mono _ fun _ _ h => h
    rintro _ ⟨L', t⟩ hp'
    rw [leads_update]
    exact steady_minds issued L' _ t t hp' ⟨rfl, rfl, rfl, rfl, rfl, fun _ => id, rfl, rfl, rfl⟩ rfl
      rfl (.refl issued t)

/-- An attempt at a split keeps the theory traced, unless it commits the pivot. -/
theorem Minds.searches {B : Backends σ} (hB : B.Lawful issued dom Err) (hp : Minds issued (L, s))
    (hlong : ∃ c ∈ L.theory.clauses, isLong c = true) :
    Action.Leads (attemptSplit B) (L, s)
      (fun _ p' => Attentive L.arena false L.Accompanied p'.1 ∨ Minds issued p')
      fun _ p' => Attentive L.arena false L.Accompanied p'.1 ∨ Minds issued p' := by
  rw [attemptSplit, Action.leads_bind, leads_poll]
  refine ⟨fun _ => ?_, fun _ => .inl hp.attentive⟩
  rw [Action.leads_bind]
  apply ((leads_choosePivot_or_overflow hp.wf hlong).and
    (traces_choosePivot (L, s) hp.attentive)).mono _ fun _ _ h => .inl h.2
  rintro - ⟨L₁, t⟩ ⟨⟨rfl, k, c, hchooses⟩, hattentive⟩
  have hchosen : Minds issued (L₁, t) := (hchooses.stays hp.wf).toStops.minds hattentive
  obtain ⟨hpivot, hk⟩ := hchooses.pivot
  rw [Action.leads_bind, leads_own]
  dsimp only
  rw [hpivot, Option.bind_some, hk, Option.map_some, Option.map_some, Option.any_some,
    Action.leads_bind, formula]
  apply (leads_splitFormula hchosen.wf fun l hl => hchosen.wf.voices (get?_mem hk) hl).mono
  · rintro F p' ⟨rfl, hF⟩
    have hcounted := traces_count (fun k => { k with satCalls := k.satCalls + 1 })
      (by exact fun _ => rfl) (L₁, t) hattentive
    rw [leads_count] at hcounted
    rw [Action.leads_bind, leads_count, Action.leads_bind, leads_callWith]
    apply (leads_solveSplit hB.sat hchosen.wf hF).mono
    · rintro r u ⟨hgrows, -⟩
      cases r with
      | none =>
        rw [Action.leads_bind]
        have hthere := steady_minds issued L₁ _ t u hchosen (alike_counters L₁
          { L₁.counters with satCalls := L₁.counters.satCalls + 1 }) rfl rfl hgrows
        apply (hthere.widen hk _).mono _ fun _ _ => .inr
        exact fun _ _ => .inr
      | some model =>
        refine Action.Leads.mono ((?_ : Traces L.arena false L.Accompanied _) (_, u) hcounted)
          (fun _ _ => .inl) fun _ _ => .inl
        apply (keeps_check _).bind
        intro N
        apply (traces_witness B.cp N).bind
        intro r
        cases r with
        | none => exact (traces_addConflict B.cp N).bind fun _ => keeps_pure _
        | some q =>
          dsimp only
          split
          · exact (traces_theory fun _ _ h => h.mark k).bind fun _ => keeps_pure _
          · exact keeps_pure _
    · exact fun _ u _ => .inl hcounted
  · rintro _ _ ⟨rfl, -⟩
    exact .inl hattentive

end

section Runs

variable {B : Backends σ} {oracle : Oracle σ}

theorem Minds.attemptSplit (hB : B.Lawful issued dom Err) (hp : Minds issued p)
    (hlong : ∃ c ∈ p.1.theory.clauses, isLong c = true) :
    Action.Leads (attemptSplit B) p (fun _ => Minds issued) fun _ => Minds issued := by
  apply ((leads_attemptSplit hB hp.wf hlong).and (hp.searches hB hlong)).mono
  · rintro r p' ⟨⟨hcontinues, -⟩, h⟩
    exact h.elim hcontinues.stops.minds id
  · rintro f p' ⟨hbreaks, h⟩
    exact h.elim hbreaks.toStops.minds id

theorem Minds.generate (hB : B.Lawful issued dom Err) (fuel : Nat) (hp : Minds issued p) :
    Action.Leads (generate B fuel) p (fun _ => Minds issued) fun _ => Minds issued := by
  induction fuel generalizing p with
  | zero => exact hp
  | succ fuel ih =>
    obtain ⟨b, hb⟩ := exists_isMonomial hp.wf.theory.nonEmpty
    rw [Learner.generate, Action.leads_bind, leads_check_of hb]
    cases b with
    | true =>
      rw [if_pos rfl]
      apply hp.leads (traces_probeQuery B fun _ _ hq => absurd hq.symm (Option.some_ne_none _))
      apply (leads_probeQuery hB hp.wf hb).mono
      · exact fun _ _ h => h.1.stops
      · exact fun _ _ h => h.toStops
    | false =>
      rw [if_neg Bool.false_ne_true, Action.leads_bind]
      apply (hp.attemptSplit hB ((isMonomial_eq_ok hb).2 rfl)).mono _ fun _ _ h => h
      intro r p' hp'
      cases r with
      | none => exact ih hp'
      | some q => exact hp'

/-- Whether learning collapses makes no difference here. -/
theorem Minds.digests (hp : Minds issued p) {x : Procedure Learner σ Learnt} {q : Query}
    (hx : Traces p.1.arena false p.1.Accompanied x)
    (hdigests : Action.Leads x p (fun r p' => p.1.Digests issued (fun _ _ => True) q r p')
      fun f p' => f = .fault .overflow ∧ p' = p) :
    Action.Leads x p (After (Minds issued) (Minds issued)) fun _ => Minds issued := by
  have hstops : Action.Leads x p (fun _ => p.1.Stops issued) fun _ => p.1.Stops issued := by
    apply hdigests.mono
    · exact fun _ _ h => h.stops
    · rintro _ p' ⟨-, hsame⟩
      rw [hsame]
      exact ⟨hp.wf, .refl p.1⟩
  exact (hp.leads hx hstops).mono (fun _ _ => after_self.2) fun _ _ h => h

theorem Minds.learn (hp : Minds issued p) (q : Query) (reduce : Bool) :
    Action.Leads (learn q reduce) p (After (Minds issued) (Minds issued)) fun _ => Minds issued :=
  hp.digests (traces_learn q reduce) (leads_learn_digests _ hp.wf q reduce)

theorem Minds.learnEarly (hp : Minds issued p) (q : Query) :
    Action.Leads (learnEarly q) p (After (Minds issued) (Minds issued)) fun _ => Minds issued :=
  hp.digests (traces_learnEarly q) (leads_learnEarly_digests _ hp.wf q)

theorem Minds.ask (horacle : oracle.Keeps issued) (q : Query) (hp : Minds issued p) :
    Action.Leads (ask oracle q) p (After (Minds issued) (Minds issued)) fun _ => Minds issued :=
  leads_bears_all.1 (leads_ask_of (steady_minds issued) horacle (excuses_all oracle)
    (fun q _ _ hp => leads_bears_all.2 (hp.learn q false)) q hp)

theorem Minds.preprocess {cp : CpBackend σ} (hk : cp.Keeps issued) (horacle : oracle.Keeps issued)
    (hp : Minds issued p) :
    Action.Leads (preprocess cp oracle) p (After (Minds issued) (Minds issued))
      fun _ => Minds issued :=
  leads_bears_all.1 (leads_preprocess_of (steady_minds issued) horacle (excuses_all oracle)
    (fun q _ _ hp => leads_bears_all.2 (hp.learnEarly q)) hk (draws_all cp _) hp)

theorem Minds.extract {sat : SatBackend σ} (hsat : sat.Solves issued Err) (hp : Minds issued p) :
    Action.Leads (extract sat) p (fun _ => Minds issued) fun _ => Minds issued := by
  apply hp.leads (traces_extract sat)
  apply (leads_extract_reads hsat hp.wf).mono
  · rintro o p' ⟨hgrows, S, -, hreads⟩
    exact ⟨hreads.alike.wf (hp.wf.grows hgrows), hreads.alike.evolves⟩
  · rintro f ⟨L', t⟩ ⟨hgrows, ⟨k, rfl⟩, -⟩
    have halike := p.1.alike_counters k
    exact ⟨halike.wf (hp.wf.grows hgrows), halike.evolves⟩

theorem carries_minds (hB : B.Lawful issued dom Err) (horacle : oracle.Keeps issued) :
    Carries B oracle issued (Minds issued) (Minds issued) (fun _ _ => True) (fun _ => True)
      (fun _ => Minds issued) fun _ => True where
  steady := steady_minds issued
  excuses := excuses_all oracle
  generate := by
    intro fuel p hp
    apply (hp.generate hB fuel).mono
    · exact fun _ _ hp' => ⟨hp', fun _ => trivial, fun _ _ => trivial⟩
    · exact fun _ _ hp' => ⟨hp', trivial⟩
  ask := fun q _ hp _ => leads_bears_all.2 (hp.ask horacle q)
  settled := fun _ _ _ => trivial
  extract := fun _ hp _ => leads_bears_all.2 (hp.extract hB.sat.solves)
  collapsed := fun _ hp => hp
  stopped := fun p hp => ⟨hp, steady_minds issued p.1 _ p.2 p.2 hp
    ⟨rfl, rfl, rfl, rfl, rfl, fun _ => id, rfl, rfl, rfl⟩ rfl rfl (.refl issued p.2)⟩

theorem Minds.process (hB : B.Lawful issued dom Err) (horacle : oracle.Keeps issued) (fuel : Nat)
    (hp : Minds issued p) :
    Action.Leads (process B oracle fuel) p (fun _ => Minds issued) fun _ => Minds issued :=
  leads_bears_all.1 ((carries_minds hB horacle).process (limits_all hB.sat.solves hB.keeps) fuel hp
    fun _ _ _ _ _ hp' => leads_bears_all.2 (hp'.preprocess hB.keeps horacle))

theorem Minds.addBackground (Ns : List Network) (hp : Minds issued p) :
    Action.Leads (addBackground Ns) p (fun _ => Minds issued) fun _ => Minds issued := by
  apply hp.leads
  · exact keeps_addBackground (fun _ => rests_update fun _ h => ⟨h.arena, h.titled, h.traced⟩) Ns
  · apply (leads_addBackground (fun _ _ => True) hp.wf Ns).mono
    · exact fun _ _ h => h.2.stops
    · exact fun _ _ h => h.1

/-- Whatever is done with a learner, it minds what it learns. -/
theorem Step.minds (hB : B.Lawful issued dom Err) (hstep : Step B issued p p')
    (hp : Minds issued p) : Minds issued p' := by
  cases hstep with
  | ask q horacle => exact (hp.ask horacle q).outcome (fun _ _ => after_self.1) fun _ _ h => h
  | generate fuel => exact (hp.generate hB fuel).outcome (fun _ _ h => h) fun _ _ h => h
  | preprocess horacle =>
    exact (hp.preprocess hB.keeps horacle).outcome (fun _ _ => after_self.1) fun _ _ h => h
  | process fuel horacle =>
    exact (hp.process hB horacle fuel).outcome (fun _ _ h => h) fun _ _ h => h
  | background Ns => exact (hp.addBackground Ns).outcome (fun _ _ h => h) fun _ _ h => h
  | configure settings passive =>
    exact ⟨hp.wf.set.wf, hp.attentive.arena, hp.attentive.titled, hp.attentive.traced⟩
  | replay qs =>
    exact ⟨hp.wf.set.wf, hp.attentive.arena, hp.attentive.titled, hp.attentive.traced⟩
  | strategies _ =>
    exact ⟨hp.wf.set.wf, hp.attentive.arena, hp.attentive.titled, hp.attentive.traced⟩

theorem Reachable.minds (hB : B.Lawful issued dom Err) (hp : Reachable B issued p) :
    Minds issued p := by
  induction hp with
  | @start settings A bias known s t L hA hbias hknown hL =>
    obtain ⟨-, hfresh⟩ := (leads_start hB.sat _ hA hbias hknown).of_ok hL
    have hnone : ∀ d, d ∉ L.theory.clauses := by
      rw [hfresh.theory]
      exact fun d => List.not_mem_nil
    refine ⟨hfresh.wf, rfl, fun c l hl => (hfresh.wf.names.entry c l hl).2.1,
      hfresh.wf.theory.valid, fun d hd => absurd hd (hnone d),
      fun _ => ⟨rfl, fun d hd => absurd hd (hnone d)⟩⟩
  | step _ hstep ih => exact hstep.minds hB ih

/-- A constraint that stands in the theory was noted, unless it was implied, and comes from no
query, or it was committed along with another one, which stands, too, and is violated by the
same query. -/
theorem noted_unless_implied_or_committed (hB : B.Lawful issued dom Err)
    (hp : Reachable B issued p) {d : Clause} (hd : d ∈ p.1.theory.clauses) {l : Literal}
    (hl : d.literals = [l]) (hpos : l.negated = false) :
    p.1.counters.firstLearned = true ∨ d.origin = none ∨
      ∃ q, d.origin = some q ∧ q.isPositive = false ∧ q.Violates p.1.arena l.constraint ∧
        ∃ c, c ≠ l.constraint ∧ q.Violates p.1.arena c ∧ p.1.Asserts c := by
  obtain ⟨hwf, -, -, htraced⟩ := hp.minds hB
  cases hnoted : p.1.counters.firstLearned with
  | true => exact .inl rfl
  | false =>
    refine .inr ?_
    cases horigin : d.origin with
    | none => exact .inl rfl
    | some q =>
      obtain ⟨hneg, hviolates⟩ := htraced.warranted d hd q horigin
      obtain ⟨c, hne, hc, hdecided⟩ := (htraced.unnoted hnoted).2 d hd l hl hpos q horigin
      exact .inr ⟨q, rfl, hneg, hviolates l (by simp [hl]), c, hne, hc, hwf.asserts hdecided⟩

end Runs

end Learner

namespace Exhaustive

open Learner

/-- A positive literal stands alone while nothing is noted, in a clause of which the origin passes
the check. -/
def Unnoted (check : Option Query → Bool) (L : Learner) : Prop :=
  L.counters.firstLearned = false ∧ ∃ d ∈ L.theory.clauses, check d.origin = true ∧
    ∃ l ∈ d.literals, d.literals = [l] ∧ l.negated = false

instance (check : Option Query → Bool) (L : Learner) : Decidable (Unnoted check L) :=
  inferInstanceAs (Decidable (_ ∧ _))

theorem reachable_generated {fuel : Nat} {r : Except Failure (Option Query)}
    {p p' : Learner × World} (hp : Reachable (backends bits) issued p)
    (hr : Action.outcome (generate (backends bits) fuel) p = (r, p')) :
    Reachable (backends bits) issued p' := by
  have hstep := Reachable.step hp (.generate fuel)
  rwa [hr] at hstep

/-- A query is rejected that violates two constraints, and then generation commits both. -/
theorem exists_committed : ∃ p, Reachable (backends bits) issued p ∧ Unnoted Option.isSome p.1 := by
  have h : generates [.ofPairs [(0, 1), (1, 1)]]
      (fun _ L => decide (Unnoted Option.isSome L)) = true := by
    decide +kernel
  obtain ⟨p, q, p', hp, hq, hcheck⟩ := exists_of_generates h
  exact ⟨p', reachable_generated hp hq, of_decide_eq_true hcheck⟩

/-- Both constraints stand that were committed, and neither was noted. -/
theorem committed_together : ∃ p, Reachable (backends bits) issued p ∧
    p.1.counters.firstLearned = false ∧ ∃ d ∈ p.1.theory.clauses, ∃ l q, d.literals = [l] ∧
      l.negated = false ∧ d.origin = some q ∧ q.isPositive = false ∧
        ∃ c, c ≠ l.constraint ∧ q.Violates p.1.arena c ∧ p.1.Asserts c := by
  obtain ⟨p, hp, hnoted, d, hd, horigin, l, -, hl, hpos⟩ := exists_committed
  refine ⟨p, hp, hnoted, d, hd, l, ?_⟩
  have hB := backends_lawful bits fun _ _ => True
  rcases noted_unless_implied_or_committed hB hp hd hl hpos with h | h | ⟨q, hq, hneg, -, hother⟩
  · rw [hnoted] at h
    cases h
  · rw [h] at horigin
    cases horigin
  · exact ⟨q, hl, hpos, hq, hneg, hother⟩

/-- Neither the constraints that generation commits nor those that it finds implied are noted. -/
theorem generation_leaves_unnoted :
    (∃ p, Reachable (backends bits) issued p ∧ Unnoted Option.isSome p.1) ∧
      ∃ p, Reachable (backends bits) issued p ∧ Unnoted Option.isNone p.1 := by
  refine ⟨exists_committed, ?_⟩
  have h : probes narrow (fun _ L => decide (Unnoted Option.isNone L)) = true := by
    decide +kernel
  obtain ⟨p, r, p', hp, -, -, hr, hcheck⟩ := exists_of_probes closed_narrow h
  exact ⟨p', reachable_generated hp hr, of_decide_eq_true hcheck⟩

end Exhaustive

end Acquisition
