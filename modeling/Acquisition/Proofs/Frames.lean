import Acquisition.Learner.Run
import Acquisition.Proofs.Answers
import Acquisition.Proofs.Attempts

/-!
# What learning and generation leave alone

A part of the state that no step of a procedure changes is the same in the end, however
the procedure ends. To learn from an answer changes what is known and notes the query. To
generate a query changes neither the queries noted nor the one on which learning collapsed.
What neither of them changes stays throughout the loops of a run.
-/
namespace Acquisition

variable {τ σ α β γ : Type}

/-- Whatever comes of the procedure, what holds of the state before holds after it. -/
def Procedure.Keeps (I : τ × σ → Prop) (x : Procedure τ σ α) : Prop :=
  ∀ p, I p → Action.Leads x p (fun _ => I) fun _ => I

namespace Procedure

variable {I : τ × σ → Prop}

theorem keeps_pure (a : α) : Keeps I (pure a : Procedure τ σ α) := fun _ h => h

theorem keeps_throw (f : Failure) : Keeps I (throw f : Procedure τ σ α) := fun _ h => h

theorem Keeps.bind {x : Procedure τ σ α} {f : α → Procedure τ σ β} (hx : Keeps I x)
    (hf : ∀ a, Keeps I (f a)) : Keeps I (x >>= f) := by
  intro p hp
  rw [Action.leads_bind]
  exact (hx p hp).mono (fun a p' hp' => hf a p' hp') fun _ _ h => h

theorem keeps_ofExcept (r : Except Failure α) :
    Keeps I (Action.ofExcept r : Procedure τ σ α) := by
  cases r with
  | ok a => exact keeps_pure a
  | error f => exact keeps_throw f

theorem keeps_ofChecked (r : Checked α) : Keeps I (Action.ofChecked r : Procedure τ σ α) :=
  keeps_ofExcept _

theorem keeps_ofForeseen (r : Except ErrorKind α) :
    Keeps I (Action.ofForeseen r : Procedure τ σ α) := keeps_ofExcept _

theorem keeps_own : Keeps I (own : Procedure τ σ τ) := fun _ h => h

theorem keeps_update {f : τ → τ} (h : ∀ p, I p → I (f p.1, p.2)) :
    Keeps I (update f : Procedure τ σ Unit) := h

theorem keeps_check (f : τ → Checked α) : Keeps I (check f : Procedure τ σ α) :=
  keeps_own.bind fun _ => keeps_ofChecked _

theorem keeps_forM {f : β → Procedure τ σ PUnit} (h : ∀ b, Keeps I (f b)) (bs : List β) :
    Keeps I (bs.forM f) := by
  induction bs with
  | nil => exact keeps_pure _
  | cons b bs ih => exact (h b).bind fun _ => ih

theorem keeps_mapM {f : β → Procedure τ σ α} (h : ∀ b, Keeps I (f b)) (bs : List β) :
    Keeps I (bs.mapM f) := by
  induction bs with
  | nil => exact keeps_pure _
  | cons b bs ih =>
    rw [List.mapM_cons]
    exact (h b).bind fun _ => ih.bind fun _ => keeps_pure _

theorem keeps_foldlM {f : α → β → Procedure τ σ α} (h : ∀ a b, Keeps I (f a b)) (a : α)
    (bs : List β) : Keeps I (bs.foldlM f a) := by
  induction bs generalizing a with
  | nil => exact keeps_pure _
  | cons b bs ih =>
    rw [List.foldlM_cons]
    exact (h a b).bind fun _ => ih _

/-- The owner has a property, whatever the world. -/
def Rests (P : τ → Prop) : τ × σ → Prop := fun p => P p.1

variable {P : τ → Prop}

/-- The world has no bearing on a property of the owner. -/
theorem rests_call (x : Action σ α) : Keeps (Rests P) (call x : Procedure τ σ α) := by
  intro p hp
  rw [leads_call, Action.Leads]
  split
  · exact hp
  · exact hp

theorem rests_callWith (x : τ → Action σ α) :
    Keeps (Rests P) (callWith x : Procedure τ σ α) :=
  keeps_own.bind fun _ => rests_call _

theorem rests_update {f : τ → τ} (h : ∀ t, P t → P (f t)) :
    Keeps (Rests P) (update f : Procedure τ σ Unit) :=
  keeps_update fun p hp => h p.1 hp

end Procedure

namespace Learner

open Procedure

variable {I : Learner × σ → Prop} {P : Learner → Prop}

/-- How many queries there were, and how many of them were accepted and rejected. -/
def verdicts (L : Learner) : Nat × Nat × Nat :=
  (L.counters.queries, L.counters.positive, L.counters.negative)

/-- A property that has nothing to do with what is known of the target, except that there may
be constraints that are still undecided. It may have to do with how many queries there were and
how many contradictions were found. -/
def Apart (P : Learner → Prop) : Prop :=
  ∀ (L : Learner) (S : ClauseStore) (U : Bias) (k : Counters),
    U.constraints ⊆ L.undecided.constraints → { L with counters := k }.verdicts = L.verdicts →
      k.contradictions = L.counters.contradictions → P L →
        P { L with theory := S, undecided := U, counters := k }

/-- The queries noted so far, and the one on which learning collapsed. -/
def answers (L : Learner) : List Query × Option Query := (L.asked, L.collapsing)

theorem keeps_literal (c : ConstraintId) :
    Keeps I (literal c : Procedure Learner σ Literal) :=
  keeps_own.bind fun _ => keeps_ofForeseen _

theorem keeps_negation (c : ConstraintId) :
    Keeps I (negation c : Procedure Learner σ ConstraintId) := keeps_check _

theorem keeps_poll : Keeps I (poll : Procedure Learner σ Unit) := by
  intro p hp
  rw [leads_poll]
  exact ⟨fun _ => hp, fun _ => hp⟩

section Answers

variable (h : Apart P)
include h

theorem rests_count (f : Counters → Counters)
    (hf : ∀ L : Learner, { L with counters := f L.counters }.verdicts = L.verdicts ∧
      (f L.counters).contradictions = L.counters.contradictions := by exact fun _ => ⟨rfl, rfl⟩) :
    Keeps (Rests P) (count f : Procedure Learner σ Unit) :=
  rests_update fun L => h L L.theory L.undecided _ (IndexSet.Subset.refl _) (hf L).1 (hf L).2

theorem rests_theory (f : ClauseStore → ClauseStore) : Keeps (Rests P)
    (update fun L => { L with theory := f L.theory } : Procedure Learner σ Unit) :=
  rests_update fun L => h L _ L.undecided L.counters (IndexSet.Subset.refl _) rfl rfl

theorem rests_reduce (n : ConstraintId) : Keeps (Rests P)
    (update fun L => { L with undecided := L.undecided.reduce n } : Procedure Learner σ Unit) :=
  rests_update fun L => h L L.theory _ L.counters (fun _ hc => (Bias.mem_reduce.1 hc).1) rfl rfl

theorem rests_propagate (l : Literal) :
    Keeps (Rests P) (propagate l : Procedure Learner σ Unit) := by
  rw [propagate]
  apply (keeps_check _).bind
  rintro ⟨report, S⟩
  apply (rests_theory h fun _ => S).bind
  intro _
  split
  · exact rests_count h _
  · exact keeps_pure _

theorem rests_addClause (reduce : Bool) (c : Clause) :
    Keeps (Rests P) (addClause reduce c : Procedure Learner σ Unit) :=
  rests_theory h fun S => if reduce then (S.addReduced c).2 else S.adding c

theorem rests_ruleOut (kappa : IndexSet) :
    Keeps (Rests P) (ruleOut kappa : Procedure Learner σ Unit) := by
  rw [ruleOut]
  apply Keeps.bind
  · apply keeps_forM
    intro c
    exact (keeps_literal c).bind fun _ => rests_propagate h _
  · intro _
    apply rests_update
    intro L
    exact h L L.theory _ L.counters (fun _ hc => (Bias.mem_reduceAll.1 hc).1) rfl rfl

theorem rests_confirm (reduce : Bool) (q : Query) (c : ConstraintId) :
    Keeps (Rests P) (confirm reduce q c : Procedure Learner σ Unit) := by
  rw [confirm]
  apply (rests_count h _).bind
  intro _
  apply (keeps_literal c).bind
  intro l
  apply (rests_propagate h l).bind
  intro _
  apply (rests_addClause h reduce _).bind
  intro _
  apply (keeps_negation c).bind
  intro n
  apply (rests_reduce h n).bind
  intro _
  exact (keeps_literal n).bind fun _ => rests_propagate h _

end Answers

/-- What a query is noted beside. -/
def record (L : Learner) : (List Query × Option Query) × ClauseStore := (L.answers, L.background)

theorem apart_record {r : (List Query × Option Query) × ClauseStore} :
    Apart fun L => L.record = r := fun _ _ _ _ _ _ _ h => h

/-- The procedure notes a query last of all, and the same query as the collapsing one if a
collapse is what it reports. A failure notes nothing, and the background is left alone. -/
def Notes (q : Query) (x : Procedure Learner σ Learnt) : Prop :=
  ∀ p, Action.Leads x p
    (fun r p' => p'.1.asked = p.1.asked ++ [q] ∧
      p'.1.collapsing = (if r = .collapse then some q else p.1.collapsing) ∧
      p'.1.background = p.1.background)
    fun _ p' => p'.1.answers = p.1.answers ∧ p'.1.background = p.1.background

theorem Notes.bind {q : Query} {x : Procedure Learner σ α} {f : α → Procedure Learner σ Learnt}
    (hx : ∀ r, Keeps (Rests fun L => L.record = r) x) (hf : ∀ a, Notes q (f a)) :
    Notes q (x >>= f) := by
  intro p
  rw [Action.leads_bind]
  apply (hx p.1.record p rfl).mono _ fun _ _ h => Prod.mk.inj h
  intro a p' hp'
  obtain ⟨hanswers, hbackground⟩ := Prod.mk.inj hp'
  obtain ⟨hasked, hcollapsing⟩ := Prod.mk.inj hanswers
  apply (hf a p').mono
  · intro r p'' h
    rwa [hasked, hcollapsing, hbackground] at h
  · exact fun _ _ h => ⟨h.1.trans hanswers, h.2.trans hbackground⟩

theorem notes_count {q : Query} {f : Counters → Counters} {x : Procedure Learner σ Learnt}
    (hx : Notes q x) : Notes q (do count f; x) :=
  Notes.bind (fun _ => rests_update fun _ h => h) fun _ => hx

theorem notes_noteAsked (q : Query) :
    Notes q (do noteAsked q; return .consistent : Procedure Learner σ Learnt) :=
  fun _ => ⟨rfl, rfl, rfl⟩

theorem notes_learn (q : Query) (reduce : Bool) :
    Notes q (learn q reduce : Procedure Learner σ Learnt) := by
  rw [learn]
  apply Notes.bind fun _ => keeps_check _
  intro kappa
  split
  · apply notes_count
    apply Notes.bind fun _ => rests_ruleOut apart_record kappa
    exact fun _ => notes_noteAsked q
  · apply notes_count
    split
    · exact fun _ => ⟨rfl, rfl, rfl⟩
    · next c _ =>
      apply Notes.bind fun _ => rests_confirm apart_record reduce q c
      exact fun _ => notes_noteAsked q
    · next cs _ _ =>
      apply Notes.bind fun _ => keeps_mapM keeps_literal _
      intro ls
      apply Notes.bind fun _ => rests_addClause apart_record reduce _
      exact fun _ => notes_noteAsked q

theorem notes_learnEarly (q : Query) : Notes q (learnEarly q : Procedure Learner σ Learnt) := by
  rw [learnEarly]
  split
  · apply Notes.bind fun _ => keeps_check _
    intro b
    split
    · exact notes_noteAsked q
    · exact notes_learn q true
  · exact notes_learn q true

/-- A property that an answer leaves alone altogether. -/
def Aloof (P : Learner → Prop) : Prop :=
  ∀ (L : Learner) (S : ClauseStore) (U : Bias) (k : Counters) (qs : List Query)
    (o : Option Query), U.constraints ⊆ L.undecided.constraints →
      k.contradictions = L.counters.contradictions → P L →
        P { L with theory := S, undecided := U, counters := k, asked := qs, collapsing := o }

theorem Aloof.apart (h : Aloof P) : Apart P :=
  fun L S U k hU _ => h L S U k L.asked L.collapsing hU

theorem aloof_deadline {l : Limit} : Aloof fun L => L.deadline = l := fun _ _ _ _ _ _ _ _ h => h

theorem aloof_contradictions {n : Nat} : Aloof fun L => L.counters.contradictions = n :=
  fun _ _ _ _ _ _ _ hk h => hk.trans h

/-- The verdicts may be counted. -/
theorem rests_counted (h : Aloof P) (f : Counters → Counters)
    (hf : ∀ k, (f k).contradictions = k.contradictions := by exact fun _ => rfl) :
    Keeps (Rests P) (count f : Procedure Learner σ Unit) :=
  rests_update fun L =>
    h L L.theory L.undecided _ L.asked L.collapsing (IndexSet.Subset.refl _) (hf L.counters)

theorem rests_noted (h : Aloof P) (f : Learner → List Query × Option Query) : Keeps (Rests P)
    (update fun L => { L with asked := (f L).1, collapsing := (f L).2 } :
      Procedure Learner σ Unit) :=
  rests_update fun L => h L L.theory L.undecided L.counters _ _ (IndexSet.Subset.refl _) rfl

theorem rests_noteAsked (h : Aloof P) (q : Query) :
    Keeps (Rests P) (noteAsked q : Procedure Learner σ Unit) :=
  rests_noted h fun L => (L.asked ++ [q], L.collapsing)

theorem rests_learn (h : Aloof P) (q : Query) (reduce : Bool) :
    Keeps (Rests P) (learn q reduce : Procedure Learner σ Learnt) := by
  have hnote : ∀ r : Learnt,
      Keeps (Rests P) (do noteAsked q; return r : Procedure Learner σ Learnt) :=
    fun _ => (rests_noteAsked h q).bind fun _ => keeps_pure _
  rw [learn]
  apply (keeps_check _).bind
  intro kappa
  split
  · apply (rests_counted h _).bind
    intro _
    exact (rests_ruleOut h.apart kappa).bind fun _ => hnote _
  · apply (rests_counted h _).bind
    intro _
    split
    · exact (rests_noted h fun L => (L.asked, some q)).bind fun _ => hnote _
    · next c _ => exact (rests_confirm h.apart reduce q c).bind fun _ => hnote _
    · apply (keeps_mapM keeps_literal _).bind
      intro ls
      exact (rests_addClause h.apart reduce _).bind fun _ => hnote _

theorem rests_learnEarly (h : Aloof P) (q : Query) :
    Keeps (Rests P) (learnEarly q : Procedure Learner σ Learnt) := by
  rw [learnEarly]
  split
  · apply (keeps_check _).bind
    intro b
    split
    · exact (rests_noteAsked h q).bind fun _ => keeps_pure _
    · exact rests_learn h q true
  · exact rests_learn h q true

/-! ### Generation -/

section Witnesses

variable {cp : CpBackend σ} (hwitness : ∀ N, Keeps I (witness cp N))
include hwitness

theorem keeps_sample (learned : Network) (ruledOut : IndexSet) (draws : Nat) :
    Keeps I (sample cp learned ruledOut draws) := by
  induction draws with
  | zero => exact keeps_pure _
  | succ draws ih =>
    rw [sample]
    apply keeps_poll.bind
    intro _
    apply (hwitness learned).bind
    intro r
    cases r with
    | none => exact keeps_pure _
    | some q =>
      apply (keeps_check _).bind
      intro kappa
      split
      · exact ih
      · exact keeps_pure _

variable (himplied : ∀ l : Literal,
  Keeps I (update fun L => { L with theory := L.theory.adding (.ofLiteral l) }))
include himplied

theorem keeps_probe (learned : Network) (cs : List ConstraintId) :
    Keeps I (probe cp learned cs) := by
  induction cs generalizing learned with
  | nil => exact keeps_pure _
  | cons c cs ih =>
    rw [probe]
    apply keeps_poll.bind
    intro _
    apply (keeps_negation c).bind
    intro n
    apply (keeps_check _).bind
    intro extended
    apply (hwitness extended).bind
    intro r
    cases r with
    | some q => exact keeps_pure _
    | none =>
      apply (keeps_literal c).bind
      intro l
      exact (himplied l).bind fun _ => ih _

end Witnesses

/-- What a witness and an implied constraint leave alone, so does the search for a query over a
theory of single literals. -/
theorem keeps_probeQuery {B : Backends σ} (hwitness : ∀ N, Keeps (Rests P) (witness B.cp N))
    (himplied : ∀ l : Literal, Keeps (Rests P)
      (update fun L => { L with theory := L.theory.adding (.ofLiteral l) } :
        Procedure Learner σ Unit)) :
    Keeps (Rests P) (probeQuery B) := by
  have hprobe : ∀ N, Keeps (Rests P) (do
      probe B.cp N ((← own).undecided.toList.filter (!N.contains ·)) :
        Procedure Learner σ (Option Query)) := by
    intro N
    exact keeps_own.bind fun _ => keeps_probe hwitness himplied N _
  rw [probeQuery]
  apply (keeps_check _).bind
  intro positives
  apply (keeps_check _).bind
  intro learned
  apply (keeps_check _).bind
  intro negatives
  apply keeps_own.bind
  intro L
  dsimp only
  split
  · apply (rests_call _).bind
    intro draws
    apply (keeps_sample hwitness learned _ draws).bind
    intro r
    cases r with
    | none => exact hprobe learned
    | some q => exact keeps_pure _
  · exact hprobe learned

section Probing

variable (h : Apart P)
include h

theorem rests_witness (cp : CpBackend σ) (N : Network) :
    Keeps (Rests P) (witness cp N : Procedure Learner σ (Option Query)) := by
  rw [witness]
  exact (rests_count h _).bind fun _ => rests_callWith _

theorem rests_probeQuery (B : Backends σ) :
    Keeps (Rests P) (probeQuery B : Procedure Learner σ (Option Query)) :=
  keeps_probeQuery (rests_witness h B.cp) fun l => rests_theory h (·.adding (.ofLiteral l))

theorem rests_commitEach (origin : Option Query) (ls : List Literal) :
    Keeps (Rests P) (commitEach origin ls : Procedure Learner σ Unit) := by
  induction ls with
  | nil => exact keeps_pure _
  | cons l ls ih =>
    have rest : Keeps (Rests P) (do
        update fun L =>
          { L with theory := L.theory.adding ((Clause.ofLiteral l).withOrigin origin) }
        propagate l
        let n ← negation l.constraint
        update fun L => { L with undecided := L.undecided.reduce n }
        commitEach origin ls : Procedure Learner σ Unit) := by
      apply (rests_theory h (·.adding ((Clause.ofLiteral l).withOrigin origin))).bind
      intro _
      apply (rests_propagate h l).bind
      intro _
      apply (keeps_negation _).bind
      intro n
      exact (rests_reduce h n).bind fun _ => ih
    rw [commitEach]
    split
    · exact (keeps_throw _).bind fun _ => rest
    · exact rest

theorem rests_commit (k : ClauseKey) (c : Clause) :
    Keeps (Rests P) (commit k c : Procedure Learner σ Unit) := by
  rw [commit]
  exact (rests_theory h (·.erase k)).bind fun _ => rests_commitEach h _ _

end Probing

theorem keeps_addDemand (pivot : Clause) (close : Bool) (S : ClauseStore) (F : Formula)
    (c : ConstraintId) : Keeps I
      (addDemand pivot close S F c : Procedure Learner σ (ClauseStore × Formula)) := by
  rw [addDemand]
  apply keeps_own.bind
  intro L
  apply (keeps_literal c).bind
  intro l
  apply (keeps_negation c).bind
  intro n
  split
  · apply (keeps_literal n).bind
    intro m
    dsimp only
    split
    · exact (keeps_ofChecked _).bind fun _ => keeps_pure _
    · exact keeps_pure _
  · split
    · exact keeps_pure _
    · exact keeps_pure _

theorem keeps_splitFormula (pivot : Clause) (close : Bool) :
    Keeps I (splitFormula pivot close : Procedure Learner σ Formula) := by
  rw [splitFormula]
  apply keeps_own.bind
  intro L
  refine Keeps.bind (keeps_foldlM (fun p c => ?_) _ _) fun _ => keeps_pure _
  obtain ⟨S, F⟩ := p
  exact keeps_addDemand pivot close S F c

theorem keeps_addBackground
    (hadded : ∀ K, Keeps I (update ({ · with background := K }))) (Ns : List Network) :
    Keeps I (addBackground Ns : Procedure Learner σ Unit) := by
  induction Ns with
  | nil => exact keeps_pure _
  | cons N Ns ih =>
    rw [addBackground]
    apply keeps_own.bind
    intro L
    apply (keeps_ofExcept _).bind
    intro K
    exact (hadded K).bind fun _ => ih

theorem keeps_addConflict {cp : CpBackend σ}
    (hbackground : ∀ Ns, Keeps (Rests P) (addBackground Ns : Procedure Learner σ Unit))
    (hexplained : Keeps (Rests P) (count fun k => { k with explanations := k.explanations + 1 } :
      Procedure Learner σ Unit))
    (hfound : Keeps (Rests P) (count fun k => { k with contradictions := k.contradictions + 1 } :
      Procedure Learner σ Unit)) (N : Network) :
    Keeps (Rests P) (addConflict cp N : Procedure Learner σ Unit) := by
  rw [addConflict]
  apply (keeps_check _).bind
  intro condensed
  apply hexplained.bind
  intro _
  apply (rests_callWith _).bind
  intro conflict
  exact (hbackground _).bind fun _ => hfound

/-- A property that has nothing to do with the search for a query. -/
structure Aside (P : Learner → Prop) : Prop where
  same : ∀ (L : Learner) (S K : ClauseStore) (U : Bias) (k : Counters) (pivot : Option ClauseKey)
    (aim slack : Nat), U.constraints ⊆ L.undecided.constraints →
      { L with counters := k }.verdicts = L.verdicts → P L →
        P { L with
          theory := S, background := K, undecided := U, counters := k, pivot := pivot, aim := aim,
          slack := slack }

theorem Aside.apart (h : Aside P) : Apart P :=
  fun L S U k hU hk _ => h.same L S L.background U k L.pivot L.aim L.slack hU hk

theorem Aside.searching (h : Aside P) {L : Learner} (S K : ClauseStore)
    (pivot : Option ClauseKey) (aim slack : Nat) (hL : P L) :
    P { L with theory := S, background := K, pivot := pivot, aim := aim, slack := slack } :=
  h.same L S K L.undecided L.counters pivot aim slack (IndexSet.Subset.refl _) rfl hL

theorem aside_answers {a : List Query × Option Query} : Aside fun L => L.answers = a :=
  ⟨fun _ _ _ _ _ _ _ _ _ _ h => h⟩

section Generating

variable (h : Aside P)
include h

theorem rests_isPossible (sat : SatBackend σ) (S : ClauseStore) (l : Literal) :
    Keeps (Rests P) (isPossible sat S l : Procedure Learner σ Bool) := by
  rw [isPossible]
  apply (rests_count h.apart _).bind
  intro _
  exact (rests_call _).bind fun _ => keeps_pure _

theorem rests_isFree (sat : SatBackend σ) (c : ConstraintId) :
    Keeps (Rests P) (isFree sat c : Procedure Learner σ Bool) := by
  rw [isFree]
  apply keeps_own.bind
  intro L
  apply (keeps_literal c).bind
  intro l
  apply (rests_isPossible h sat _ l).bind
  intro b
  split
  · exact rests_isPossible h sat _ l.negate
  · exact keeps_pure _

theorem rests_addFree (sat : SatBackend σ) (S : ClauseStore) (informative : Clause)
    (cs : List ConstraintId) : Keeps (Rests P)
      (addFree sat S informative cs : Procedure Learner σ (ClauseStore × Clause)) := by
  induction cs generalizing S informative with
  | nil => exact keeps_pure _
  | cons c cs ih =>
    rw [addFree]
    apply (rests_isFree h sat c).bind
    intro b
    split
    · apply (keeps_negation c).bind
      intro n
      exact (keeps_literal n).bind fun _ => ih _ _
    · exact ih _ _

theorem rests_freeFormula (sat : SatBackend σ) :
    Keeps (Rests P) (freeFormula sat : Procedure Learner σ Formula) := by
  rw [freeFormula]
  apply keeps_own.bind
  intro L
  apply (rests_addFree h sat _ _ _).bind
  rintro ⟨S, informative⟩
  dsimp only
  split
  · exact (keeps_throw _).bind fun _ => keeps_pure _
  · exact keeps_pure _

theorem rests_choosePivot : Keeps (Rests P) (choosePivot : Procedure Learner σ Unit) := by
  rw [choosePivot]
  apply keeps_own.bind
  intro L
  split
  · exact keeps_pure _
  · apply (keeps_check _).bind
    exact fun r => rests_update fun L => h.searching r.2 L.background r.1 1 0

theorem rests_addBackground (Ns : List Network) :
    Keeps (Rests P) (addBackground Ns : Procedure Learner σ Unit) :=
  keeps_addBackground (fun K => rests_update fun L =>
    h.searching L.theory K L.pivot L.aim L.slack) Ns

theorem rests_widen (pivot : Option (ClauseKey × Clause)) (close : Bool) :
    Keeps (Rests P) (widen pivot close : Procedure Learner σ Unit) := by
  cases pivot with
  | none => exact keeps_throw _
  | some k =>
    cases close with
    | true =>
      rw [widen]
      exact rests_update fun L => h.searching L.theory L.background L.pivot L.aim (L.slack + 1)
    | false =>
      apply Keeps.bind (rests_commit h.apart k.1 k.2)
      exact fun _ => rests_update fun L => h.searching L.theory L.background none L.aim L.slack

theorem rests_addConflict (cp : CpBackend σ) (N : Network) :
    Keeps (Rests P) (addConflict cp N : Procedure Learner σ Unit) := by
  apply keeps_addConflict (rests_addBackground h) (rests_count h.apart _)
  apply rests_update
  intro L
  exact h.same L L.theory L.background L.undecided _ L.pivot L.aim L.slack
    (IndexSet.Subset.refl _) rfl

theorem rests_attemptSplit (B : Backends σ) :
    Keeps (Rests P) (attemptSplit B : Procedure Learner σ (Option Query)) := by
  have hformula : ∀ {pivot close},
      Keeps (Rests P) (formula B.sat pivot close : Procedure Learner σ Formula) := by
    intro pivot close
    cases pivot with
    | some c => exact keeps_splitFormula c close
    | none => exact rests_freeFormula h B.sat
  rw [attemptSplit]
  apply keeps_poll.bind
  intro _
  apply (rests_choosePivot h).bind
  intro _
  apply keeps_own.bind
  intro L
  dsimp only
  apply hformula.bind
  intro F
  apply (rests_count h.apart _).bind
  intro _
  apply (rests_callWith _).bind
  intro r
  cases r with
  | none => exact (rests_widen h _ _).bind fun _ => keeps_pure _
  | some model =>
    apply (keeps_check _).bind
    intro N
    apply (rests_witness h.apart B.cp N).bind
    intro r
    cases r with
    | none => exact (rests_addConflict h B.cp N).bind fun _ => keeps_pure _
    | some q =>
      dsimp only
      split
      · split
        · next k _ _ =>
          exact (rests_theory h.apart (·.mark k)).bind fun _ => keeps_pure _
        · exact keeps_pure _
      · exact keeps_pure _

/-- To generate a query has no bearing on such a part. -/
theorem rests_generate (B : Backends σ) (fuel : Nat) :
    Keeps (Rests P) (generate B fuel : Procedure Learner σ (Option Query)) := by
  induction fuel with
  | zero => exact keeps_throw _
  | succ fuel ih =>
    rw [generate]
    apply (keeps_check _).bind
    intro b
    split
    · exact rests_probeQuery h.apart B
    · apply (rests_attemptSplit h B).bind
      intro r
      cases r with
      | some q => exact keeps_pure _
      | none => exact ih

end Generating

/-! ### Runs -/

/-- What a learner was set to do. -/
structure Orders where
  settings : Settings
  replay : List Query
  strategies : List Network

def orders (L : Learner) : Orders := ⟨L.settings, L.replay, L.strategies⟩

theorem aloof_orders {o : Orders} : Aloof fun L => L.orders = o := fun _ _ _ _ _ _ _ _ h => h

theorem aside_orders {o : Orders} : Aside fun L => L.orders = o :=
  ⟨fun _ _ _ _ _ _ _ _ _ _ h => h⟩

theorem keeps_closedTheory : Keeps I (closedTheory : Procedure Learner σ ClauseStore) := by
  apply keeps_own.bind
  intro L
  exact (keeps_mapM keeps_literal _).bind fun _ => keeps_pure _

theorem keeps_extract {sat : SatBackend σ}
    (hcounted : Keeps (Rests P) (count fun k => { k with satCalls := k.satCalls + 1 } :
      Procedure Learner σ Unit))
    (hends : ∀ (L : Learner) (N : Option Network) (q : Option Query), P L →
      P { L with learned := N, collapsing := q }) :
    Keeps (Rests P) (extract sat : Procedure Learner σ Outcome) := by
  rw [extract]
  apply keeps_closedTheory.bind
  intro S
  apply hcounted.bind
  intro _
  apply (rests_call _).bind
  intro r
  cases r with
  | some model =>
    apply (keeps_check _).bind
    intro N
    exact Keeps.bind (rests_update fun L => hends L (some N) L.collapsing) fun _ => keeps_pure _
  | none =>
    apply (keeps_check _).bind
    intro q
    exact Keeps.bind (rests_update fun L => hends L L.learned q) fun _ => keeps_pure _

/-- What a run leaves at its end has no bearing on such a property. -/
theorem rests_extract (h : Apart P)
    (hends : ∀ (L : Learner) (N : Option Network) (q : Option Query), P L →
      P { L with learned := N, collapsing := q }) (sat : SatBackend σ) :
    Keeps (Rests P) (extract sat : Procedure Learner σ Outcome) :=
  keeps_extract (rests_count h _) hends

section Running

variable (oracle : Oracle σ) (h : Aloof P)
include h

theorem rests_classify (q : Query) :
    Keeps (Rests P) (classify oracle q : Procedure Learner σ Query) := by
  rw [classify]
  apply (rests_counted h _).bind
  intro _
  apply (rests_call _).bind
  intro a
  cases a with
  | accept => exact keeps_ofForeseen _
  | reject => exact keeps_ofForeseen _
  | unknown => exact keeps_throw _

theorem rests_ask (q : Query) : Keeps (Rests P) (ask oracle q : Procedure Learner σ Learnt) :=
  (rests_classify oracle h q).bind fun q => rests_learn h q false

theorem rests_learnReplayed (qs : List Query) :
    Keeps (Rests P) (learnReplayed oracle qs : Procedure Learner σ Learnt) := by
  induction qs with
  | nil => exact keeps_pure _
  | cons q qs ih =>
    have hrest : ∀ q, Keeps (Rests P) (do
        if (← learnEarly q) = .collapse then return .collapse
        learnReplayed oracle qs : Procedure Learner σ Learnt) := by
      intro q
      apply (rests_learnEarly h q).bind
      intro r
      split
      · exact keeps_pure _
      · exact ih
    rw [learnReplayed]
    apply keeps_poll.bind
    intro _
    dsimp only
    split
    · exact (rests_counted h _).bind fun _ => hrest q
    · exact (rests_classify oracle h q).bind hrest

theorem rests_learnStrategies (cp : CpBackend σ) (Ns : List Network) :
    Keeps (Rests P) (learnStrategies cp oracle Ns : Procedure Learner σ Learnt) := by
  induction Ns with
  | nil => exact keeps_pure _
  | cons N Ns ih =>
    rw [learnStrategies]
    apply keeps_poll.bind
    intro _
    apply keeps_own.bind
    intro L
    apply (rests_witness h.apart cp _).bind
    intro r
    cases r with
    | none => exact ih
    | some q =>
      apply (rests_classify oracle h q).bind
      intro q
      apply (rests_learnEarly h q).bind
      intro r
      split
      · exact keeps_pure _
      · exact ih

theorem rests_acquire (haside : Aside P)
    (hends : ∀ (L : Learner) (N : Option Network) (q : Option Query), P L →
      P { L with learned := N, collapsing := q }) (B : Backends σ) (fuel : Nat) :
    Keeps (Rests P) (acquire B oracle fuel : Procedure Learner σ Outcome) := by
  induction fuel with
  | zero => exact keeps_throw _
  | succ fuel ih =>
    rw [acquire]
    apply keeps_poll.bind
    intro _
    apply keeps_own.bind
    intro L
    split
    · exact rests_extract h.apart hends B.sat
    · apply (rests_generate haside B fuel).bind
      intro r
      cases r with
      | none => exact rests_extract h.apart hends B.sat
      | some q =>
        apply (rests_ask oracle h q).bind
        intro r
        split
        · exact keeps_pure _
        · exact ih

end Running

end Learner

end Acquisition
