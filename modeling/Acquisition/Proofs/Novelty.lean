import Acquisition.Proofs.MinimalConflict
import Acquisition.Proofs.Rules
import Acquisition.Proofs.Tally

/-!
# Conflicts are new

The propositional backend is asked for a model of the background, so that each model leaves
out some constraint of every contradiction that is known. A conflict among the constraints of
a model contains no such contradiction, and it is itself minimal. Of the conflicts that are
found one after the other, none is then a subset of another.

Nothing is asked here of a constraint backend but true answers about the networks that a split
gives rise to.
-/
namespace Acquisition

open IndexSet ClauseStore

variable {σ : Type} {issued : Issued σ} {s t : σ} {dom : Ranges} {Err : Failure → σ → Prop}
  {D : ConstraintId → Prop} {A : Arena} {R : IndexSet} {B : Backends σ}

/-- The constraint backend answers truly about networks over the variables `R` whose constraints
are as `D` asks, once atoms were handed out. About other networks it says whatever it likes. -/
structure Backends.Serves (B : Backends σ) (issued : Issued σ) (dom : Ranges) (A : Arena)
    (R : IndexSet) (D : ConstraintId → Prop) (Err : Failure → σ → Prop) : Prop where
  sat : B.sat.Solves issued Err
  answers : ∀ N s, issued.Begun s → Conflict.Over A R N → (∀ c ∈ N.constraints, D c) →
    (B.cp.witness A N).Leads s (fun r _ => N.Answered A dom r) Err
  errors : ∀ N s, N.Closed A → (B.cp.witness A N).Leads s (fun _ _ => True) Err
  keeps : B.cp.Keeps issued

theorem Backends.Lawful.serves (hB : B.Lawful issued dom Err) (hA : A.Built) (R : IndexSet)
    (D : ConstraintId → Prop) : B.Serves issued dom A R D Err where
  sat := hB.sat.solves
  answers := fun N s _ hN _ => hB.cp.witness A N s hA hN.closed
  errors := fun N s hN => (hB.cp.witness A N s hA hN).mono (fun _ _ _ => trivial) fun _ _ h => h
  keeps := hB.keeps

theorem Backends.Serves.answersOn (hB : B.Serves issued dom A R D Err) (hs : issued.Begun s) :
    B.cp.AnswersOn A R D dom (issued.Grows s) Err := by
  intro N t hN hD ht
  apply ((hB.answers N t (ht.begun hs) hN hD).and (hB.keeps.witness A N t)).mono
  · exact fun _ _ h => ⟨ht.trans h.2, h.1⟩
  · exact fun _ _ h => ⟨ht.trans h.2, h.1⟩

/-- Neither the window nor the objective names a negated literal. -/
structure Formula.Positive (F : Formula) : Prop where
  window : ∀ w, F.window = some w → ∀ l ∈ w.clause.literals, l.negated = false
  objective : ∀ t ∈ F.objective, t.1.negated = false

/-- A model names no constraint that the formula only mentions negated, in its clauses. -/
def SatBackend.Frugal (sat : SatBackend σ) (issued : Issued σ) : Prop :=
  ∀ F s, F.Known issued s → F.Positive → (sat.solve F).Leads s
    (fun r _ => ∀ m, r = some m → ∀ c ∈ m,
      ∃ l ∈ Sat.Problem.literals F, l.negated = false ∧ l.constraint = c) fun _ _ => True

namespace Learner

variable {L L' : Learner}

/-- The variables `R` have values, those of the bias are among them, and the constraints that a
model may name are about them and as `D` asks. -/
structure Housed (sat : SatBackend σ) (issued : Issued σ) (dom : Ranges) (R : IndexSet)
    (D : ConstraintId → Prop) (L : Learner) : Prop where
  inhabited : ∃ f : Valuation, f.Within dom R
  scope : L.bias.scope ⊆ R
  confined : ∀ c l, L.atoms.literal c = .ok l → (sat.Frugal issued → L.Concerns c) →
    (∀ v, L.arena.Mentions c v → v ∈ R) ∧ D c

theorem Evolves.housed {sat : SatBackend σ} (h : L.Evolves L')
    (hL : L.Housed sat issued dom R D) : L'.Housed sat issued dom R D where
  inhabited := hL.inhabited
  scope := h.bias ▸ hL.scope
  confined := by
    intro c l hl hconcerns
    rw [h.arena]
    apply hL.confined c l (h.atoms ▸ hl)
    intro hfrugal
    have hc := hconcerns hfrugal
    rwa [Concerns, h.bias] at hc

/-- A clause of the theory shows that atoms were handed out. -/
theorem Wf.begun (hL : L.Wf issued s) {c : Clause} (hc : c ∈ L.theory.clauses) :
    issued.Begun s := by
  obtain ⟨l, hl⟩ := List.exists_mem_of_ne_nil _ (hL.theory.nonEmpty c hc)
  have hlists := (hL.voices hc hl).lists
  exact ⟨l.atom, l.constraint, (hL.names.entry _ l hlists).2.2⟩

/-- The constraints of a model that the propositional backend finds for a split. -/
structure Offers (sat : SatBackend σ) (issued : Issued σ) (L : Learner) (m : Model) : Prop where
  tabled : ∀ c ∈ m, ∃ l, L.atoms.literal c = .ok l
  concerns : sat.Frugal issued → ∀ c ∈ m, L.Concerns c
  avoids : ∀ d ∈ L.background.clauses, ∃ l ∈ d.literals, l.constraint ∉ m

/-- The literals of a split are positive but for those of the background. -/
theorem Splits.positive (hL : L.Wf issued s) {pivot : Clause} {close : Bool} {F : Formula}
    (hF : L.Splits pivot close F) : (F.addStore L.background).Positive where
  window := by
    intro w hw l hl
    have hmem : l ∈ Sat.Problem.literals F := Formula.mem_literals.2 (.inr (.inl ⟨w, hw, hl⟩))
    exact hL.names.positive (hF.listed l hmem).lists
  objective := by
    intro t ht
    have hmem : t.1 ∈ Sat.Problem.literals F := Formula.mem_literals.2 (.inr (.inr ⟨t, ht, rfl⟩))
    exact hL.names.positive (hF.listed t.1 hmem).lists

/-- A model is one of the background, too. -/
theorem leads_solveSplit_offers {sat : SatBackend σ} (hsat : sat.Solves issued Err)
    (hL : L.Wf issued s) {pivot : Clause} {close : Bool} {F : Formula}
    (hF : L.Splits pivot close F) :
    (sat.solve (F.addStore L.background)).Leads s
      (fun r t => issued.Grows s t ∧ ∀ m, r = some m → L.Offers sat issued m)
      (fun f t => issued.Grows s t ∧ Err f t) := by
  have hknown := hF.known hL
  have hnames : (sat.solve (F.addStore L.background)).Leads s
      (fun r _ => sat.Frugal issued → ∀ m, r = some m → ∀ c ∈ m,
        ∃ l ∈ Sat.Problem.literals (F.addStore L.background),
          l.negated = false ∧ l.constraint = c) fun _ _ => True := by
    by_cases hfrugal : sat.Frugal issued
    · exact (hfrugal _ s hknown (hF.positive hL)).mono (fun _ _ h _ => h) fun _ _ h => h
    · exact (hsat.solve _ s hknown).mono (fun _ _ _ h => absurd h hfrugal) fun _ _ _ => trivial
  apply ((hsat.solve _ s hknown).and hnames).mono _ fun _ _ h => h.1
  rintro r t ⟨⟨ht, hr⟩, hnamed⟩
  apply And.intro ht
  rintro m rfl
  obtain ⟨v, hv, hmodel⟩ := hr
  apply Offers.mk
  · intro c hc
    obtain ⟨l, hl, rfl, -⟩ := (hmodel c).1 hc
    obtain ⟨n, hn, -⟩ := hF.exists_literal hL hl
    exact ⟨n, hn⟩
  · intro hfrugal c hc
    obtain ⟨l, hl, hpos, rfl⟩ := hnamed hfrugal m rfl c hc
    rcases Formula.mem_literals_addStore.1 hl with hl | ⟨d, hd, hl⟩
    · exact (hF.listed l hl).concerns
    · have hneg := hL.names.positive (hL.background d hd l hl)
      rw [Literal.negate, hpos] at hneg
      cases hneg
  · intro d hd
    obtain ⟨l, hl, hlv⟩ := (Formula.holds_addStore.1 hv).2 d hd
    refine ⟨l, hl, fun hc => ?_⟩
    obtain ⟨l', hl', hsame, hv'⟩ := (hmodel _).1 hc
    obtain ⟨n, hn, ha⟩ := hF.exists_literal hL hl'
    apply (hL.names.holds_negated_iff (hL.background d hd l hl)).1 hlv
    exact ⟨n, hsame ▸ hn, ha ▸ hv'⟩

/-- The constraints of a contradiction that is known. -/
def Contradicts (L : Learner) (K : IndexSet) : Prop :=
  ∃ d ∈ L.background.clauses, ∀ c, c ∈ K ↔ ∃ l ∈ d.literals, l.constraint = c

/-- The clause records a conflict of the given constraints, which is minimal and contains no
contradiction that is known. -/
structure Adds (Sat : IndexSet → Prop) (L : Learner) (d : Clause) (M : IndexSet) : Prop where
  nonEmpty : d.literals ≠ []
  listed : ∀ l ∈ d.literals, L.atoms.Lists l.negate
  members : ∀ c, c ∈ M ↔ ∃ l ∈ d.literals, l.constraint = c
  minimal : Minimal Sat M M
  new : ∀ K, L.Contradicts K → ¬ K ⊆ M

variable {Sat : IndexSet → Prop} {d : Clause} {M : IndexSet}

/-- The background only has clauses of its own length more. -/
theorem Adds.size_adding (h : L.Adds Sat d M) (hL : L.Wf issued s) :
    (L.background.adding d).size = L.background.size + 1 := by
  apply ClauseStore.size_adding hL.kept
  intro e he hsame
  apply h.new M _ (Subset.refl M)
  exact ⟨e, he, fun c => by rw [hsame, h.members]⟩

theorem Adds.contradicts_iff (h : L.Adds Sat d M) (hL : L.Wf issued s) (k : Counters)
    (K : IndexSet) :
    { L with background := L.background.adding d, counters := k }.Contradicts K ↔
      L.Contradicts K ∨ K = M := by
  have hmembers : ∀ {K : IndexSet} {e : Clause}, e.literals = d.literals →
      ((∀ c, c ∈ K ↔ ∃ l ∈ e.literals, l.constraint = c) ↔ K = M) := by
    intro K e he
    constructor
    · intro hK
      apply ext_mem
      intro c
      rw [hK, he, h.members]
    · rintro rfl c
      rw [he, h.members]
  constructor
  · rintro ⟨e, he, hK⟩
    rcases mem_of_mem_adding hL.kept he with rfl | he
    · exact .inr ((hmembers rfl).1 hK)
    · exact .inl ⟨e, he, hK⟩
  · rintro (⟨e, he, hK⟩ | rfl)
    · exact ⟨e, mem_adding_of_mem hL.kept d he, hK⟩
    · obtain ⟨e, he, hsame⟩ := exists_adding hL.kept d
      exact ⟨e, he, (hmembers hsame).2 rfl⟩

/-- A contradiction that is recorded leaves the learner well formed. -/
theorem Adds.stops (h : L.Adds Sat d M) (hL : L.Wf issued s) (k : Counters) :
    L.Stops issued ({ L with background := L.background.adding d, counters := k }, s) := by
  apply Stops.mk
  · refine ⟨hL.built, hL.closed, hL.known, hL.names, hL.atoms, hL.registered, hL.undecided,
      hL.theory, fun e he l hl => ?_, hL.kept.adding d⟩
    rcases mem_of_mem_adding hL.kept he with rfl | he
    · exact h.listed l hl
    · exact hL.background e he l hl
  · exact ⟨rfl, rfl, rfl, rfl, rfl, fun _ => id, Subset.refl _, fun e he => ⟨e, he, fun _ => id⟩⟩

/-- The constraints of a model make up a network that the constraint backend is to answer for. -/
theorem Offers.over {sat : SatBackend σ} (hhoused : L.Housed sat issued dom R D) {m : Model}
    (hm : L.Offers sat issued m) {N : Network}
    (hN : Network.ofList L.arena L.bias.scope m = .ok N) :
    Conflict.Over L.arena R N ∧ ∀ c ∈ N.constraints, D c := by
  obtain ⟨-, hcons, hscope⟩ := Network.ofList_eq_ok hN
  have hdecent : ∀ c ∈ m, (∀ v, L.arena.Mentions c v → v ∈ R) ∧ D c := by
    intro c hc
    obtain ⟨l, hl⟩ := hm.tabled c hc
    exact hhoused.confined c l hl fun hfrugal => hm.concerns hfrugal c hc
  refine ⟨⟨Network.closed_ofList hN, fun v hv => ?_⟩, fun c hc => ?_⟩
  · rcases (hscope v).1 hv with hv | ⟨c, hc, hv⟩
    · exact hhoused.scope v hv
    · exact (hdecent c hc).1 v hv
  · exact (hdecent c ((hcons c).1 hc)).2

/-- A minimal part of a model without a solution is a new conflict. -/
theorem leads_addConflict_adds (hB : B.Serves issued dom L.arena R D Err) (hL : L.Wf issued s)
    (hs : issued.Begun s) (hhoused : L.Housed B.sat issued dom R D) {m : Model} (hm : L.Offers B.sat issued m)
    {N : Network} (hN : Network.ofList L.arena L.bias.scope m = .ok N)
    (hun : ¬ N.Satisfiable L.arena dom) :
    Action.Leads (addConflict B.cp N) (L, s)
      (fun _ p => issued.Grows s p.2 ∧ ∃ k d M,
        p.1 = { L with background := L.background.adding d, counters := k } ∧
        k.contradictions = L.counters.contradictions + 1 ∧
        L.Adds ((Network.ofScope R).Admits L.arena dom) d M)
      (fun f p => issued.Grows s p.2 ∧
        (∃ k, k.contradictions = L.counters.contradictions ∧ p.1 = { L with counters := k }) ∧
        (f = .error .timeout ∧ L.deadline = .passed ∨ Err f p.2)) := by
  obtain ⟨⟨hclosed, hNR⟩, hD⟩ := hm.over hhoused hN
  obtain ⟨-, hcons, -⟩ := Network.ofList_eq_ok hN
  obtain ⟨C, hC, hCclosed, hCscope, hsub, hholds⟩ := Simplify.exists_condense hL.built hclosed
  have hover : Conflict.Over L.arena R C := ⟨hCclosed, hCscope ▸ hNR⟩
  have hCm : ∀ c ∈ C.constraints, c ∈ m := fun c hc => (hcons c).1 (hsub c hc)
  obtain ⟨f, hf⟩ := hhoused.inhabited
  have hsat : (Network.ofScope R).Admits L.arena dom .empty :=
    ⟨f, hf, Network.holds_ofScope L.arena R f, fun c hc => absurd hc (mem_empty' c)⟩
  have hunC : ¬ (Network.ofScope R).Admits L.arena dom C.constraints := by
    rintro ⟨g, hg, -, hCg⟩
    exact hun ⟨g, hg.mono hNR, hholds g hCg⟩
  rw [addConflict, Action.leads_bind, Procedure.leads_check_of hC, Action.leads_bind, leads_count,
    Action.leads_bind, Procedure.leads_callWith]
  apply (Conflict.leads_explain_minimal ((hB.answersOn hs).tells hhoused.inhabited)
    (Network.hereditary_admits _) hover (fun c hc => hD c (hsub c hc)) hsat hunC
    (.refl issued s)).mono
  swap
  · rintro f t ⟨ht, hf⟩
    exact ⟨ht, ⟨{ L.counters with explanations := L.counters.explanations + 1 }, rfl, rfl⟩, hf⟩
  rintro M t ⟨ht, hsome, hmin⟩
  have htable : ∀ c ∈ M.constraints, ∃ l, L.atoms.literal c = .ok l := fun c hc =>
    hm.tabled c (hCm c (hmin.subset c hc))
  obtain ⟨K, hK⟩ := Contradiction.exists_record hsome (S := L.background) htable
  obtain ⟨d, rfl, hne, -, hd⟩ := Contradiction.record_eq_ok hK
  rw [Action.leads_bind, addBackground, Action.leads_bind, Procedure.leads_own,
    Action.leads_bind, hK, Action.ofExcept, Action.leads_pure, Action.leads_bind, Procedure.leads_update, addBackground, Action.leads_pure, leads_count]
  refine ⟨ht, _, d, M.constraints, rfl, rfl, hne, fun l hl => ?_, fun c => ?_,
    ⟨Subset.refl _, hmin.unsat, hmin.minimal⟩, ?_⟩
  · obtain ⟨c, -, hl⟩ := (hd l).1 hl
    exact hL.names.lists hl
  · constructor
    · intro hc
      obtain ⟨l, hl⟩ := htable c hc
      refine ⟨l.negate, (hd _).2 ⟨c, hc, by rw [hl, Literal.negate_negate]⟩, ?_⟩
      exact (hL.names.entry c l hl).2.1
    · rintro ⟨l, hl, rfl⟩
      obtain ⟨c, hc, hlc⟩ := (hd l).1 hl
      have hsame : l.negate.constraint = c := (hL.names.entry c _ hlc).2.1
      exact hsame ▸ hc
  · rintro K ⟨e, he, hK⟩ hKM
    obtain ⟨l, hl, hout⟩ := hm.avoids e he
    apply hout
    exact hCm _ (hmin.subset _ (hKM _ ((hK _).2 ⟨l, hl, rfl⟩)))

/-- The contradictions that `L'` knows beyond those that `L` does, as they were found one after
the other. -/
structure Found (Sat : IndexSet → Prop) (L L' : Learner) (Ms : List IndexSet) : Prop where
  /-- Each of them is a minimal set that cannot be satisfied. -/
  minimal : ∀ M ∈ Ms, Minimal Sat M M
  /-- None contains a contradiction that was known from the start. -/
  new : ∀ M ∈ Ms, ∀ K, L.Contradicts K → ¬ K ⊆ M
  /-- None contains another one. -/
  apart : Ms.Pairwise fun K M => ¬ K ⊆ M ∧ ¬ M ⊆ K
  recorded : ∀ K, L'.Contradicts K ↔ L.Contradicts K ∨ K ∈ Ms
  /-- Each of them made the background longer by one. -/
  size : L'.background.size = L.background.size + Ms.length
  /-- There are as many as conflicts were found. -/
  counted : L'.counters.contradictions = L.counters.contradictions + Ms.length

theorem Found.refl (Sat : IndexSet → Prop) (L : Learner) : Found Sat L L [] where
  minimal := nofun
  new := nofun
  apart := .nil
  recorded := fun _ => (or_iff_left List.not_mem_nil).symm
  size := rfl
  counted := rfl

/-- What was found only hangs on the background and on how many conflicts were counted. -/
theorem Found.congr {L'' : Learner} {Ms : List IndexSet} (h : Found Sat L L' Ms)
    (hbackground : L''.background = L'.background)
    (hcount : L''.counters.contradictions = L'.counters.contradictions) :
    Found Sat L L'' Ms where
  minimal := h.minimal
  new := h.new
  apart := h.apart
  recorded := by
    intro K
    rw [Contradicts, hbackground]
    exact h.recorded K
  size := hbackground ▸ h.size
  counted := hcount.trans h.counted

/-- A conflict that contains no contradiction known so far is a subset of none either, since it
is minimal. -/
theorem Found.trans {L'' : Learner} {Ms Ns : List IndexSet} (h : Found Sat L L' Ms)
    (h' : Found Sat L' L'' Ns) : Found Sat L L'' (Ms ++ Ns) where
  minimal := by
    intro M hM
    rcases List.mem_append.1 hM with hM | hM
    · exact h.minimal M hM
    · exact h'.minimal M hM
  new := by
    intro M hM K hK
    rcases List.mem_append.1 hM with hM | hM
    · exact h.new M hM K hK
    · exact h'.new M hM K ((h.recorded K).2 (.inl hK))
  apart := by
    rw [List.pairwise_append]
    refine ⟨h.apart, h'.apart, fun K hK M hM => ?_⟩
    have hnot : ¬ K ⊆ M := h'.new M hM K ((h.recorded K).2 (.inr hK))
    refine ⟨hnot, fun hsub => hnot ?_⟩
    have hsame : M = K := (h.minimal K hK).minimal M hsub (h'.minimal M hM).unsat
    exact hsame ▸ Subset.refl M
  recorded := by
    intro K
    rw [h'.recorded, h.recorded, List.mem_append, or_assoc]
  size := by
    rw [h'.size, h.size, List.length_append, Nat.add_assoc]
  counted := by
    rw [h'.counted, h.counted, List.length_append, Nat.add_assoc]

theorem Adds.found (h : L.Adds Sat d M) (hL : L.Wf issued s) {k : Counters}
    (hk : k.contradictions = L.counters.contradictions + 1) :
    Found Sat L { L with background := L.background.adding d, counters := k } [M] where
  minimal := by
    intro K hK
    exact List.mem_singleton.1 hK ▸ h.minimal
  new := by
    intro K hK
    exact List.mem_singleton.1 hK ▸ h.new
  apart := List.pairwise_singleton _ M
  recorded := by
    intro K
    rw [h.contradicts_iff hL, List.mem_singleton]
  size := h.size_adding hL
  counted := hk

end Learner

end Acquisition
