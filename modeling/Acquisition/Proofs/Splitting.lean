import Acquisition.Learner.Split
import Acquisition.Proofs.Answers
import Acquisition.Proofs.Weights

/-!
# The formula of a split

A valuation of the atoms is a model of the formula of a split if it is one of the theory,
if it meets what is asked about each undecided constraint, and if as many literals of the
pivot are true as the window has it. All literals of the formula are positive ones of the
table, so that a model names the constraints that it affirms.
-/
namespace Acquisition

open Checked IndexSet ClauseStore

variable {σ : Type} {issued : Issued σ} {s : σ}

namespace AtomTable

variable {T : AtomTable} {v : Atom → Bool}

/-- The atom of the constraint is true. -/
def Affirms (T : AtomTable) (v : Atom → Bool) (c : ConstraintId) : Prop :=
  ∃ l, T.literal c = .ok l ∧ v l.atom = true

theorem affirms_iff {c : ConstraintId} {l : Literal} (hl : T.literal c = .ok l) :
    T.Affirms v c ↔ v l.atom = true := by
  constructor
  · rintro ⟨m, hm, hv⟩
    rwa [Except.ok.inj (hl.symm.trans hm)]
  · exact fun hv => ⟨l, hl, hv⟩

theorem Names.holds_iff (h : T.Names issued s) {l : Literal} (hl : T.Lists l) :
    l.Holds v ↔ T.Affirms v l.constraint := by
  rw [affirms_iff hl, Literal.Holds, h.positive hl]
  rfl

theorem Names.holds_negated_iff (h : T.Names issued s) {l : Literal} (hl : T.Lists l.negate) :
    l.Holds v ↔ ¬ T.Affirms v l.constraint := by
  rw [← Literal.negate_negate l, Literal.holds_negate, h.holds_iff hl]
  rfl

/-- Some valuation affirms just the constraints of the table that hold by a predicate. -/
theorem Names.exists_affirming (h : T.Names issued s) (P : ConstraintId → Prop) :
    ∃ v, ∀ c l, T.literal c = .ok l → (T.Affirms v c ↔ P c) := by
  classical
  refine ⟨fun a => decide (∃ c l, T.literal c = .ok l ∧ l.atom = a ∧ P c), fun c l hl => ?_⟩
  rw [affirms_iff hl, decide_eq_true_iff]
  constructor
  · rintro ⟨d, m, hm, ha, hP⟩
    rwa [h.apart c d l m hl hm ha.symm]
  · exact fun hP => ⟨c, l, hl, rfl, hP⟩

end AtomTable

theorem Clause.containsConstraint_iff {c : Clause} {k : ConstraintId} :
    c.containsConstraint k = true ↔ ∃ l ∈ c.literals, l.constraint = k := by
  simp [containsConstraint]

/-- The widest window that splits a clause asks for a literal that is true and for one that
is not. -/
theorem Window.holds_widest {v : Atom → Bool} {c : Clause} :
    Window.Holds v ⟨c, 1, c.size - 1⟩ ↔ (∃ l ∈ c.literals, l.Holds v) ∧
      ∃ l ∈ c.literals, ¬ l.Holds v := by
  have hle := List.countP_le_length (p := fun l : Literal => decide (l.Holds v)) (l := c.literals)
  have hall := List.countP_eq_length (p := fun l : Literal => decide (l.Holds v)) (l := c.literals)
  have hsome : 1 ≤ c.literals.countP (fun l => decide (l.Holds v)) ↔
      ∃ l ∈ c.literals, l.Holds v := by simp
  have hnot : (∃ l ∈ c.literals, ¬ l.Holds v) ↔
      c.literals.countP (fun l => decide (l.Holds v)) ≠ c.literals.length := by
    rw [ne_eq, hall]
    simp
  rw [Window.Holds, hnot, ← hsome, Clause.size]
  dsimp only
  omega

theorem Window.Holds.widen {v : Atom → Bool} {c : Clause} {lower upper : Nat}
    (h : Window.Holds v ⟨c, lower, upper⟩) (hlower : 1 ≤ lower) (hupper : upper ≤ c.size - 1) :
    Window.Holds v ⟨c, 1, c.size - 1⟩ := ⟨hlower.trans h.1, h.2.trans hupper⟩

namespace Learner

variable {dom : Ranges} {Err : Failure → σ → Prop} {L : Learner} {pivot : Clause}
  {close : Bool}

/-- The bias has the constraint or its negation. -/
def Concerns (L : Learner) (c : ConstraintId) : Prop :=
  c ∈ L.bias.constraints ∨ Arena.twin c ∈ L.bias.constraints

/-- The positive literal of a constraint of the bias, or of the negation of one. -/
structure Voices (L : Learner) (l : Literal) : Prop where
  lists : L.atoms.Lists l
  concerns : L.Concerns l.constraint

theorem Wf.voices (hL : L.Wf issued s) {d : Clause} (hd : d ∈ L.theory.clauses) {l : Literal}
    (hl : l ∈ d.literals) : L.Voices l :=
  ⟨(hL.theory.listed d hd l hl).2, .inl (hL.theory.listed d hd l hl).1⟩

theorem Wf.voices_literal (hL : L.Wf issued s) {c : ConstraintId} (hc : c ∈ L.bias.constraints)
    {l : Literal} (hl : L.atoms.literal c = .ok l) : L.Voices l :=
  ⟨hL.names.lists hl, .inl ((hL.names.entry _ l hl).2.1 ▸ hc)⟩

theorem Wf.voices_twin (hL : L.Wf issued s) {c : ConstraintId} (hc : c ∈ L.bias.constraints)
    {l : Literal} (hl : L.atoms.literal (Arena.twin c) = .ok l) : L.Voices l := by
  refine ⟨hL.names.lists hl, .inr ?_⟩
  rwa [(hL.names.entry _ l hl).2.1, Arena.twin_twin]

/-- What a split asks of a valuation about an undecided constraint. -/
structure Demanded (L : Learner) (pivot : Clause) (close : Bool) (v : Atom → Bool)
    (c : ConstraintId) : Prop where
  either : pivot.containsConstraint c = true →
    L.atoms.Affirms v c ∨ L.atoms.Affirms v (Arena.twin c)
  outside : pivot.containsConstraint c = false → close = true →
    pivot.containsConstraint (Arena.twin c) = false → L.atoms.Affirms v c

/-- A store and an objective that state what is asked about some constraints. -/
structure Demands (L : Learner) (pivot : Clause) (close : Bool) (cs : List ConstraintId)
    (S : ClauseStore) (F : Formula) : Prop where
  valid : S.Valid
  holds_iff : ∀ v, S.Holds v ↔ L.theory.Holds v ∧ ∀ c ∈ cs, L.Demanded pivot close v c
  listed : ∀ d ∈ S.clauses, ∀ l ∈ d.literals, L.Voices l
  theory : ∀ d ∈ L.theory.clauses, ∀ l ∈ d.literals, ∃ e ∈ S.clauses, l ∈ e.literals
  mentions : ∀ c ∈ cs, pivot.containsConstraint c = true →
    ∀ l, L.atoms.literal (Arena.twin c) = .ok l → ∃ e ∈ S.clauses, l ∈ e.literals
  stores : F.stores = []
  window : F.window = none
  terms : ∀ t ∈ F.terms, L.Voices t.1

theorem Demands.start (hL : L.Wf issued s) :
    L.Demands pivot close [] L.theory Formula.empty where
  valid := hL.theory.valid
  holds_iff := fun v => by simp
  listed := fun d hd l hl => hL.voices hd hl
  theory := fun d hd l hl => ⟨d, hd, hl⟩
  mentions := nofun
  stores := rfl
  window := rfl
  terms := nofun

theorem bounds_within (L : Learner) (close : Bool) (size : Nat) :
    1 ≤ (L.bounds close size).1 ∧ (L.bounds close size).2 ≤ size - 1 := by
  rw [bounds]
  split
  · exact ⟨Nat.le_max_right _ _, Nat.min_le_right _ _⟩
  · exact ⟨Nat.le_refl _, Nat.le_refl _⟩

theorem bounds_wide (L : Learner) (size : Nat) : L.bounds false size = (1, size - 1) := rfl

/-- What is asked with another clause. -/
theorem Demands.adding {cs : List ConstraintId} {S : ClauseStore} {F F' : Formula}
    (h : L.Demands pivot close cs S F) {c : ConstraintId} {d : Clause}
    (hd : ∀ v, d.Holds v ↔ L.Demanded pivot close v c) (hlist : ∀ l ∈ d.literals, L.Voices l)
    (htwin : pivot.containsConstraint c = true →
      ∀ l, L.atoms.literal (Arena.twin c) = .ok l → l ∈ d.literals)
    (hstores : F'.stores = []) (hwindow : F'.window = none)
    (hterms : ∀ t ∈ F'.terms, L.Voices t.1) :
    L.Demands pivot close (cs ++ [c]) (S.adding d) F' where
  valid := h.valid.adding d
  holds_iff := fun v => by
    rw [holds_adding h.valid, h.holds_iff, hd, and_assoc]
    refine and_congr_right fun _ => ?_
    simp only [List.mem_append, List.mem_singleton, or_imp, forall_and, forall_eq]
  listed := fun e he l hl => by
    rcases mem_of_mem_adding h.valid he with rfl | he
    · exact hlist l hl
    · exact h.listed e he l hl
  theory := fun e he l hl => by
    obtain ⟨e', he', hl'⟩ := h.theory e he l hl
    exact ⟨e', mem_adding_of_mem h.valid d he', hl'⟩
  mentions := fun k hk hpivot l hl => by
    rcases List.mem_append.1 hk with hk | hk
    · obtain ⟨e, he, hle⟩ := h.mentions k hk hpivot l hl
      exact ⟨e, mem_adding_of_mem h.valid d he, hle⟩
    · rw [List.mem_singleton.1 hk] at hpivot hl
      obtain ⟨e, he, hde⟩ := exists_adding h.valid d
      exact ⟨e, he, hde ▸ htwin hpivot l hl⟩
  stores := hstores
  window := hwindow
  terms := hterms

/-- Nothing is asked about a constraint that does not matter. -/
theorem Demands.skip {cs : List ConstraintId} {S : ClauseStore} {F : Formula}
    (h : L.Demands pivot close cs S F) {c : ConstraintId}
    (hc : pivot.containsConstraint c = false)
    (hskip : ¬ (close = true ∧ pivot.containsConstraint (Arena.twin c) = false)) :
    L.Demands pivot close (cs ++ [c]) S F where
  valid := h.valid
  holds_iff := fun v => by
    have hc' : L.Demanded pivot close v c := by
      refine ⟨fun hin => ?_, fun _ h h' => absurd ⟨h, h'⟩ hskip⟩
      rw [hc] at hin
      cases hin
    rw [h.holds_iff]
    refine and_congr_right fun _ => ?_
    simp only [List.mem_append, List.mem_singleton, or_imp, forall_and, forall_eq, hc', and_true]
  listed := h.listed
  theory := h.theory
  mentions := fun k hk hpivot => by
    rcases List.mem_append.1 hk with hk | hk
    · exact h.mentions k hk hpivot
    · rw [List.mem_singleton.1 hk, hc] at hpivot
      cases hpivot
  stores := h.stores
  window := h.window
  terms := h.terms

/-- A constraint of the pivot is asked to be true, or else its negation. -/
theorem Demands.either (hL : L.Wf issued s) {cs : List ConstraintId} {S : ClauseStore}
    {F F' : Formula} (h : L.Demands pivot close cs S F) {c : ConstraintId}
    (hc : c ∈ L.bias.constraints) (hin : pivot.containsConstraint c = true) {l m : Literal}
    (hl : L.atoms.literal c = .ok l) (hm : L.atoms.literal (Arena.twin c) = .ok m)
    (hstores : F'.stores = F.stores) (hwindow : F'.window = F.window)
    (hterms : ∀ t ∈ F'.terms, t ∈ F.terms ∨ t.1 ∈ (Clause.ofList [l, m]).literals) :
    L.Demands pivot close (cs ++ [c]) (S.adding (Clause.ofList [l, m])) F' := by
  have hmem : ∀ n, n ∈ (Clause.ofList [l, m]).literals ↔ n = l ∨ n = m := fun n => by
    rw [Clause.mem_ofList, List.mem_pair]
  have hlist : ∀ n ∈ (Clause.ofList [l, m]).literals, L.Voices n := fun n hn => by
    rcases (hmem n).1 hn with rfl | rfl
    · exact hL.voices_literal hc hl
    · exact hL.voices_twin hc hm
  refine h.adding (fun v => ?_) hlist (fun _ n hn => ?_) (hstores.trans h.stores)
    (hwindow.trans h.window) fun t ht => (hterms t ht).elim (h.terms t) (hlist _)
  · have hholds : (Clause.ofList [l, m]).Holds v ↔
        L.atoms.Affirms v c ∨ L.atoms.Affirms v (Arena.twin c) := by
      simp [Clause.Holds, hL.names.holds_iff (hL.names.lists hl),
        hL.names.holds_iff (hL.names.lists hm), (hL.names.entry _ l hl).2.1,
        (hL.names.entry _ m hm).2.1]
    rw [hholds]
    refine ⟨fun h => ⟨fun _ => h, fun hout => ?_⟩, fun h => h.either hin⟩
    rw [hin] at hout
    cases hout
  · exact (hmem n).2 (.inr (Except.ok.inj (hn.symm.trans hm)))

/-- When the split is to be close, a constraint that neither stands in the pivot nor is the
negation of one that does is asked to be true. -/
theorem Demands.alone (hL : L.Wf issued s) {cs : List ConstraintId} {S : ClauseStore}
    {F : Formula} (h : L.Demands pivot close cs S F) {c : ConstraintId}
    (hc : c ∈ L.bias.constraints) (hout : pivot.containsConstraint c = false)
    (hclose : close = true ∧ pivot.containsConstraint (Arena.twin c) = false) {l : Literal}
    (hl : L.atoms.literal c = .ok l) :
    L.Demands pivot close (cs ++ [c]) (S.adding (.ofLiteral l)) F := by
  have hin : ¬ pivot.containsConstraint c = true := by simp [hout]
  refine h.adding (fun v => ?_) (fun n hn => ?_) (fun hpivot => absurd hpivot hin) h.stores
    h.window h.terms
  · have hholds : (Clause.ofLiteral l).Holds v ↔ L.atoms.Affirms v c := by
      simp [Clause.Holds, hL.names.holds_iff (hL.names.lists hl), (hL.names.entry _ l hl).2.1]
    rw [hholds]
    exact ⟨fun h => ⟨fun hpivot => absurd hpivot hin, fun _ _ _ => h⟩,
      fun h => h.outside hout hclose.1 hclose.2⟩
  · rw [Clause.literals_ofLiteral, List.mem_singleton] at hn
    exact hn ▸ hL.voices_literal hc hl

theorem leads_addDemand (hL : L.Wf issued s) {cs : List ConstraintId} {S : ClauseStore}
    {F : Formula} (h : L.Demands pivot close cs S F) {c : ConstraintId}
    (hc : c ∈ L.bias.constraints) :
    Action.Leads (addDemand pivot close S F c) (L, s)
      (fun r p => p = (L, s) ∧ L.Demands pivot close (cs ++ [c]) r.1 r.2)
      (fun f p => p = (L, s) ∧ f = .fault .overflow) := by
  obtain ⟨⟨l, hl⟩, m, hm⟩ := hL.atoms c hc
  simp only [addDemand, Action.leads_bind, Procedure.leads_own, leads_literal, leads_negation, hl,
    (hL.closed c hc).1.negation]
  refine ⟨fun l' e => ?_, by simp⟩
  cases e
  refine ⟨fun n e => ?_, by simp⟩
  cases e
  by_cases hin : pivot.containsConstraint c = true
  · rw [if_pos hin]
    simp only [Action.leads_bind, leads_literal, hm]
    refine ⟨fun m' e => ?_, by simp⟩
    cases e
    by_cases hw : L.settings.weighted.value = true
    · rw [if_pos hw, Action.leads_bind, Action.leads_ofChecked]
      refine ⟨fun G hG => ⟨rfl, ?_⟩, fun e he => ⟨rfl, ?_⟩⟩
      · obtain ⟨hstores, hwindow, hterms⟩ := Formula.addWeighed_eq_ok hG
        exact h.either hL hc hin hl hm hstores hwindow hterms
      · rw [Formula.addWeighed_error (fun n hn => ?_) he]
        rw [Clause.mem_ofList, List.mem_pair] at hn
        rcases hn with rfl | rfl
        · exact hL.registered _ n (hL.names.lists hl)
        · exact hL.registered _ n (hL.names.lists hm)
    · rw [if_neg hw]
      exact ⟨rfl, h.either hL hc hin hl hm rfl rfl fun t ht => .inl ht⟩
  · have hout : pivot.containsConstraint c = false := by simpa using hin
    rw [if_neg hin]
    split
    · next hclose =>
      rw [Bool.and_eq_true, Bool.not_eq_true'] at hclose
      exact ⟨rfl, h.alone hL hc hout hclose hl⟩
    · next hclose =>
      rw [Bool.and_eq_true, Bool.not_eq_true'] at hclose
      exact ⟨rfl, h.skip hout hclose⟩

/-- What the formula of a split says, and what it mentions. -/
structure Splits (L : Learner) (pivot : Clause) (close : Bool) (F : Formula) : Prop where
  holds_iff : ∀ v, F.Holds v ↔ L.theory.Holds v ∧
    (∀ c ∈ L.undecided.constraints, L.Demanded pivot close v c) ∧
    Window.Holds v ⟨pivot, (L.bounds close pivot.size).1, (L.bounds close pivot.size).2⟩
  listed : ∀ l ∈ Sat.Problem.literals F, L.Voices l
  theory : ∀ d ∈ L.theory.clauses, ∀ l ∈ d.literals, l ∈ Sat.Problem.literals F
  mentions : ∀ c ∈ L.undecided.constraints, pivot.containsConstraint c = true →
    ∀ l, L.atoms.literal (Arena.twin c) = .ok l → l ∈ Sat.Problem.literals F

theorem Demands.splits {S : ClauseStore} {F : Formula}
    (h : L.Demands pivot close L.undecided.toList S F)
    (hpivot : ∀ l ∈ pivot.literals, L.Voices l) :
    L.Splits pivot close ((F.addStore S).setWindow
      ⟨pivot, (L.bounds close pivot.size).1, (L.bounds close pivot.size).2⟩) := by
  have hclauses : ((F.addStore S).setWindow ⟨pivot, (L.bounds close pivot.size).1,
      (L.bounds close pivot.size).2⟩).clauses = S.clauses := by
    simp [Formula.setWindow, Formula.addStore, Formula.clauses, h.stores]
  have hmem : ∀ c, c ∈ L.undecided.toList ↔ c ∈ L.undecided.constraints := fun c => mem_toList'
  refine ⟨fun v => ?_, fun l hl => ?_, fun d hd l hl => ?_, fun c hc hin l hl => ?_⟩
  · have hS := h.holds_iff v
    simp only [hmem] at hS
    rw [← and_assoc, ← hS]
    constructor
    · refine fun hF => ⟨fun d hd => hF.clauses d ?_, hF.window _ rfl⟩
      rwa [hclauses]
    · rintro ⟨hS, hw⟩
      refine ⟨fun d hd => hS d ?_, fun w hw' => ?_⟩
      · rwa [hclauses] at hd
      · cases hw'
        exact hw
  · rcases Formula.mem_literals.1 hl with ⟨d, hd, hl⟩ | ⟨w, hw, hl⟩ | ⟨t, ht, rfl⟩
    · rw [hclauses] at hd
      exact h.listed d hd l hl
    · cases hw
      exact hpivot l hl
    · refine h.terms t ?_
      unfold Formula.objective at ht
      split at ht
      · cases ht
      · exact ht
  · obtain ⟨e, he, hle⟩ := h.theory d hd l hl
    exact Formula.mem_literals.2 (.inl ⟨e, by rwa [hclauses], hle⟩)
  · obtain ⟨e, he, hle⟩ := h.mentions c ((hmem c).2 hc) hin l hl
    exact Formula.mem_literals.2 (.inl ⟨e, by rwa [hclauses], hle⟩)

theorem leads_addDemands (hL : L.Wf issued s) {done cs : List ConstraintId} {S : ClauseStore}
    {F : Formula} (h : L.Demands pivot close done S F) (hcs : ∀ c ∈ cs, c ∈ L.bias.constraints) :
    Action.Leads (cs.foldlM (fun (S, F) c => addDemand pivot close S F c) (S, F) :
        Procedure Learner σ (ClauseStore × Formula)) (L, s)
      (fun r p => p = (L, s) ∧ L.Demands pivot close (done ++ cs) r.1 r.2)
      (fun f p => p = (L, s) ∧ f = .fault .overflow) := by
  induction cs generalizing done S F with
  | nil => exact ⟨rfl, by rwa [List.append_nil]⟩
  | cons c cs ih =>
    rw [List.foldlM_cons, Action.leads_bind]
    refine (leads_addDemand hL h (hcs c List.mem_cons_self)).mono (fun r p ⟨hp, hr⟩ => ?_)
      fun _ _ h => h
    subst hp
    have hih := ih hr fun d hd => hcs d (List.mem_cons_of_mem c hd)
    rwa [List.append_assoc, List.singleton_append] at hih

theorem leads_splitFormula (hL : L.Wf issued s) (hpivot : ∀ l ∈ pivot.literals, L.Voices l) :
    Action.Leads (splitFormula pivot close : Procedure Learner σ Formula) (L, s)
      (fun F p => p = (L, s) ∧ L.Splits pivot close F)
      (fun f p => p = (L, s) ∧ f = .fault .overflow) := by
  have hbias : ∀ c ∈ L.undecided.toList, c ∈ L.bias.constraints := fun c hc =>
    hL.undecided c (mem_toList'.1 hc)
  rw [splitFormula, Action.leads_bind, Procedure.leads_own, Action.leads_bind]
  refine (leads_addDemands hL (.start hL) hbias).mono (fun r p ⟨hp, hr⟩ => ?_) fun _ _ h => h
  subst hp
  exact ⟨rfl, hr.splits hpivot⟩

/-- A true answer about the formula of a split together with the background: a model, read
as constraints that it affirms. -/
def SplitAnswered (L : Learner) (F : Formula) : Option Model → Prop
  | none => ∀ v, F.Holds v → ¬ L.background.Holds v
  | some model => ∃ v, F.Holds v ∧ (∀ c ∈ model, L.atoms.Affirms v c) ∧
      ∀ l ∈ Sat.Problem.literals F, v l.atom = true → l.constraint ∈ model

/-- Each atom of the formula and of the background is that of a constraint of the table. -/
theorem Splits.exists_literal (hL : L.Wf issued s) {F : Formula} (hF : L.Splits pivot close F)
    {l : Literal} (hl : l ∈ Sat.Problem.literals (F.addStore L.background)) :
    ∃ m, L.atoms.literal l.constraint = .ok m ∧ m.atom = l.atom := by
  rcases Formula.mem_literals_addStore.1 hl with hl | ⟨d, hd, hl⟩
  · exact ⟨l, (hF.listed l hl).lists, rfl⟩
  · exact ⟨l.negate, hL.background d hd l hl, rfl⟩

theorem Splits.known (hL : L.Wf issued s) {F : Formula} (hF : L.Splits pivot close F) :
    (F.addStore L.background).Known issued s := by
  intro l hl
  obtain ⟨m, hm, ha⟩ := hF.exists_literal hL hl
  rw [← ha]
  exact (hL.names.entry _ m hm).2.2

theorem leads_solveSplit {sat : SatBackend σ} (hsat : sat.Lawful issued Err) (hL : L.Wf issued s)
    {F : Formula} (hF : L.Splits pivot close F) :
    (sat.solve (F.addStore L.background)).Leads s
      (fun r t => issued.Grows s t ∧ L.SplitAnswered F r)
      (fun f t => issued.Grows s t ∧ Err f t) := by
  refine (hsat.solve _ s (hF.known hL)).mono (fun r t h => ⟨h.1, ?_⟩) fun _ _ h => h
  have hr := h.2
  cases r with
  | none => exact fun v hv hb => hr v (Formula.holds_addStore.2 ⟨hv, hb⟩)
  | some model =>
    obtain ⟨v, hv, hmodel⟩ := hr
    refine ⟨v, (Formula.holds_addStore.1 hv).1, fun c hc => ?_, fun l hl hvl => ?_⟩
    · obtain ⟨l, hl, rfl, hvl⟩ := (hmodel c).1 hc
      obtain ⟨m, hm, ha⟩ := hF.exists_literal hL hl
      exact ⟨m, hm, ha ▸ hvl⟩
    · exact (hmodel _).2 ⟨l, Formula.mem_literals_addStore.2 (.inl hl), rfl, hvl⟩

end Learner

end Acquisition
