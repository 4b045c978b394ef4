import Acquisition.Backend
import Acquisition.Propositional.Contradiction
import Acquisition.Sat.Problem
import Acquisition.Proofs.Effect
import Acquisition.Proofs.Clauses
import Acquisition.Proofs.Solutions

/-!
# Contracts of the backends

What is asked of a backend says when it finds a model or a witness, and nothing
about which one it finds. A backend may also fail, as long as the failure and the
state it leaves are among those that the contract allows.

A propositional backend is asked only about atoms that it has handed out. Which
atoms these are, and the constraint that each stands for, is a matter of the state
of the world.
-/
namespace Acquisition

variable {σ : Type}

/-- The atoms handed out in a state of the world, each with its constraint. -/
abbrev Issued (σ : Type) := σ → Atom → ConstraintId → Prop

/-- What was handed out in the first state is still so in the second. -/
def Issued.Grows (issued : Issued σ) (s t : σ) : Prop := ∀ a c, issued s a c → issued t a c

/-- Some atom was handed out. -/
def Issued.Begun (issued : Issued σ) (s : σ) : Prop := ∃ a c, issued s a c

theorem Issued.Grows.begun {issued : Issued σ} {s t : σ} (h : issued.Grows s t)
    (hs : issued.Begun s) : issued.Begun t := by
  obtain ⟨a, c, hi⟩ := hs
  exact ⟨a, c, h a c hi⟩

theorem Issued.Grows.refl (issued : Issued σ) (s : σ) : issued.Grows s s := fun _ _ h => h

theorem Issued.Grows.trans {issued : Issued σ} {s t u : σ} (h : issued.Grows s t)
    (h' : issued.Grows t u) : issued.Grows s u := fun a c hi => h' a c (h a c hi)

/-- Every literal of the formula has an atom that was handed out for its constraint. -/
def Formula.Known (issued : Issued σ) (s : σ) (F : Formula) : Prop :=
  ∀ l ∈ Sat.Problem.literals F, issued s l.atom l.constraint

/-- A true answer about a formula: the constraints of the atoms that are mentioned
and true in some model, or nothing if there is no model. -/
def Formula.Answered (F : Formula) : Option Model → Prop
  | some m => ∃ v, F.Holds v ∧
      ∀ c, c ∈ m ↔ ∃ l ∈ Sat.Problem.literals F, l.constraint = c ∧ v l.atom = true
  | none => ∀ v, ¬ F.Holds v

/-- A true answer about a network: a solution, or nothing if there is none. -/
def Network.Answered (A : Arena) (dom : Ranges) (N : Network) : Option Query → Prop
  | some q => q.Solves A dom N
  | none => ¬ N.Satisfiable A dom

/-- The contract of a propositional backend that fails only as `Err` allows. -/
structure SatBackend.Lawful (B : SatBackend σ) (issued : Issued σ) (Err : Failure → σ → Prop) :
    Prop where
  allocate : ∀ c name s, (B.allocate c name).Leads s
    (fun l t => issued.Grows s t ∧ l.constraint = c ∧ l.negated = false ∧ issued t l.atom c ∧
      ∀ a d, issued s a d → a ≠ l.atom)
    (fun f t => issued.Grows s t ∧ Err f t)
  solve : ∀ F s, F.Known issued s → (B.solve F).Leads s
    (fun r t => issued.Grows s t ∧ F.Answered r) (fun f t => issued.Grows s t ∧ Err f t)
  setLimit : ∀ l s, (B.setLimit l).Leads s
    (fun _ t => issued.Grows s t) (fun f t => issued.Grows s t ∧ Err f t)

/-- What the contract says about a backend from which no more atoms are asked. -/
structure SatBackend.Solves (B : SatBackend σ) (issued : Issued σ) (Err : Failure → σ → Prop) :
    Prop where
  solve : ∀ F s, F.Known issued s → (B.solve F).Leads s
    (fun r t => issued.Grows s t ∧ F.Answered r) (fun f t => issued.Grows s t ∧ Err f t)
  setLimit : ∀ l s, (B.setLimit l).Leads s
    (fun _ t => issued.Grows s t) (fun f t => issued.Grows s t ∧ Err f t)

theorem SatBackend.Lawful.solves {B : SatBackend σ} {issued : Issued σ}
    {Err : Failure → σ → Prop} (h : B.Lawful issued Err) : B.Solves issued Err :=
  ⟨h.solve, h.setLimit⟩

/-- The contract of a constraint backend that fails only as `Err` allows. -/
structure CpBackend.Lawful (B : CpBackend σ) (dom : Ranges) (Err : Failure → σ → Prop) :
    Prop where
  witness : ∀ A N s, A.Built → N.Closed A →
    (B.witness A N).Leads s (fun r _ => N.Answered A dom r) Err

/-- A constraint backend leaves the atoms that were handed out alone. -/
structure CpBackend.Keeps (B : CpBackend σ) (issued : Issued σ) : Prop where
  witness : ∀ A N s, (B.witness A N).Leads s
    (fun _ t => issued.Grows s t) (fun _ t => issued.Grows s t)
  setLimit : ∀ l s, (B.setLimit l).Leads s
    (fun _ t => issued.Grows s t) (fun _ t => issued.Grows s t)

/-- The backend answers truly, keeps an invariant of the world, and fails only as
`Err` allows. -/
def CpBackend.Answers (B : CpBackend σ) (I : σ → Prop) (dom : Ranges) (Err : Failure → σ → Prop) :
    Prop :=
  ∀ A N s, A.Built → N.Closed A → I s →
    (B.witness A N).Leads s (fun r t => I t ∧ N.Answered A dom r) (fun f t => I t ∧ Err f t)

theorem CpBackend.Lawful.answers {B : CpBackend σ} {dom : Ranges} {Err : Failure → σ → Prop}
    (hB : B.Lawful dom Err) : B.Answers (fun _ => True) dom Err := fun A N s hA hN _ =>
  (hB.witness A N s hA hN).mono (fun _ _ h => ⟨trivial, h⟩) fun _ _ h => ⟨trivial, h⟩

/-- What only hangs on the atoms handed out is kept by a backend that leaves them alone. -/
theorem CpBackend.Lawful.answers_keeping {B : CpBackend σ} {dom : Ranges}
    {Err : Failure → σ → Prop} {issued : Issued σ} (hB : B.Lawful dom Err) (hk : B.Keeps issued)
    {I : σ → Prop} (hI : ∀ s t, I s → issued.Grows s t → I t) : B.Answers I dom Err :=
  fun A N s hA hN hs => ((hB.witness A N s hA hN).and (hk.witness A N s)).mono
    (fun _ t ⟨h, hg⟩ => ⟨hI s t hs hg, h⟩) fun _ t ⟨h, hg⟩ => ⟨hI s t hs hg, h⟩

/-- Whether a network has a solution is what a true answer tells. -/
theorem CpBackend.Answers.satisfiable {B : CpBackend σ} {I : σ → Prop} {dom : Ranges}
    {Err : Failure → σ → Prop} (hB : B.Answers I dom Err) {A : Arena} (hA : A.Built) {N : Network}
    (hN : N.Closed A) {s : σ} (hs : I s) :
    (B.satisfiable A N).Leads s (fun b t => I t ∧ (b = true ↔ N.Satisfiable A dom))
      (fun f t => I t ∧ Err f t) := by
  rw [CpBackend.satisfiable, Action.leads_map]
  refine (hB A N s hA hN hs).mono (fun r t ⟨ht, hr⟩ => ⟨ht, ?_⟩) fun _ _ h => h
  cases r with
  | none => exact iff_of_false nofun hr
  | some q => exact iff_of_true rfl (Query.Solves.satisfiable hr)

namespace Formula

theorem mem_literals {F : Formula} {l : Literal} : l ∈ Sat.Problem.literals F ↔
    (∃ c ∈ F.clauses, l ∈ c.literals) ∨ (∃ w, F.window = some w ∧ l ∈ w.clause.literals) ∨
      ∃ t ∈ F.objective, t.1 = l := by
  rw [Sat.Problem.literals]
  cases F.window with
  | none => simp
  | some w => simp

theorem mem_literals_addStore {F : Formula} {S : ClauseStore} {l : Literal} :
    l ∈ Sat.Problem.literals (F.addStore S) ↔
      l ∈ Sat.Problem.literals F ∨ ∃ c ∈ S.clauses, l ∈ c.literals := by
  simp only [mem_literals, clauses_addStore, List.mem_append]
  simp only [addStore, objective]
  grind

theorem mem_literals_ofStore {S : ClauseStore} {l : Literal} :
    l ∈ Sat.Problem.literals (ofStore S) ↔ ∃ c ∈ S.clauses, l ∈ c.literals := by
  rw [mem_literals, clauses_ofStore]
  simp [ofStore, addStore, empty, objective]

end Formula

/-- The table gives each constraint of a set a positive literal of its own, with an
atom that was handed out for it. -/
structure AtomTable.Assigns (issued : Issued σ) (s : σ) (b : IndexSet) (T : AtomTable) :
    Prop where
  literal : ∀ c ∈ b, ∃ l, T.literal c = .ok l ∧ l.negated = false ∧ l.constraint = c ∧
    issued s l.atom c
  apart : ∀ c ∈ b, ∀ d ∈ b, ∀ l m, T.literal c = .ok l → T.literal d = .ok m →
    l.atom = m.atom → c = d

theorem AtomTable.Assigns.grows {issued : Issued σ} {s t : σ} {b : IndexSet} {T : AtomTable}
    (h : T.Assigns issued s b) (hg : issued.Grows s t) : T.Assigns issued t b where
  literal := fun c hc => by
    obtain ⟨l, hl, hn, hlc, hi⟩ := h.literal c hc
    exact ⟨l, hl, hn, hlc, hg _ _ hi⟩
  apart := h.apart

namespace Contradiction

/-- A contradiction is recorded as a clause of the negated literals of its constraints. -/
theorem record_eq_ok {T : AtomTable} {S K : ClauseStore} {N : Network}
    (h : record T S N = .ok K) :
    ∃ d : Clause, K = S.adding d ∧ d.literals ≠ [] ∧
      (∀ c ∈ N.constraints, ∃ l, T.literal c = .ok l) ∧
      ∀ l, l ∈ d.literals ↔ ∃ c ∈ N.constraints, T.literal c = .ok l.negate := by
  unfold record at h
  split at h
  · cases h
  · next hne =>
    split at h
    · next d hd =>
      cases h
      rw [clause, Checked.bind_eq_ok] at hd
      obtain ⟨ls, hls, hd⟩ := hd
      cases hd
      have htable := fun c (hc : c ∈ N.constraints) =>
        Checked.mapM_ok_of_mem hls (IndexSet.mem_toList'.2 hc)
      refine ⟨_, rfl, fun hnil => ?_, fun c hc => ?_, fun l => ?_⟩
      · obtain ⟨c, hc⟩ := IndexSet.isEmpty_eq_false.1 (Bool.eq_false_iff.2 hne)
        obtain ⟨l, hl, -⟩ := htable c hc
        rw [← Clause.mem_ofList, hnil] at hl
        cases hl
      · obtain ⟨l, -, hl⟩ := htable c hc
        rw [Checked.map_eq_ok] at hl
        obtain ⟨m, hm, -⟩ := hl
        exact ⟨m, hm⟩
      · rw [Clause.mem_ofList, Checked.mem_of_mapM hls]
        refine exists_congr fun c => and_congr IndexSet.mem_toList' ?_
        rw [Checked.map_eq_ok]
        constructor
        · rintro ⟨m, hm, rfl⟩
          rwa [Literal.negate_negate]
        · exact fun hl => ⟨l.negate, hl, Literal.negate_negate l⟩
    · cases h

theorem exists_record {T : AtomTable} {S : ClauseStore} {N : Network}
    (hne : ∃ c, c ∈ N.constraints) (hN : ∀ c ∈ N.constraints, ∃ l, T.literal c = .ok l) :
    ∃ K, record T S N = .ok K := by
  obtain ⟨ls, hls⟩ := Checked.exists_mapM (fun c => Literal.negate <$> T.literal c)
    fun c (hc : c ∈ N.toList) => by
      obtain ⟨l, hl⟩ := hN c (IndexSet.mem_toList'.1 hc)
      exact ⟨l.negate, by rw [hl]; rfl⟩
  have hempty : N.isEmpty = false := IndexSet.isEmpty_eq_false.2 hne
  exact ⟨S.adding (.ofList ls), by rw [record, hempty, clause, hls]; rfl⟩

end Contradiction

/-- A true answer about a store. -/
def ClauseStore.Answered (S : ClauseStore) : Option Model → Prop
  | some m => ∃ v, S.Holds v ∧
      ∀ c, c ∈ m ↔ ∃ d ∈ S.clauses, ∃ l ∈ d.literals, l.constraint = c ∧ v l.atom = true
  | none => ∀ v, ¬ S.Holds v

/-- Every literal of the store has an atom that was handed out for its constraint. -/
def ClauseStore.Known (issued : Issued σ) (s : σ) (S : ClauseStore) : Prop :=
  ∀ c ∈ S.clauses, ∀ l ∈ c.literals, issued s l.atom l.constraint

theorem SatBackend.Solves.solveStore {B : SatBackend σ} {issued : Issued σ}
    {Err : Failure → σ → Prop} (hB : B.Solves issued Err) {S : ClauseStore} {s : σ}
    (hS : S.Known issued s) :
    (B.solveStore S).Leads s (fun r t => issued.Grows s t ∧ S.Answered r)
      (fun f t => issued.Grows s t ∧ Err f t) := by
  have hknown : (Formula.ofStore S).Known issued s := fun l hl => by
    obtain ⟨c, hc, hl⟩ := Formula.mem_literals_ofStore.1 hl
    exact hS c hc l hl
  refine (hB.solve _ s hknown).mono (fun r t ⟨hg, hr⟩ => ⟨hg, ?_⟩) fun _ _ h => h
  cases r with
  | none => exact fun v hv => hr v (Formula.holds_ofStore.2 hv)
  | some m =>
    obtain ⟨v, hv, hm⟩ := hr
    refine ⟨v, Formula.holds_ofStore.1 hv, fun c => (hm c).trans ?_⟩
    simp only [Formula.mem_literals_ofStore]
    grind

end Acquisition
