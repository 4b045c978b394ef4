import Acquisition.Proofs.Operations
import Acquisition.Proofs.WorkbenchContracts

/-!
# Sessions on the workbench

A learner is started on the workbench, over variables with values and constraints that have
variables, and then used in any order. In every state of such a session what is known is made
of clauses over atoms of the bias, each atom of a constraint of its own. No promise between
the parts of the learner is ever broken, so that only the failures remain that have another
cause: fuel or time that is spent, a query with no verdict or with one already, a sum that
leaves its word, a domain that is missing or has no room, or an oracle that fails.
-/
namespace Acquisition

open IndexSet

namespace Learner

section Starting

variable {σ : Type} {sat : SatBackend σ} {I : σ → Prop} {A : Arena} {s : σ}
  (hallocate : ∀ c name s, I s → (sat.allocate c name).Leads s (fun _ => I) fun _ => I)
include hallocate

theorem leads_registerAll_keeps {T : AtomTable} (cs : List ConstraintId) (hs : I s) :
    (registerAll sat A T cs).Leads s (fun _ => I) fun _ => I := by
  induction cs generalizing T s with
  | nil => exact hs
  | cons c cs ih =>
    rw [registerAll, List.foldlM_cons, Action.leads_bind, register]
    split
    · exact ih hs
    · rw [Action.leads_bind, Action.leads_ofChecked]
      refine ⟨fun name _ => ?_, fun _ _ => hs⟩
      rw [Action.leads_bind]
      apply (hallocate c name s hs).mono _ fun _ _ h => h
      intro l t ht
      rw [Action.leads_ofExcept]
      exact ⟨fun T' _ => ih ht, fun _ _ => ht⟩

/-- A start keeps what is kept wherever an atom is allocated. -/
theorem leads_start_keeps (settings : Settings) (bias : Bias) (known : Network) (hs : I s) :
    (start sat settings A bias known).Leads s (fun _ => I) fun _ => I := by
  rw [start, Action.leads_bind, Action.leads_ofChecked]
  refine ⟨fun B _ => ?_, fun _ _ => hs⟩
  rw [Action.leads_bind, Action.leads_ofChecked]
  refine ⟨fun due _ => ?_, fun _ _ => hs⟩
  rw [Action.leads_bind, Action.leads_ofChecked]
  refine ⟨fun dueKnown _ => ?_, fun _ _ => hs⟩
  rw [Action.leads_bind]
  exact leads_registerAll_keeps hallocate _ hs

end Starting

/-- What is known has the shape that the parts of a learner rely on. -/
structure Shaped (L : Learner) : Prop where
  /-- A clause of the theory has positive literals, those of constraints of the bias. -/
  theory : ∀ c ∈ L.theory.clauses, c.literals ≠ [] ∧ ∀ l ∈ c.literals,
    l.negated = false ∧ l.constraint ∈ L.bias.constraints ∧ L.atoms.literal l.constraint = .ok l
  /-- A clause of the background has the negated literals of constraints. -/
  background : ∀ c ∈ L.background.clauses, c.literals ≠ [] ∧ ∀ l ∈ c.literals,
    l.negated = true ∧ L.atoms.literal l.constraint = .ok l.negate
  /-- Constraints that are not the same have atoms that are not the same. -/
  apart : ∀ c d l m, L.atoms.literal c = .ok l → L.atoms.literal d = .ok m → c ≠ d →
    l.atom ≠ m.atom
  /-- The query on which a run collapsed can be looked up. -/
  collapsing : ∃ q, L.collapsingQuery = .ok q

theorem Intact.shaped {σ : Type} {sat : SatBackend σ} {issued : Issued σ} {dom : Ranges}
    {A : Arena} {R : IndexSet} {D : ConstraintId → Prop} {p : Learner × σ}
    (h : Intact sat issued dom A R D p) : p.1.Shaped where
  theory := by
    intro c hc
    refine ⟨h.wf.theory.nonEmpty c hc, fun l hl => ?_⟩
    obtain ⟨hbias, hlists⟩ := h.wf.theory.listed c hc l hl
    exact ⟨h.wf.names.positive hlists, hbias, hlists⟩
  background := by
    intro c hc
    refine ⟨h.nonEmpty c hc, fun l hl => ?_⟩
    have hlists := h.wf.background c hc l hl
    have hpositive := h.wf.names.positive hlists
    rw [Literal.negate, Bool.not_eq_false'] at hpositive
    exact ⟨hpositive, hlists⟩
  apart := by
    intro c d l m hl hm hne hsame
    exact hne (h.wf.names.apart c d l m hl hm hsame)
  collapsing := ⟨p.1.collapsing, collapsingQuery_eq h.wf⟩

end Learner

namespace Workbench

open Learner

variable {A : Arena} {bias : Bias} {known : Network} {W W' : Workbench} {L : Learner}
  {D : Domain} {R : IndexSet} {p p' : Learner × Workbench}

/-- The variables have values in the domains of the workbench, and each constraint has
variables. -/
structure Poses (W : Workbench) (A : Arena) (bias : Bias) (known : Network) : Prop where
  built : A.Built
  closed : bias.network.Closed A
  known : known.Closed A
  inhabited : ∀ v ∈ bias.scope, ∃ x, W.cp.domain.Allows v x
  mentions : ∀ c ∈ bias.constraints, ∃ v, A.Mentions c v

/-- A learner is intact on the workbench, where each constraint has variables. -/
abbrev InOrder (D : Domain) (A : Arena) (R : IndexSet) : Learner × Workbench → Prop :=
  Intact satBackend (issued D) D.Allows A R fun c => ∃ v, A.Mentions c v

/-- A learner that was just started is intact. -/
theorem Poses.inOrder (h : W.Poses A bias known) (hL : Fresh allocated A bias known L W')
    (hcp : W'.cp = W.cp) : InOrder W.cp.domain A bias.scope (L, W') where
  wf := by
    refine ⟨hL.wf.built, hL.wf.closed, hL.wf.known, ⟨fun c l hl => ?_, hL.wf.names.apart⟩,
      hL.wf.atoms, hL.wf.registered, hL.wf.undecided, hL.wf.theory, hL.wf.background, hL.wf.kept⟩
    obtain ⟨hpos, hc, hallocated⟩ := hL.wf.names.entry c l hl
    exact ⟨hpos, hc, congrArg (·.domain) hcp, hallocated⟩
  strategies := by
    rw [hL.strategies]
    exact List.forall_mem_nil _
  arena := hL.arena
  housed := by
    refine ⟨?_, ?_, fun c l _ hconcerns => ?_⟩
    · choose! f hf using h.inhabited
      exact ⟨f, hf⟩
    · rw [hL.scope]
      exact Subset.refl _
    · have hc := hconcerns (sat_frugal W.cp.domain)
      have hpaired := h.built.paired
      rw [Concerns, hL.bias, hL.bias] at hc
      rw [hL.arena]
      rcases hc with ⟨hc, -⟩ | ⟨hc, -⟩
      · exact ⟨(h.closed c hc).2, h.mentions c hc⟩
      · obtain ⟨v, hv⟩ := h.mentions _ hc
        refine ⟨fun v hv => ?_, v, hpaired.mentions_twin.1 hv⟩
        exact (h.closed _ hc).2 v (hpaired.mentions_twin.2 hv)
  nonEmpty := by
    rw [hL.background]
    exact List.forall_mem_nil _

/-- The limits of the workbench can be set at any time. -/
theorem limits (D : Domain) (F : Failure → Prop) : Limits backends (issued D) F where
  sat := fun _ _ => grows_of_eq rfl rfl
  cp := fun _ _ => grows_of_eq rfl rfl

/-- The oracle of the workbench does not meddle with its backends. -/
theorem ask_keeps (D : Domain) : Oracle.Keeps ask (issued D) := by
  intro q W
  rw [ask, Action.leads_zoom]
  unfold Action.Leads
  split
  · exact grows_of_eq rfl rfl
  · exact grows_of_eq rfl rfl

/-- A start leaves the search alone. -/
theorem leads_start_cp (settings : Settings) :
    (start satBackend settings A bias known).Leads W (fun _ W' => W'.cp = W.cp)
      fun _ W' => W'.cp = W.cp := by
  apply leads_start_keeps (I := fun W' : Workbench => W'.cp = W.cp) _ settings bias known rfl
  intro c name W' hW'
  exact leads_allocate c name hW'

/-- The states that come up when proper operations are called one after the other, whatever
each of them ends in. -/
abbrev Session (D : Domain) : Learner × Workbench → Learner × Workbench → Prop :=
  Relation.ReflTransGen fun p p' => ∃ op : Operation Workbench,
    op.Proper (issued D) p.1 ∧ p' = (Action.outcome (op.run backends) p).2

/-- A proper operation leaves a learner intact, and fails as is to be expected. -/
theorem InOrder.leads_run (hp : InOrder D A R p) {op : Operation Workbench}
    (hop : op.Proper (issued D) p.1) :
    Action.Leads (op.run backends) p (fun _ => InOrder D A R)
      (Bears (InOrder D A R) (op.Expects Tame)) :=
  op.leads_run (serves D A R) (fun _ _ h => h) (limits D Tame) hop hp

/-- In each state of a session the learner is intact. -/
theorem InOrder.of_session (hp : InOrder D A R p) (h : Session D p p') : InOrder D A R p' := by
  induction h with
  | refl => exact hp
  | tail _ hstep ih =>
    obtain ⟨op, hop, rfl⟩ := hstep
    exact (ih.leads_run hop).outcome (fun _ _ h => h) fun _ _ h => h.1

/-- The failures by which the parts of the acquisition tell that a promise between them was
broken, or that a constraint has no atom or was to have two. -/
inductive Breach : Failure → Prop
  | fault {f : Fault} : f ≠ .overflow → f ≠ .noRoom → Breach (.fault f)
  | doubleRegistration (c : ConstraintId) : Breach (.error (.doubleRegistration c))
  | missing (c : ConstraintId) : Breach (.error (.missing c))
  | unknownAtom (a : Atom) : Breach (.error (.unknownAtom a))

theorem not_breach_of_tame {f : Failure} (h : Tame f) : ¬ Breach f := by
  rintro (⟨hoverflow, hnoRoom⟩ | _ | _ | _)
  · cases h with
    | overflow => exact hoverflow rfl
    | noRoom => exact hnoRoom rfl
  · cases h
  · cases h
  · cases h

/-- The oracle of an operation itself gives the failure. -/
def Raises (op : Operation Workbench) (f : Failure) : Prop :=
  ∃ oracle q W W', op.oracle? = some oracle ∧ (oracle q).outcome W = (.error f, W')

theorem raises_of_breach {op : Operation Workbench} {f : Failure} (h : op.Expects Tame f)
    (hbreach : Breach f) : Raises op f := by
  cases h with
  | outOfFuel => cases hbreach
  | timeout => cases hbreach
  | unknown => cases hbreach
  | classified => cases hbreach
  | overflow => exact absurd hbreach (not_breach_of_tame .overflow)
  | backend hf => exact absurd hbreach (not_breach_of_tame hf)
  | oracle horacle hf => exact ⟨_, _, _, _, horacle, hf⟩

/-- A start on the workbench breaks no promise. In every state that comes up afterwards what is
known has its shape, and no proper operation breaks a promise: it only fails with a breach where
the oracle that is given along with it does. -/
theorem sessions_keep_promises (h : W.Poses A bias known) (settings : Settings) :
    (start satBackend settings A bias known).Leads W
      (fun L W' => ∀ p, Session W.cp.domain (L, W') p → p.1.Shaped ∧
        ∀ op : Operation Workbench, op.Proper (issued W.cp.domain) p.1 →
          Action.Leads (op.run backends) p (fun _ _ => True) fun f _ => Breach f → Raises op f)
      fun f _ => ¬ Breach f := by
  have hstart := leads_start sat_lawful settings h.built h.closed h.known (s := W)
  apply (hstart.and (leads_start_cp settings)).mono
  · rintro L W' ⟨⟨-, hfresh⟩, hcp⟩ p hsession
    have hp := (h.inOrder hfresh hcp).of_session hsession
    refine ⟨hp.shaped, fun op hop => ?_⟩
    apply (hp.leads_run hop).mono
    · exact fun _ _ _ => trivial
    · exact fun f p' hf => raises_of_breach hf.2
  · rintro f W' ⟨⟨-, hf⟩, -⟩
    exact not_breach_of_tame hf

/-! ### A session -/

/-- The small instance on the workbench, where the oracle accepts the queries on which the
first variable is zero and the second one is one. -/
def bench : Workbench where
  cp := { domain := Exhaustive.bits, stream := .ofSeed 1 }
  oracle := { judgement := .network Exhaustive.sample Exhaustive.wanted }

theorem poses_bench : bench.Poses Exhaustive.sample Exhaustive.doubled {} where
  built := Exhaustive.built_sample
  closed := Exhaustive.closed_doubled
  known := Exhaustive.closed_nothing _
  inhabited := by
    intro v hv
    have hv' : v = 0 ∨ v = 1 := by simpa [Exhaustive.doubled, Bias.scope, Bias.ofNetwork] using hv
    rcases hv' with rfl | rfl
    · exact ⟨0, ⟨0, 1⟩, rfl, by decide, by decide⟩
    · exact ⟨0, ⟨0, 1⟩, rfl, by decide, by decide⟩
  mentions := by
    intro c hc
    have h : Exhaustive.doubled.toList.all (fun c => [0, 1].any fun v =>
        ((Exhaustive.sample.term c).toOption.map (·.scope.contains v)).getD false) = true := by
      decide +kernel
    rw [List.all_eq_true] at h
    obtain ⟨v, -, hv⟩ := List.any_eq_true.1 (h c (mem_toList'.2 hc))
    cases ht : Exhaustive.sample.term c with
    | ok t =>
      rw [ht] at hv
      exact ⟨v, t, ht, hv⟩
    | error e =>
      rw [ht] at hv
      cases hv

/-- Settings under which nothing is left to chance. -/
def quiet : Settings := { samplingBudget := ⟨"sampling_budget", .zero, .longest, .zero⟩ }

/-- What is called on the small instance once its first contradiction is known. -/
def calls : List (Operation Workbench) :=
  [.ask ask (Query.ofPairs [(0, 1), (1, 1)]), .generate 10, .process ask 20]

/-- The state after some operations. -/
def after (ops : List (Operation Workbench)) (p : Learner × Workbench) : Learner × Workbench :=
  ops.foldl (fun p op => (Action.outcome (op.run backends) p).2) p

theorem session_after {ops : List (Operation Workbench)}
    (h : ∀ op ∈ ops, ∀ L, op.Proper (issued D) L) : Session D p (after ops p) := by
  induction ops generalizing p with
  | nil => exact .refl
  | cons op ops ih =>
    rw [List.forall_mem_cons] at h
    exact .head ⟨op, h.1 p.1, rfl⟩ (ih h.2)

theorem proper_calls : ∀ op ∈ calls, ∀ L, op.Proper (issued D) L := by
  rw [calls, List.forall_mem_cons, List.forall_mem_cons, List.forall_mem_singleton]
  refine ⟨fun L => ⟨?_, nofun, nofun, nofun⟩, fun L => ⟨nofun, nofun, nofun, nofun⟩,
    fun L => ⟨?_, nofun, nofun, nofun⟩⟩
  · rintro oracle ⟨⟩
    exact ask_keeps D
  · rintro oracle ⟨⟩
    exact ask_keeps D

theorem proper_background {L : Learner}
    (h : Exhaustive.clash.toList.all L.atoms.contains = true) :
    (Operation.background [Exhaustive.clash]).Proper (issued D) L where
  oracle := nofun
  free := nofun
  background := by
    rintro Ns hNs N hN
    cases hNs
    rw [List.mem_singleton.1 hN]
    refine ⟨⟨0, by decide +kernel⟩, fun c hc => ?_⟩
    obtain ⟨l, hl⟩ := Option.isSome_iff_exists.1 (List.all_eq_true.1 h c (mem_toList'.2 hc))
    exact ⟨l, by rw [AtomTable.literal, hl]⟩
  strategies := nofun

/-- A session on the small instance records contradictions and learns three constraints, and
no promise is broken in it. -/
theorem session_learns_on_bench : ∃ L W p,
    (start satBackend quiet Exhaustive.sample Exhaustive.doubled {}).outcome bench = (.ok L, W) ∧
    Session Exhaustive.bits (L, W) p ∧ p.1.background.size = 3 ∧ p.1.theory.size = 3 ∧
    p.1.Shaped ∧ ∀ op : Operation Workbench, op.Proper (issued Exhaustive.bits) p.1 →
      Action.Leads (op.run backends) p (fun _ _ => True) fun f _ => Breach f → Raises op f := by
  have h : (match (start satBackend quiet Exhaustive.sample Exhaustive.doubled {}).outcome
      bench with
    | (.ok L, W) => Exhaustive.clash.toList.all L.atoms.contains &&
        let p := after calls (after [.background [Exhaustive.clash]] (L, W))
        p.1.background.size == 3 && p.1.theory.size == 3
    | (.error _, _) => false) = true := by
    decide +kernel
  have hpromises := sessions_keep_promises poses_bench quiet
  unfold Action.Leads at hpromises
  split at h
  · next L W hL =>
    rw [hL] at hpromises
    simp only [Bool.and_eq_true, beq_iff_eq] at h
    obtain ⟨htable, hbackground, htheory⟩ := h
    have hsession : Session Exhaustive.bits (L, W)
        (after calls (after [.background [Exhaustive.clash]] (L, W))) :=
      .head ⟨_, proper_background htable, rfl⟩ (session_after proper_calls)
    exact ⟨L, W, _, hL, hsession, hbackground, htheory, hpromises _ hsession⟩
  · cases h

end Workbench

end Acquisition
