import Acquisition.Workbench
import Acquisition.Proofs.Backtracking
import Acquisition.Proofs.Novelty
import Acquisition.Proofs.Optimality

/-!
# The backends of the workbench keep their contracts

The solver gives the right answer about a formula over atoms that it allocated, within its
limit. Among the models that cost as much it finds the least one, and so a model names no
constraint that it could do without.

The search never looks at a constraint without variables, and a variable without a domain is
an error. About the other networks it tells the truth, within its limit again.
-/
namespace Acquisition

open Checked IndexSet

/-- How a backend of the workbench may fail. -/
inductive Tame : Failure → Prop
  | overflow : Tame (.fault .overflow)
  | noRoom : Tame (.fault .noRoom)
  | timeout : Tame (.error .backendTimeout)
  | unknownVariable (v : Var) : Tame (.error (.unknownVariable v))

section Wrappers

variable {σ : Type} {s : σ}

theorem SatBackend.leads_traced {B : SatBackend σ} {note : Call → σ → σ} {F : Formula}
    {Q : Option Model → σ → Prop} {E : Failure → σ → Prop} :
    ((B.traced note).solve F).Leads s Q E ↔
      (B.solve F).Leads s (fun r t => Q r (note (.sat F (.ok r)) t))
        (fun f t => E f (note (.sat F (.error f)) t)) := by
  have hstep : ((B.traced note).solve F).outcome s = (((B.solve F).outcome s).1,
      note (.sat F ((B.solve F).outcome s).1) ((B.solve F).outcome s).2) := rfl
  unfold Action.Leads
  rw [hstep]
  generalize (B.solve F).outcome s = p
  obtain ⟨_ | _, t⟩ := p
  · rfl
  · rfl

theorem CpBackend.leads_traced {B : CpBackend σ} {note : Call → σ → σ} {A : Arena} {N : Network}
    {Q : Option Query → σ → Prop} {E : Failure → σ → Prop} :
    ((B.traced note).witness A N).Leads s Q E ↔
      (B.witness A N).Leads s (fun r t => Q r (note (.cp N (.ok r)) t))
        (fun f t => E f (note (.cp N (.error f)) t)) := by
  have hstep : ((B.traced note).witness A N).outcome s = (((B.witness A N).outcome s).1,
      note (.cp N ((B.witness A N).outcome s).1) ((B.witness A N).outcome s).2) := rfl
  unfold Action.Leads
  rw [hstep]
  generalize (B.witness A N).outcome s = p
  obtain ⟨_ | _, t⟩ := p
  · rfl
  · rfl

/-- Where a limited backend is reached it is reached in the world itself, or after a call was
spent. -/
theorem CpBackend.leads_limited {B : CpBackend σ} {left : σ → Option Nat} {spend : σ → σ}
    {A : Arena} {N : Network} {Q : Option Query → σ → Prop} {E : Failure → σ → Prop}
    (hreached : (B.witness A N).Leads s Q E) (hspent : (B.witness A N).Leads (spend s) Q E)
    (htimeout : E (.error .backendTimeout) s) :
    ((B.limited left spend).witness A N).Leads s Q E := by
  rw [limited, Action.leads_bind, Action.leads_get]
  split
  · exact hreached
  · exact htimeout
  · rw [Action.leads_bind, Action.leads_modify]
    exact hspent

end Wrappers

namespace Sat.Dpll

open Problem

variable {D : Dpll} {F : Formula} {m : Model} {v : Atom → Bool} {c : ConstraintId}

/-- The atoms were allocated for the constraints that the formula takes them for. -/
def Fits (D : Dpll) (F : Formula) : Prop :=
  ∀ l ∈ literals F, (D.atoms[l.atom]?).map (·.1) = some l.constraint

theorem lt_of_atoms {a : Atom} (h : (D.atoms[a]?).map (·.1) = some c) : a < D.atoms.size := by
  obtain ⟨e, he, -⟩ := Option.map_eq_some_iff.1 h
  exact (Array.getElem?_eq_some_iff.1 he).1

/-- The solver gives the right answer, unless its limit has passed or a sum leaves its word.
It keeps its atoms. -/
theorem leads_solve (hF : D.Fits F) :
    (solve F).Leads D (fun r D' => D.Optimal F r ∧ D'.atoms = D.atoms)
      (fun f D' => Tame f ∧ D'.atoms = D.atoms) := by
  apply (solve_spec D F).mono (fun _ _ h => h)
  rintro f D' ⟨hf, hatoms⟩
  refine ⟨?_, hatoms⟩
  cases hf with
  | unknown hl hsize => exact absurd (lt_of_atoms (hF _ hl)) (Nat.not_lt.2 hsize)
  | late _ => exact .timeout
  | spills _ => exact .overflow

theorem mem_atoms {a : Atom} : a ∈ Exhaustive.atoms F ↔ ∃ l ∈ literals F, l.atom = a := by
  rw [Exhaustive.atoms, mem_toList', mem_ofList, List.mem_map]

/-- A model names the constraints of the true atoms. -/
theorem Fits.mem_model (hF : D.Fits F)
    (hm : m.map some = ((Exhaustive.atoms F).filter v).map fun a => (D.atoms[a]?).map (·.1)) :
    c ∈ m ↔ ∃ l ∈ literals F, l.constraint = c ∧ v l.atom = true := by
  have hsome : c ∈ m ↔ some c ∈ m.map some := by simp
  rw [hsome, hm, List.mem_map]
  constructor
  · rintro ⟨a, ha, hc⟩
    obtain ⟨ha, hv⟩ := List.mem_filter.1 ha
    obtain ⟨l, hl, rfl⟩ := mem_atoms.1 ha
    rw [hF l hl] at hc
    exact ⟨l, hl, Option.some.inj hc, hv⟩
  · rintro ⟨l, hl, rfl, hv⟩
    exact ⟨l.atom, List.mem_filter.2 ⟨mem_atoms.2 ⟨l, hl, rfl⟩, hv⟩, hF l hl⟩

theorem Optimal.answered {r : Option Model} (h : D.Optimal F r) (hF : D.Fits F) :
    F.Answered r := by
  cases r with
  | none => exact h.1.1 rfl
  | some m =>
    obtain ⟨v, hv, -, -, hm⟩ := h.2 m rfl
    exact ⟨v, hv, fun c => hF.mem_model hm⟩

/-- An atom that is only mentioned negated may as well be false. -/
theorem holds_without (hF : F.Positive) (hv : F.Holds v) {a : Atom} (ha : v a = true)
    (hneg : ∀ l ∈ literals F, l.atom = a → l.negated = true) :
    F.Holds (Function.update v a false) where
  clauses := by
    intro d hd
    obtain ⟨l, hl, hlv⟩ := hv.clauses d hd
    refine ⟨l, hl, ?_⟩
    have hother : l.atom ≠ a := by
      intro hsame
      have hnegated := hneg l (Formula.mem_literals.2 (.inl ⟨d, hd, hl⟩)) hsame
      rw [Literal.Holds, hsame, ha, hnegated] at hlv
      cases hlv
    rw [Literal.Holds, Function.update_of_ne hother]
    exact hlv
  window := by
    intro w hw
    have hsame : ∀ l ∈ w.clause.literals, Function.update v a false l.atom = v l.atom := by
      intro l hl
      apply Function.update_of_ne
      intro hatom
      have hnegated := hneg l (Formula.mem_literals.2 (.inr (.inl ⟨w, hw, hl⟩))) hatom
      rw [hF.window w hw l hl] at hnegated
      cases hnegated
    have hcount : w.clause.literals.countP (fun l => decide (l.Holds (Function.update v a false))) =
        w.clause.literals.countP fun l => decide (l.Holds v) := by
      apply List.countP_congr
      intro l hl
      rw [decide_eq_true_iff, decide_eq_true_iff, Literal.Holds, Literal.Holds, hsame l hl]
    rw [Window.Holds, hcount]
    exact hv.window w hw

/-- The best model names no constraint that is only mentioned negated: without it the cost is
the same, and the model is a lower one. -/
theorem Optimal.frugal (h : D.Optimal F (some m)) (hF : D.Fits F) (hpos : F.Positive)
    (hc : c ∈ m) : ∃ l ∈ literals F, l.negated = false ∧ l.constraint = c := by
  obtain ⟨v, hv, -, hfirst, hm⟩ := h.2 m rfl
  obtain ⟨l, hl, rfl, hlv⟩ := (hF.mem_model hm).1 hc
  by_contra hno
  have hneg : ∀ k ∈ literals F, k.atom = l.atom → k.negated = true := by
    intro k hk hatom
    have hsame : k.constraint = l.constraint := by
      have hfits := hF k hk
      rw [hatom, hF l hl] at hfits
      exact (Option.some.inj hfits).symm
    by_contra hpositive
    exact hno ⟨k, hk, Bool.eq_false_iff.2 hpositive, hsame⟩
  have hcost : costOf F.objective (Function.update v l.atom false) = costOf F.objective v := by
    apply costOf_congr
    intro t ht
    apply Function.update_of_ne
    intro hatom
    have hnegated := hneg t.1 (Formula.mem_literals.2 (.inr (.inr ⟨t, ht, rfl⟩))) hatom
    rw [hpos.objective t ht] at hnegated
    cases hnegated
  rcases hfirst _ (holds_without hpos hv hlv hneg) hcost with hsame | ⟨b, -, hb, hwb, -⟩
  · have hfalse := hsame l.atom (mem_atoms.2 ⟨l, hl, rfl⟩)
    rw [Function.update_self, hlv] at hfalse
    cases hfalse
  · by_cases hatom : b = l.atom
    · rw [hatom, Function.update_self] at hwb
      cases hwb
    · rw [Function.update_of_ne hatom, hb] at hwb
      cases hwb

end Sat.Dpll

namespace Witness.Searcher

variable {A : Arena} {N : Network} {S : Searcher}

theorem tame_of_values {D : Domain} {v : Var} {e : Failure} (h : values D v = .error e) :
    Tame e := by
  unfold values at h
  split at h
  · next i _ =>
    unfold Interval.list at h
    split at h
    · cases h
    · cases h
      exact .noRoom
  · cases h
    exact .unknownVariable v

theorem tame_of_levels {D : Domain} {e : Failure} (hN : N.Closed A)
    (h : levels D A N = .error e) : Tame e := by
  unfold levels at h
  rw [bind_eq_error] at h
  rcases h with hvalued | ⟨valued, -, h⟩
  · obtain ⟨v, -, he⟩ := mapM_eq_error hvalued
    exact tame_of_values (pair_eq_error.1 he)
  · obtain ⟨ms, hms⟩ := exists_mentions hN
    rw [hms] at h
    cases h

/-- What the search tells about a network. -/
structure Tells (A : Arena) (dom : Ranges) (N : Network) (r : Option Query) : Prop where
  refutes : r = none → ∀ f, ¬ Passes A dom N f
  finds : ∀ q, r = some q →
    N.scope ⊆ q.scope ∧ Passes A dom N q.valuation ∧ q.verdict = none

/-- The search tells whether the constraints with variables have a solution, unless it fails.
The domains stay as they are. -/
theorem leads_witness (hN : N.Closed A) :
    (witness A N).Leads S
      (fun r S' => Tells A S.domain.Allows N r ∧ S'.domain = S.domain)
      (fun e S' => Tame e ∧ S'.domain = S.domain) := by
  rw [witness]
  simp only [Action.leads_bind, Action.leads_modify, Action.leads_get, Action.leads_ofExcept]
  constructor
  · intro ls hls
    split
    · exact ⟨.timeout, rfl⟩
    · rw [Action.leads_bind, Action.leads_set, Action.leads_bind, Action.leads_ofChecked]
      constructor
      · intro r hr
        refine ⟨⟨?_, ?_⟩, rfl⟩
        · intro hnone
          rw [Option.map_eq_none_iff] at hnone
          rw [hnone] at hr
          exact explore_levels_none hls hr
        · intro q hq
          obtain ⟨found, rfl, rfl⟩ := Option.map_eq_some_iff.1 hq
          obtain ⟨hscope, hpasses⟩ := explore_levels_some hN hls hr
          exact ⟨hscope, hpasses, rfl⟩
      · intro e he
        obtain ⟨rfl, -⟩ := explore_error (levels_eq_ok hls).2 (List.forall_mem_nil _)
          (fun c hc => (hN c hc).1) he
        exact ⟨.overflow, rfl⟩
  · exact fun e he => ⟨tame_of_levels hN he, trivial⟩

/-- A network whose constraints have variables is answered truly. -/
theorem Tells.answered {dom : Ranges} {r : Option Query} (h : Tells A dom N r)
    (hvars : ∀ c ∈ N.constraints, ∃ v, A.Mentions c v) : N.Answered A dom r := by
  cases r with
  | none =>
    rintro ⟨f, hwithin, hholds⟩
    exact h.refutes rfl f ⟨hwithin, fun c hc _ => hholds c hc⟩
  | some q =>
    obtain ⟨hscope, hpasses, hverdict⟩ := h.finds q rfl
    exact ⟨hscope, hpasses.within, fun c hc => hpasses.holds c hc (hvars c hc), hverdict⟩

/-- Whatever the network, the domains stay as they are. -/
theorem witness_domain (A : Arena) (N : Network) (S : Searcher) :
    (witness A N).Leads S (fun _ S' => S'.domain = S.domain)
      (fun _ S' => S'.domain = S.domain) := by
  rw [witness]
  simp only [Action.leads_bind, Action.leads_modify, Action.leads_get, Action.leads_ofExcept]
  constructor
  · intro ls _
    split
    · exact rfl
    · rw [Action.leads_bind, Action.leads_set, Action.leads_bind, Action.leads_ofChecked]
      exact ⟨fun _ _ => rfl, fun _ _ => rfl⟩
  · exact fun _ _ => trivial

end Witness.Searcher

namespace Workbench

variable {D : Domain} {A : Arena} {N : Network} {W : Workbench}

/-- The atoms that were handed out. -/
def allocated : Issued Workbench := fun W a c => (W.sat.atoms[a]?).map (·.1) = some c

/-- The same in a world where the variables have the given domains. -/
def issued (D : Domain) : Issued Workbench := fun W a c => W.cp.domain = D ∧ allocated W a c

theorem domain_of_begun (h : (issued D).Begun W) : W.cp.domain = D := by
  obtain ⟨a, c, hdomain, -⟩ := h
  exact hdomain

/-- Where atoms and domains stay as they are, what was handed out does. -/
theorem grows_of_eq {W W' : Workbench} (hatoms : W'.sat.atoms = W.sat.atoms)
    (hdomain : W'.cp.domain = W.cp.domain) : (issued D).Grows W W' := by
  intro a c h
  refine ⟨hdomain.trans h.1, ?_⟩
  rw [allocated, hatoms]
  exact h.2

theorem grows_allocated {W W' : Workbench} (h : W'.sat.atoms = W.sat.atoms) :
    allocated.Grows W W' := by
  intro a c hissued
  rw [allocated, h]
  exact hissued

/-- An atom is the number of those that were handed out before it. -/
theorem leads_allocate (c : ConstraintId) (name : String) {Q : Literal → Workbench → Prop}
    {E : Failure → Workbench → Prop}
    (h : Q { atom := W.sat.atoms.size, constraint := c }
      { W with sat := { W.sat with atoms := W.sat.atoms.push (c, name) } }) :
    (satBackend.allocate c name).Leads W Q E := by
  have hallocate : satBackend.allocate c name =
      (Sat.Dpll.allocate c name).zoom (·.sat) (fun S W => { W with sat := S }) := rfl
  rw [hallocate, Action.leads_zoom]
  exact h

/-- The solver of the workbench is asked, and the call is logged. -/
theorem leads_solve {F : Formula} {Q : Option Model → Workbench → Prop}
    {E : Failure → Workbench → Prop}
    (h : (Sat.Dpll.solve F).Leads W.sat (fun r S => ∀ log, Q r { W with sat := S, log := log })
      fun f S => ∀ log, E f { W with sat := S, log := log }) :
    (satBackend.solve F).Leads W Q E := by
  rw [satBackend, SatBackend.leads_traced, Action.leads_zoom]
  exact h.mono (fun _ _ h => h _) fun _ _ h => h _

/-- The search of the workbench is asked, if calls are left, and the call is logged. -/
theorem leads_witness {Q : Option Query → Workbench → Prop} {E : Failure → Workbench → Prop}
    (h : (Witness.Searcher.witness A N).Leads W.cp
      (fun r S => ∀ left log, Q r { W with cp := S, callsLeft := left, log := log })
      fun f S => ∀ left log, E f { W with cp := S, callsLeft := left, log := log })
    (htimeout : E (.error .backendTimeout) W) : (cpBackend.witness A N).Leads W Q E := by
  rw [cpBackend]
  apply CpBackend.leads_limited _ _ htimeout
  · rw [CpBackend.leads_traced, Action.leads_zoom]
    exact h.mono (fun _ _ h => h _ _) fun _ _ h => h _ _
  · rw [CpBackend.leads_traced, Action.leads_zoom]
    exact h.mono (fun _ _ h => h _ _) fun _ _ h => h _ _

/-- The failures of the backends, in every world. -/
def Err : Failure → Workbench → Prop := fun f _ => Tame f

/-- A formula over atoms that were handed out is answered truly, and the atoms and the search
stay as they are. -/
theorem leads_solve_answered {F : Formula} (hF : F.Known allocated W) :
    (satBackend.solve F).Leads W
      (fun r W' => (W'.sat.atoms = W.sat.atoms ∧ W'.cp = W.cp) ∧ F.Answered r)
      (fun f W' => (W'.sat.atoms = W.sat.atoms ∧ W'.cp = W.cp) ∧ Err f W') := by
  apply leads_solve
  apply (Sat.Dpll.leads_solve hF).mono
  · exact fun r S h log => ⟨⟨h.2, rfl⟩, h.1.answered hF⟩
  · exact fun f S h log => ⟨⟨h.2, rfl⟩, h.1⟩

theorem known_allocated {F : Formula} (h : F.Known (issued D) W) : F.Known allocated W :=
  fun l hl => (h l hl).2

/-- An atom that is handed out is a new one. -/
theorem sat_lawful : satBackend.Lawful allocated Err where
  allocate := by
    intro c name W
    apply leads_allocate
    refine ⟨?_, rfl, rfl, ?_, ?_⟩
    · intro a d h
      have hlt : a < W.sat.atoms.size := Sat.Dpll.lt_of_atoms h
      rwa [allocated, Array.getElem?_push_lt hlt, ← Array.getElem?_eq_getElem hlt]
    · rw [allocated, Array.getElem?_push_size]
      rfl
    · exact fun a d h => (Sat.Dpll.lt_of_atoms h).ne
  solve := by
    intro F W hF
    apply (leads_solve_answered hF).mono
    · rintro r W' ⟨⟨hatoms, -⟩, h⟩
      exact ⟨grows_allocated hatoms, h⟩
    · rintro f W' ⟨⟨hatoms, -⟩, h⟩
      exact ⟨grows_allocated hatoms, h⟩
  setLimit := fun l W => grows_allocated rfl

theorem sat_solves (D : Domain) : satBackend.Solves (issued D) Err where
  solve := by
    intro F W hF
    apply (leads_solve_answered (known_allocated hF)).mono
    · rintro r W' ⟨⟨hatoms, hcp⟩, h⟩
      exact ⟨grows_of_eq hatoms (congrArg (·.domain) hcp), h⟩
    · rintro f W' ⟨⟨hatoms, hcp⟩, h⟩
      exact ⟨grows_of_eq hatoms (congrArg (·.domain) hcp), h⟩
  setLimit := fun l W => grows_of_eq rfl rfl

theorem sat_frugal (D : Domain) : satBackend.Frugal (issued D) := by
  intro F W hF hpos
  have hfits : W.sat.Fits F := known_allocated hF
  apply leads_solve
  apply (Sat.Dpll.leads_solve hfits).mono
  · rintro r S h log m rfl c hc
    exact h.1.frugal hfits hpos hc
  · exact fun _ _ _ _ => trivial

theorem cp_keeps (D : Domain) : cpBackend.Keeps (issued D) where
  witness := by
    intro A N W
    apply leads_witness
    · apply (Witness.Searcher.witness_domain A N W.cp).mono
      · exact fun _ _ h _ _ => grows_of_eq rfl h
      · exact fun _ _ h _ _ => grows_of_eq rfl h
    · exact .refl _ W
  setLimit := fun l W => grows_of_eq rfl rfl

/-- About the constraints that have variables the backends of the workbench tell the truth. -/
theorem serves (D : Domain) (A : Arena) (R : IndexSet) :
    backends.Serves (issued D) D.Allows A R (fun c => ∃ v, A.Mentions c v) Err where
  sat := sat_solves D
  answers := by
    intro N W hbegun hN hvars
    apply leads_witness
    · apply (Witness.Searcher.leads_witness hN.closed).mono
      · intro r S h _ _
        have hanswered := h.1.answered hvars
        rwa [domain_of_begun hbegun] at hanswered
      · exact fun _ _ h _ _ => h.1
    · exact .timeout
  errors := by
    intro N W hN
    apply leads_witness
    · apply (Witness.Searcher.leads_witness hN).mono
      · exact fun _ _ _ _ _ => trivial
      · exact fun _ _ h _ _ => h.1
    · exact .timeout
  keeps := cp_keeps D

end Workbench

end Acquisition
