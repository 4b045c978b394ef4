import Acquisition.Proofs.Contracts

/-!
# Maximal and minimal subsets

A set of constraints is admitted by a network if some solution of the network
satisfies each of them. With a set its subsets are admitted too, so what can be
admitted of a bias is told by the maximal sets that are, or by the minimal sets
that are not.

How a lawful backend tells which sets a network admits does not hang on what the
sets are looked for.
-/
namespace Acquisition

open Checked IndexSet

variable {σ : Type} {A : Arena} {dom : Ranges}

/-- Some solution of the network satisfies each constraint of the set. -/
def Network.Admits (A : Arena) (dom : Ranges) (N : Network) (s : IndexSet) : Prop :=
  ∃ f : Valuation, f.Within dom N.scope ∧ N.Holds A f ∧ ∀ c ∈ s, A.Holds f c

/-- A subset of `b` that holds with respect to `Sat`, and no larger one does. -/
structure Maximal (Sat : IndexSet → Prop) (b s : IndexSet) : Prop where
  subset : s ⊆ b
  sat : Sat s
  maximal : ∀ t, t ⊆ b → Sat t → s ⊆ t → t = s

/-- A subset of `b` that fails with respect to `Sat`, and no smaller one does. -/
structure Minimal (Sat : IndexSet → Prop) (b s : IndexSet) : Prop where
  subset : s ⊆ b
  unsat : ¬ Sat s
  minimal : ∀ t, t ⊆ s → ¬ Sat t → t = s

/-- With a set its subsets have the property. -/
def Hereditary (Sat : IndexSet → Prop) : Prop := ∀ s t, s ⊆ t → Sat t → Sat s

theorem Network.hereditary_admits (N : Network) : Hereditary (N.Admits A dom) :=
  fun _ _ hst ⟨f, hf, hN, ht⟩ => ⟨f, hf, hN, fun c hc => ht c (hst c hc)⟩

theorem Maximal.of_insert {Sat : IndexSet → Prop} (hSat : Hereditary Sat) {b s : IndexSet}
    (hsub : s ⊆ b) (hs : Sat s) (h : ∀ c ∈ b, c ∉ s → ¬ Sat (s.insert c)) : Maximal Sat b s where
  subset := hsub
  sat := hs
  maximal := fun t htb ht hst => by
    refine Subset.antisymm (fun c hc => ?_) hst
    by_contra hcs
    refine h c (htb c hc) hcs (hSat _ t (fun d hd => ?_) ht)
    rcases mem_insert.1 hd with rfl | hd
    · exact hc
    · exact hst d hd

/-- What a set cannot take in, no larger set can. -/
theorem Hereditary.not_insert {Sat : IndexSet → Prop} (hSat : Hereditary Sat) {s t : IndexSet}
    (hst : s ⊆ t) {c : ConstraintId} (h : ¬ Sat (s.insert c)) : ¬ Sat (t.insert c) :=
  mt (hSat _ _ fun d hd => mem_insert.2 ((mem_insert.1 hd).imp id (hst d))) h

/-- A set is maximal if it was grown from a smaller one by trying all that was left. -/
theorem Maximal.of_tried {Sat : IndexSet → Prop} (hSat : Hereditary Sat) {b s t : IndexSet}
    (hst : s ⊆ t) (hsub : t ⊆ b) (ht : Sat t)
    (h : ∀ c ∈ (b.diff s).toList, c ∈ t ∨ ¬ Sat (t.insert c)) : Maximal Sat b t :=
  .of_insert hSat hsub ht fun c hc hnot =>
    (h c (mem_toList'.2 (mem_diff.2 ⟨hc, fun hs => hnot (hst c hs)⟩))).resolve_left hnot

theorem Minimal.of_erase {Sat : IndexSet → Prop} (hSat : Hereditary Sat) {b s : IndexSet}
    (hsub : s ⊆ b) (hs : ¬ Sat s) (h : ∀ c ∈ s, Sat (s.erase c)) : Minimal Sat b s where
  subset := hsub
  unsat := hs
  minimal := fun t hts ht => by
    refine Subset.antisymm hts fun c hc => ?_
    by_contra hct
    refine ht (hSat t _ (fun d hd => mem_erase.2 ⟨hts d hd, ?_⟩) (h c hc))
    rintro rfl
    exact hct hd

theorem Maximal.eq_of_subset {Sat : IndexSet → Prop} {b s t : IndexSet} (hs : Maximal Sat b s)
    (ht : Maximal Sat b t) (h : s ⊆ t) : t = s := hs.maximal t ht.subset ht.sat h

/-- What fails contains a minimal set that does. -/
theorem exists_minimal {Sat : IndexSet → Prop} {b s : IndexSet} (hsub : s ⊆ b) (hs : ¬ Sat s) :
    ∃ t, t ⊆ s ∧ Minimal Sat b t := by
  induction h : s.size using Nat.strong_induction_on generalizing s with
  | _ n ih =>
    by_cases hmin : ∀ t, t ⊆ s → ¬ Sat t → t = s
    · exact ⟨s, Subset.refl s, hsub, hs, hmin⟩
    · push Not at hmin
      obtain ⟨t, hts, ht, hne⟩ := hmin
      have hlt := size_lt_of_ssubset hts hne
      obtain ⟨u, hut, hu⟩ := ih t.size (by omega) (Subset.trans hts hsub) ht rfl
      exact ⟨u, Subset.trans hut hts, hu⟩

namespace Network

/-- The constraints were handed out by the arena, and the scope of the network holds
their variables. -/
def Spans (A : Arena) (N : Network) (s : IndexSet) : Prop :=
  ∀ c ∈ s, A.Registered c ∧ ∀ v, A.Mentions c v → v ∈ N.scope

theorem Spans.mono {N : Network} {s t : IndexSet} (h : N.Spans A t) (hst : s ⊆ t) :
    N.Spans A s := fun c hc => h c (hst c hc)

/-- The query is a solution of the network that satisfies each constraint of the set. -/
structure Supports (A : Arena) (dom : Ranges) (N : Network) (q : Query) (s : IndexSet) :
    Prop where
  solves : q.Solves A dom N
  members : ∀ c ∈ s, A.Holds q.valuation c

theorem Supports.admits {N : Network} {q : Query} {s : IndexSet} (h : N.Supports A dom q s) :
    N.Admits A dom s := ⟨q.valuation, h.solves.within, h.solves.holds, h.members⟩

theorem Supports.insert {N : Network} {q : Query} {s : IndexSet} (h : N.Supports A dom q s)
    {c : ConstraintId} (hc : A.Holds q.valuation c) : N.Supports A dom q (s.insert c) where
  solves := h.solves
  members := fun d hd => by
    rcases mem_insert.1 hd with rfl | hd
    · exact hc
    · exact h.members d hd

/-- The network extended by constraints over its own variables. -/
theorem exists_extended (dom : Ranges) {N : Network} (hN : N.Closed A) {s : IndexSet}
    (hs : N.Spans A s) :
    ∃ M, N.addAll A s.toList = .ok M ∧ M.Closed A ∧
      (M.Satisfiable A dom ↔ N.Admits A dom s) ∧
      (∀ q : Query, q.Solves A dom M ↔ N.Supports A dom q s) ∧
      ∀ c, c ∈ M.constraints ↔ c ∈ N.constraints ∨ c ∈ s := by
  obtain ⟨M, hM⟩ := exists_addAll (fun c hc => (hs c (mem_toList'.1 hc)).1) N
  obtain ⟨-, hmem, hvars⟩ := addAll_eq_ok hM
  have hscope : M.scope = N.scope := ext_mem fun v => by
    rw [hvars]
    refine or_iff_left_of_imp ?_
    rintro ⟨c, hc, hv⟩
    exact (hs c (mem_toList'.1 hc)).2 v hv
  have hholds : ∀ f, M.Holds A f ↔ N.Holds A f ∧ ∀ c ∈ s, A.Holds f c := fun f => by
    rw [holds_addAll hM]
    simp only [mem_toList']
  refine ⟨M, hM, hN.addAll hM, ?_, fun q => ?_, fun c => by rw [hmem, mem_toList']⟩
  · simp only [Satisfiable, Admits, hholds, hscope]
  · constructor
    · intro h
      exact ⟨⟨hscope ▸ h.covers, hscope ▸ h.within, ((hholds _).1 h.holds).1, h.unclassified⟩,
        ((hholds _).1 h.holds).2⟩
    · intro h
      exact ⟨hscope ▸ h.solves.covers, hscope ▸ h.solves.within,
        (hholds _).2 ⟨h.solves.holds, h.members⟩, h.solves.unclassified⟩

/-- On some solution of the network a sum leaves its word, in a constraint of the
network or in one of the set. -/
def Overflows (A : Arena) (dom : Ranges) (N : Network) (s : IndexSet) : Prop :=
  ∃ c, (c ∈ N.constraints ∨ c ∈ s) ∧
    ∃ q : Query, q.Solves A dom N ∧ A.check q c = .error .overflow

/-- A true answer about a network with further constraints. -/
def AnsweredWith (A : Arena) (dom : Ranges) (N : Network) (s : IndexSet) : Option Query → Prop
  | some q => N.Supports A dom q s
  | none => ¬ N.Admits A dom s

variable {B : CpBackend σ} {I : σ → Prop} {Err : Failure → σ → Prop} {st : σ}

/-- Looks for a solution of a network that satisfies some constraints. -/
theorem leads_witness (hB : B.Answers I dom Err) (hA : A.Built) {N : Network} (hN : N.Closed A)
    {s : IndexSet} (hs : N.Spans A s) (hI : I st) :
    (do B.witness A (← Action.ofChecked (N.addAll A s.toList))).Leads st
      (fun r t => I t ∧ N.AnsweredWith A dom s r) (fun f t => I t ∧ Err f t) := by
  obtain ⟨M, hM, hclosed, hsat, hsolves, -⟩ := exists_extended dom hN hs
  rw [Action.leads_bind, Action.leads_ofChecked, hM]
  refine ⟨fun a e => ?_, nofun⟩
  cases e
  refine (hB A M st hA hclosed hI).mono (fun r t ⟨ht, hr⟩ => ⟨ht, ?_⟩) fun _ _ h => h
  cases r with
  | none => exact mt hsat.2 hr
  | some q => exact (hsolves q).1 hr

theorem leads_satisfiable (hB : B.Answers I dom Err) (hA : A.Built) {N : Network}
    (hN : N.Closed A) {s : IndexSet} (hs : N.Spans A s) (hI : I st) :
    (do B.satisfiable A (← Action.ofChecked (N.addAll A s.toList))).Leads st
      (fun b t => I t ∧ (b = true ↔ N.Admits A dom s)) (fun f t => I t ∧ Err f t) := by
  obtain ⟨M, hM, hclosed, hsat, -, -⟩ := exists_extended dom hN hs
  rw [Action.leads_bind, Action.leads_ofChecked, hM]
  refine ⟨fun a e => ?_, nofun⟩
  cases e
  exact (hB.satisfiable hA hclosed hI).mono (fun _ _ ⟨ht, hb⟩ => ⟨ht, hb.trans hsat⟩)
    fun _ _ h => h

/-- A check on a solution says whether the constraint holds, or its sum overflows. -/
theorem Supports.check {N : Network} {q : Query} {s : IndexSet} (h : N.Supports A dom q s)
    {c : ConstraintId} (hc : A.Registered c ∧ ∀ v, A.Mentions c v → v ∈ N.scope) :
    (∀ b, A.check q c = .ok b → (b = true ↔ A.Holds q.valuation c)) ∧
      ∀ e, A.check q c = .error e → e = .overflow :=
  ⟨fun _ hb => Arena.check_eq_ok hb fun v hv => h.solves.covers v (hc.2 v hv),
    fun _ he => Arena.check_error hc.1 he⟩

theorem Supports.check_error {N : Network} {q : Query} {s b : IndexSet}
    (h : N.Supports A dom q s) (hb : N.Spans A b) {c : ConstraintId} (hc : c ∈ b) {e : Fault}
    (he : A.check q c = .error e) : e = .overflow ∧ N.Overflows A dom b := by
  have hover := (h.check (hb c hc)).2 e he
  subst hover
  exact ⟨rfl, c, .inr hc, q, h.solves, he⟩

end Network

end Acquisition
