import Acquisition.Proofs.Equivalence

/-!
# Redundant constraints

What is left of a network once redundant constraints are dropped is a part of it that has
the same solutions, given what is known, and of which no constraint is redundant any more.

Whether a constraint is redundant is asked only once, of the network as it is at that time,
and later more constraints may go. A constraint that was needed is needed then, too: fewer
constraints imply less.
-/
namespace Acquisition.Simplify

open Checked IndexSet Conflict

variable {σ : Type} {A : Arena} {dom : Ranges} {scope : IndexSet} {B : CpBackend σ}
  {I : σ → Prop} {Err : Failure → σ → Prop} {known : Network}

/-- The other constraints of the network, with the known ones, do not imply the constraint. -/
def Needed (A : Arena) (dom : Ranges) (scope : IndexSet) (known N : Network) (c : ConstraintId) :
    Prop :=
  ¬ ((N.remove c).union known).Implies A dom scope c

/-- What a network needs is needed in a part of it. -/
theorem Needed.mono {N M : Network} {c : ConstraintId} (h : Needed A dom scope known N c)
    (hsub : M.constraints ⊆ N.constraints) : Needed A dom scope known M c := by
  intro himp
  apply h
  apply himp.mono
  intro f hall
  obtain ⟨hNf, hkf⟩ := (Network.holds_union f).1 hall
  refine (Network.holds_union f).2 ⟨fun d hd => hNf d ?_, hkf⟩
  obtain ⟨hd, hdc⟩ := mem_erase.1 hd
  exact mem_erase.2 ⟨hsub d hd, hdc⟩

/-- A constraint is needed if the network means something else without it. -/
theorem needed_of_changes {N : Network} {c : ConstraintId}
    (h : ¬ Network.SameSolutions A dom scope known N (N.remove c)) :
    Needed A dom scope known N c := by
  intro himp
  apply h
  rw [Network.sameSolutions_iff]
  constructor
  · intro d hd hdN
    exact absurd (mem_erase.1 hd).1 hdN
  · intro d hd hdN
    have hdc : d = c := by
      by_contra hne
      exact hdN (mem_erase.2 ⟨hd, hne⟩)
    rwa [hdc]

/-- A network over the scope is a part of another one and has the same solutions, given what is
known. -/
structure Pruned (A : Arena) (dom : Ranges) (scope : IndexSet) (known N R : Network) : Prop where
  within : Over A scope R
  scope_eq : R.scope = N.scope
  subset : R.constraints ⊆ N.constraints
  same : Network.SameSolutions A dom scope known N R

theorem Pruned.refl {N : Network} (hN : Over A scope N) : Pruned A dom scope known N N :=
  ⟨hN, rfl, Subset.refl _, .refl known N⟩

theorem Pruned.trans {N M R : Network} (h : Pruned A dom scope known N M)
    (h' : Pruned A dom scope known M R) : Pruned A dom scope known N R where
  within := h'.within
  scope_eq := h'.scope_eq.trans h.scope_eq
  subset := fun c hc => h.subset c (h'.subset c hc)
  same := h.same.trans h'.same

theorem Pruned.remove {N : Network} {c : ConstraintId} (hN : Over A scope N)
    (h : Network.SameSolutions A dom scope known N (N.remove c)) :
    Pruned A dom scope known N (N.remove c) :=
  ⟨⟨hN.closed.remove c, hN.subset⟩, rfl, fun _ hd => (mem_erase.1 hd).1, h⟩

/-- Disjunctions that have a member in the network before them add nothing to it. -/
theorem exists_pruned (dom : Ranges) (known : Network) (hA : A.Built) {N : Network}
    (hN : Over A scope N) :
    ∃ M, addUnless A (subsumedDisjunction A) (.ofScope N.scope) N.toList = .ok M ∧
      Pruned A dom scope known N M := by
  obtain ⟨M, hM, hclosed, hscope, hsub, hholds⟩ :=
    exists_kept (fun N _ => exists_subsumedDisjunction N)
      (fun _ _ h _ => holds_of_subsumedDisjunction hA h) hN.closed
  refine ⟨M, hM, ⟨hclosed, hscope ▸ hN.subset⟩, hscope, hsub, fun f _ _ => ⟨?_, hholds f⟩⟩
  exact fun hNf c hc => hNf c (hsub c hc)

/-- Each of the listed constraints that is still there when all of them were looked at is
needed. -/
theorem leads_dropRedundant (hB : B.Discerns A dom I Err) (hA : A.Built)
    (hdom : ∃ f : Valuation, f.Within dom scope) (hk : Over A scope known) {N : Network}
    (hN : Over A scope N) (cs : List ConstraintId) {s : σ} (hI : I s) :
    (dropRedundant B A known N cs).Leads s
      (fun R t => I t ∧ Pruned A dom scope known N R ∧
        ∀ c ∈ cs, c ∈ R.constraints → Needed A dom scope known R c)
      fun f t => I t ∧ Err f t := by
  induction cs generalizing N s with
  | nil => exact ⟨hI, .refl hN, nofun⟩
  | cons c cs ih =>
    have hwithout : Over A scope (N.remove c) := ⟨hN.closed.remove c, hN.subset⟩
    rw [dropRedundant]
    apply (B.leads_equivalent hB hA hdom hN hwithout hk hI).bind _ fun _ _ h => h
    rintro r t ⟨hI, hr⟩
    cases r with
    | true =>
      have hdrop : Pruned A dom scope known N (N.remove c) := .remove hN (hr.1 rfl)
      apply (ih hwithout hI).mono _ fun _ _ h => h
      rintro R t ⟨hI, hR, hneeded⟩
      refine ⟨hI, hdrop.trans hR, List.forall_mem_cons.2 ⟨fun hc => ?_, hneeded⟩⟩
      exact absurd rfl (mem_erase.1 (hR.subset c hc)).2
    | false =>
      have hc : Needed A dom scope known N c :=
        needed_of_changes fun h => Bool.false_ne_true (hr.2 h)
      apply (ih hN hI).mono _ fun _ _ h => h
      rintro R t ⟨hI, hR, hneeded⟩
      exact ⟨hI, hR, List.forall_mem_cons.2 ⟨fun _ => hc.mono hR.subset, hneeded⟩⟩

/-- A network without its redundant constraints is a part of it that has the same solutions,
given what is known, and of which the other constraints and the known ones imply none. -/
theorem removeRedundant_exact (hB : B.Discerns A dom I Err) (hA : A.Built)
    (hdom : ∃ f : Valuation, f.Within dom scope) {N : Network} (hN : Over A scope N)
    (hk : Over A scope known) {s : σ} (hI : I s) :
    (removeRedundant B A N known).Leads s
      (fun R _ => R.constraints ⊆ N.constraints ∧
        Network.SameSolutions A dom scope known N R ∧
        ∀ c ∈ R.constraints, ¬ ((R.remove c).union known).Implies A dom scope c)
      Err := by
  obtain ⟨M, hM, hpruned⟩ := exists_pruned dom known hA hN
  rw [removeRedundant, hM, Action.leads_bind, Action.leads_ofChecked]
  refine ⟨fun M' hM' => ?_, nofun⟩
  cases hM'
  apply (leads_dropRedundant hB hA hdom hk hpruned.within M.toList.reverse hI).mono
  · rintro R t ⟨-, hR, hneeded⟩
    have hall := hpruned.trans hR
    refine ⟨hall.subset, hall.same, fun c hc => hneeded c ?_ hc⟩
    exact List.mem_reverse.2 (mem_toList'.2 (hR.subset c hc))
  · rintro f t ⟨-, hf⟩
    exact hf

open Exhaustive in
/-- Over zero and one the first two constraints and their disjunction are all the same, and the
third constraint is known. The disjunction is left out at once, and only the first constraint is
still there at the end. -/
theorem removeRedundant_exact_or :
    let known : Network := ⟨.ofList [1], .ofList [4]⟩
    let N : Network := ⟨.ofList [0, 1], .ofList [0, 2, 4, 6]⟩
    ((removeRedundant (Exhaustive.cp bits) sampleOr N known).outcome []).1 =
        .ok ⟨.ofList [0, 1], .ofList [0]⟩ ∧
      (removeRedundant (Exhaustive.cp bits) sampleOr N known).Leads []
        (fun R _ => R.constraints ⊆ N.constraints ∧
          Network.SameSolutions sampleOr bits.Allows (.ofList [0, 1]) known N R ∧
          ∀ c ∈ R.constraints,
            ¬ ((R.remove c).union known).Implies sampleOr bits.Allows (.ofList [0, 1]) c)
        fun _ _ => False := by
  intro known N
  have hB : (Exhaustive.cp bits).Discerns sampleOr bits.Allows (fun _ => True) fun _ _ => False :=
    (cp_lawful bits _).answers.discerns built_sampleOr
  refine ⟨by decide +kernel, removeRedundant_exact hB built_sampleOr ?_ ?_ ?_ trivial⟩
  · exact ⟨fun _ => 0, by decide +kernel⟩
  · exact .ofList N.scope [0, 2, 4, 6] (by decide +kernel) (by decide +kernel)
  · exact .ofList known.scope [4] (by decide +kernel) (by decide +kernel)

end Acquisition.Simplify
