import Acquisition.Proofs.MinimalConflict
import Acquisition.Proofs.Simplification

/-!
# Equivalence of networks

Two networks are equivalent under a third, the known one, if no assignment of the scope
that satisfies it tells them apart. A backend that only tells satisfiable networks from
unsatisfiable ones decides this: a constraint is implied just if its negation cannot be
added.

The networks that are asked about differ in their variables, as the negation of a
constraint brings its own. It does not matter over which variables a network is asked
about, as long as the others have values to take.
-/
namespace Acquisition

open IndexSet Conflict

variable {σ : Type} {A : Arena} {dom : Ranges} {scope : IndexSet}

namespace Network

/-- The constraint holds wherever the network does. -/
def Implies (A : Arena) (dom : Ranges) (scope : IndexSet) (N : Network) (c : ConstraintId) :
    Prop :=
  ∀ f : Valuation, f.Within dom scope → N.Holds A f → A.Holds f c

theorem Implies.mono {N M : Network} {c : ConstraintId} (h : N.Implies A dom scope c)
    (hNM : ∀ f, M.Holds A f → N.Holds A f) : M.Implies A dom scope c :=
  fun f hf hM => h f hf (hNM f hM)

/-- Among the assignments that satisfy the known constraints, the two networks hold on the
same ones. -/
def SameSolutions (A : Arena) (dom : Ranges) (scope : IndexSet) (known N M : Network) : Prop :=
  ∀ f : Valuation, f.Within dom scope → known.Holds A f → (N.Holds A f ↔ M.Holds A f)

namespace SameSolutions

variable {known N M L : Network}

theorem refl (known N : Network) : SameSolutions A dom scope known N N := fun _ _ _ => Iff.rfl

theorem symm (h : SameSolutions A dom scope known N M) : SameSolutions A dom scope known M N :=
  fun f hf hk => (h f hf hk).symm

theorem trans (h : SameSolutions A dom scope known N M)
    (h' : SameSolutions A dom scope known M L) : SameSolutions A dom scope known N L :=
  fun f hf hk => (h f hf hk).trans (h' f hf hk)

/-- With more known there are fewer assignments to compare. -/
theorem mono {known' : Network} (h : SameSolutions A dom scope known N M)
    (hk : known.constraints ⊆ known'.constraints) : SameSolutions A dom scope known' N M :=
  fun f hf hk' => h f hf fun c hc => hk' c (hk c hc)

end SameSolutions

/-- Each network has to imply what only the other one has. -/
theorem sameSolutions_iff {known N M : Network} : SameSolutions A dom scope known N M ↔
    (∀ c ∈ M.constraints, c ∉ N.constraints → (N.union known).Implies A dom scope c) ∧
      ∀ c ∈ N.constraints, c ∉ M.constraints → (M.union known).Implies A dom scope c := by
  constructor
  · intro h
    constructor
    · intro c hc _ f hf hall
      obtain ⟨hNf, hkf⟩ := (holds_union f).1 hall
      exact (h f hf hkf).1 hNf c hc
    · intro c hc _ f hf hall
      obtain ⟨hMf, hkf⟩ := (holds_union f).1 hall
      exact (h f hf hkf).2 hMf c hc
  · rintro ⟨hM, hN⟩ f hf hkf
    constructor
    · intro hNf c hc
      by_cases hcN : c ∈ N.constraints
      · exact hNf c hcN
      · exact hM c hc hcN f hf ((holds_union f).2 ⟨hNf, hkf⟩)
    · intro hMf c hc
      by_cases hcM : c ∈ M.constraints
      · exact hMf c hcM
      · exact hN c hc hcM f hf ((holds_union f).2 ⟨hMf, hkf⟩)

/-- A constraint is implied just if the network has no solution with its negation. -/
theorem exists_refutation (hA : A.Built) (hdom : ∃ f : Valuation, f.Within dom scope)
    {N : Network} (hN : Over A scope N) {c : ConstraintId} (hc : A.Registered c)
    (hvars : ∀ v, A.Mentions c v → v ∈ scope) :
    ∃ M, (do N.add A (← A.negation c)) = .ok M ∧ Over A scope M ∧
      (M.Satisfiable A dom ↔ ¬ N.Implies A dom scope c) := by
  obtain ⟨M, hM⟩ := exists_add (hA.paired.registered_twin hc) N
  obtain ⟨-, hcons, hscope⟩ := add_eq_ok hM
  have hover : Over A scope M := by
    refine ⟨hN.closed.add hM, fun v hv => ?_⟩
    rcases (hscope v).1 hv with hv | hv
    · exact hN.subset v hv
    · exact hvars v (hA.paired.mentions_twin.1 hv)
  have hholds : ∀ f, M.Holds A f ↔ N.Holds A f ∧ ¬ A.Holds f c := by
    intro f
    rw [← hA.paired.holds_twin hc f, Holds, hcons]
    simp only [mem_insert, forall_eq_or_imp]
    exact and_comm
  refine ⟨M, ?_, hover, ?_⟩
  · rw [hc.negation]
    exact hM
  · rw [hover.satisfiable_iff hdom, Implies]
    push Not
    exact exists_congr fun f => and_congr_right fun _ => hholds f

end Network

namespace CpBackend

variable {B : CpBackend σ} {I : σ → Prop} {Err : Failure → σ → Prop}

/-- The backend tells which networks are satisfiable, keeps an invariant of the world, and
fails only as `Err` allows. -/
def Discerns (B : CpBackend σ) (A : Arena) (dom : Ranges) (I : σ → Prop)
    (Err : Failure → σ → Prop) : Prop :=
  ∀ N s, N.Closed A → I s →
    (B.satisfiable A N).Leads s (fun r t => I t ∧ (r = true ↔ N.Satisfiable A dom))
      fun f t => I t ∧ Err f t

/-- True answers are more than is needed. -/
theorem Answers.discerns (hB : B.Answers I dom Err) (hA : A.Built) : B.Discerns A dom I Err :=
  fun _ _ hN hs => hB.satisfiable hA hN hs

/-- Whether all of some constraints are implied is told one after the other. -/
theorem leads_impliesAll (hB : B.Discerns A dom I Err) (hA : A.Built)
    (hdom : ∃ f : Valuation, f.Within dom scope) {N : Network} (hN : Over A scope N)
    {cs : List ConstraintId}
    (hcs : ∀ c ∈ cs, A.Registered c ∧ ∀ v, A.Mentions c v → v ∈ scope) {s : σ} (hI : I s) :
    (B.impliesAll A N cs).Leads s
      (fun r t => I t ∧ (r = true ↔ ∀ c ∈ cs, N.Implies A dom scope c))
      fun f t => I t ∧ Err f t := by
  induction cs generalizing s with
  | nil => exact ⟨hI, iff_of_true rfl nofun⟩
  | cons c cs ih =>
    obtain ⟨hreg, hvars⟩ := hcs c List.mem_cons_self
    obtain ⟨M, hM, hover, hsat⟩ := Network.exists_refutation hA hdom hN hreg hvars
    rw [impliesAll, hM, Action.leads_bind, Action.leads_ofChecked]
    refine ⟨fun M' hM' => ?_, nofun⟩
    cases hM'
    apply (hB M s hover.closed hI).bind _ fun _ _ h => h
    rintro r t ⟨hI, hr⟩
    cases r with
    | true =>
      refine ⟨hI, iff_of_false Bool.false_ne_true fun hall => ?_⟩
      exact hsat.1 (hr.1 rfl) (hall c List.mem_cons_self)
    | false =>
      have himp : N.Implies A dom scope c := by
        by_contra hnot
        exact Bool.false_ne_true (hr.2 (hsat.2 hnot))
      apply (ih (fun d hd => hcs d (List.mem_cons_of_mem c hd)) hI).mono _ fun _ _ h => h
      rintro r t ⟨hI, hr⟩
      exact ⟨hI, hr.trans (by rw [List.forall_mem_cons, and_iff_right himp])⟩

/-- The comparison of two networks decides whether they have the same solutions. -/
theorem leads_equivalent (hB : B.Discerns A dom I Err) (hA : A.Built)
    (hdom : ∃ f : Valuation, f.Within dom scope) {N M known : Network} (hN : Over A scope N)
    (hM : Over A scope M) (hk : Over A scope known) {s : σ} (hI : I s) :
    (B.equivalent A N M known).Leads s
      (fun r t => I t ∧ (r = true ↔ Network.SameSolutions A dom scope known N M))
      fun f t => I t ∧ Err f t := by
  -- What the first network has and the second one lacks is looked at.
  have hsides : ∀ {P Q : Network}, Over A scope P →
      ∀ c ∈ P.toList.filter (!Q.contains ·),
        A.Registered c ∧ ∀ v, A.Mentions c v → v ∈ scope := by
    intro P Q hP c hc
    obtain ⟨hreg, hvars⟩ := hP.closed c (mem_toList'.1 (List.mem_filter.1 hc).1)
    exact ⟨hreg, fun v hv => hP.subset v (hvars v hv)⟩
  have honly : ∀ {P Q : Network} {q : ConstraintId → Prop},
      (∀ c ∈ P.toList.filter (!Q.contains ·), q c) ↔
        ∀ c ∈ P.constraints, c ∉ Q.constraints → q c := by
    intro P Q q
    simp only [List.mem_filter, Network.toList, mem_toList', Network.contains, Bool.not_eq_true',
      and_imp, ← contains_iff, Bool.not_eq_true]
  rw [equivalent, Network.sameSolutions_iff]
  apply (leads_impliesAll hB hA hdom (hN.union hk) (hsides hM) hI).bind _ fun _ _ h => h
  rintro r t ⟨hI, hr⟩
  rw [honly] at hr
  cases r with
  | true =>
    apply (leads_impliesAll hB hA hdom (hM.union hk) (hsides hN) hI).mono _ fun _ _ h => h
    rintro r t ⟨hI, hr'⟩
    rw [honly] at hr'
    exact ⟨hI, hr'.trans (and_iff_right (hr.1 rfl)).symm⟩
  | false =>
    exact ⟨hI, iff_of_false Bool.false_ne_true fun h => Bool.false_ne_true (hr.2 h.1)⟩

/-- The comparison ends with the answer that the two networks are equivalent. -/
def Equates (B : CpBackend σ) (A : Arena) (s : σ) (known N M : Network) : Prop :=
  ((B.equivalent A N M known).outcome s).1 = .ok true

/-- Between networks over the scope the comparison decides equivalence. -/
theorem equates_iff (hB : B.Discerns A dom (fun _ => True) fun _ _ => False) (hA : A.Built)
    (hdom : ∃ f : Valuation, f.Within dom scope) {N M known : Network} (hN : Over A scope N)
    (hM : Over A scope M) (hk : Over A scope known) (s : σ) :
    B.Equates A s known N M ↔ Network.SameSolutions A dom scope known N M := by
  have h := (leads_equivalent hB hA hdom hN hM hk (s := s) trivial).mono (fun _ _ h => h.2)
    fun _ _ h => h.2
  obtain ⟨r, t, houtcome, hr⟩ := h.exists_outcome
  rw [Equates, houtcome, ← hr]
  exact ⟨Except.ok.inj, congrArg _⟩

/-- With a backend that tells which networks are satisfiable, and never fails, the comparison
of networks never fails either and decides whether they have the same solutions under what
is known. What it says of two networks does not hang on their order, nor on the state of the
world, it carries over along a chain of networks, and it is not taken back with more known. -/
theorem equivalent_decides (hB : B.Discerns A dom (fun _ => True) fun _ _ => False)
    (hA : A.Built) (hdom : ∃ f : Valuation, f.Within dom scope) {known : Network}
    (hk : Over A scope known) :
    (∀ N M s, Over A scope N → Over A scope M →
      (B.equivalent A N M known).Leads s
        (fun r _ => r = true ↔ Network.SameSolutions A dom scope known N M) fun _ _ => False) ∧
    (∀ N M s t, Over A scope N → Over A scope M →
      (B.Equates A s known N M ↔ B.Equates A t known M N)) ∧
    (∀ N M L s t u, Over A scope N → Over A scope M → Over A scope L →
      B.Equates A s known N M → B.Equates A t known M L → B.Equates A u known N L) ∧
    ∀ N M known' s t, Over A scope N → Over A scope M → Over A scope known' →
      known.constraints ⊆ known'.constraints →
      B.Equates A s known N M → B.Equates A t known' N M := by
  refine ⟨?decides, ?symmetric, ?transitive, ?monotone⟩
  case decides =>
    intro N M s hN hM
    exact (leads_equivalent hB hA hdom hN hM hk trivial).mono (fun _ _ h => h.2) fun _ _ h => h.2
  case symmetric =>
    intro N M s t hN hM
    rw [equates_iff hB hA hdom hN hM hk, equates_iff hB hA hdom hM hN hk]
    exact ⟨.symm, .symm⟩
  case transitive =>
    intro N M L s t u hN hM hL hNM hML
    rw [equates_iff hB hA hdom hN hM hk] at hNM
    rw [equates_iff hB hA hdom hM hL hk] at hML
    exact (equates_iff hB hA hdom hN hL hk u).2 (hNM.trans hML)
  case monotone =>
    intro N M known' s t hN hM hk' hsub hNM
    rw [equates_iff hB hA hdom hN hM hk] at hNM
    exact (equates_iff hB hA hdom hN hM hk' t).2 (hNM.mono hsub)

open Exhaustive Simplify in
/-- Over zero and one the first two constraints and their disjunction are all the same. The
networks have different scopes, and the third constraint is known. -/
theorem equivalent_decides_or :
    let known : Network := ⟨.ofList [1], .ofList [4]⟩
    let N : Network := ⟨.ofList [0, 1], .ofList [4, 6]⟩
    let M : Network := ⟨.ofList [0], .ofList [0]⟩
    (Exhaustive.cp bits).Equates sampleOr [] known N M ∧
      Network.SameSolutions sampleOr bits.Allows (.ofList [0, 1]) known N M ∧
      (Exhaustive.cp bits).Equates sampleOr [] known M N ∧
      ¬ Network.SameSolutions sampleOr bits.Allows (.ofList [0, 1]) {} N M := by
  intro known N M
  have hknown : Over sampleOr (.ofList [0, 1]) known :=
    .ofList known.scope [4] (by decide +kernel) (by decide +kernel)
  have hN : Over sampleOr (.ofList [0, 1]) N :=
    .ofList N.scope [4, 6] (by decide +kernel) (by decide +kernel)
  have hM : Over sampleOr (.ofList [0, 1]) M :=
    .ofList M.scope [0] (by decide +kernel) (by decide +kernel)
  have hB : (Exhaustive.cp bits).Discerns sampleOr bits.Allows (fun _ => True) fun _ _ => False :=
    (cp_lawful bits _).answers.discerns built_sampleOr
  have hdom : ∃ f : Valuation, f.Within bits.Allows (.ofList [0, 1]) :=
    ⟨fun _ => 0, by decide +kernel⟩
  obtain ⟨hdecides, hsymm, -, -⟩ := equivalent_decides hB built_sampleOr hdom hknown
  have heq : (Exhaustive.cp bits).Equates sampleOr [] known N M := by
    unfold Equates
    decide +kernel
  obtain ⟨r, t, houtcome, hr⟩ := (hdecides N M [] hN hM).exists_outcome
  refine ⟨heq, hr.1 ?_, (hsymm N M [] [] hN hM).1 heq, ?_⟩
  · rw [Equates, houtcome] at heq
    exact Except.ok.inj heq
  · intro h
    have hf := (h (fun _ => 0) (by decide +kernel) (by decide +kernel)).2 (by decide +kernel)
    revert hf
    decide +kernel

end CpBackend

end Acquisition
