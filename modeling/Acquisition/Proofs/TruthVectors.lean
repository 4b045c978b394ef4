import Acquisition.Concept
import Acquisition.Proofs.Breadth
import Acquisition.Proofs.Exhaustive
import Acquisition.Proofs.Extension

/-!
# Truth on a bias that is closed under negation

What a valuation says about a bias is the set of constraints of the bias that hold on it.
If the bias has with each constraint its negation, such a set is never part of another one:
where a constraint is missing its negation stands. So these sets are the maximal subsets of
the bias that can hold, and to exclude one of them, a disjunction of the negations of its
members is enough.
-/
namespace Acquisition

open Checked IndexSet

variable {A : Arena} {dom : Ranges} {bias : Bias}

namespace Bias

/-- With each constraint its negation is in the bias. -/
def Complete (bias : Bias) : Prop := ∀ c ∈ bias.constraints, Arena.twin c ∈ bias.constraints

/-- The constraints of the bias that hold on a valuation. -/
def holding (A : Arena) (bias : Bias) (f : Valuation) : IndexSet :=
  .ofList (bias.toList.filter fun c => decide (A.Holds f c))

@[simp] theorem mem_holding {f : Valuation} {c : ConstraintId} :
    c ∈ bias.holding A f ↔ c ∈ bias.constraints ∧ A.Holds f c := by
  rw [holding, mem_ofList, List.mem_filter, decide_eq_true_iff]
  exact and_congr_left fun _ => mem_toList'

theorem holding_subset (f : Valuation) : bias.holding A f ⊆ bias.constraints :=
  fun _ hc => (mem_holding.1 hc).1

theorem holding_eq_iff {f g : Valuation} :
    bias.holding A f = bias.holding A g ↔ ∀ c ∈ bias.constraints, (A.Holds f c ↔ A.Holds g c) := by
  constructor
  · intro h c hc
    have hmem : c ∈ bias.holding A f ↔ c ∈ bias.holding A g := by rw [h]
    rw [mem_holding, mem_holding] at hmem
    rwa [and_iff_right hc, and_iff_right hc] at hmem
  · intro h
    ext c
    rw [mem_holding, mem_holding]
    exact and_congr_right fun hc => h c hc

/-- What holds of the bias stays the same while the arena grows. -/
theorem holding_of_extends {B : Arena} (hext : A.Extends B) (hclosed : bias.network.Closed A)
    (f : Valuation) : bias.holding B f = bias.holding A f := by
  ext c
  rw [mem_holding, mem_holding]
  exact and_congr_right fun hc => hext.holds (hclosed c hc).1 f

/-- If all that holds on one valuation holds on another one, nothing else does. -/
theorem Complete.holding_eq_of_subset (hb : bias.Complete) (hA : A.Built)
    (hclosed : bias.network.Closed A) {f g : Valuation}
    (h : bias.holding A f ⊆ bias.holding A g) : bias.holding A f = bias.holding A g := by
  apply Subset.antisymm h
  intro c hc
  obtain ⟨hcb, hcg⟩ := mem_holding.1 hc
  have hreg := (hclosed c hcb).1
  by_contra hnot
  have hfail : ¬ A.Holds f c := fun hold => hnot (mem_holding.2 ⟨hcb, hold⟩)
  have htwin : Arena.twin c ∈ bias.holding A f :=
    mem_holding.2 ⟨hb c hcb, (hA.paired.holds_twin hreg f).2 hfail⟩
  exact (hA.paired.holds_twin hreg g).1 (mem_holding.1 (h _ htwin)).2 hcg

/-- What holds on a solution can hold, and nothing can be added to it. -/
theorem Complete.holding_maximal (hb : bias.Complete) (hA : A.Built)
    (hclosed : bias.network.Closed A) {N : Network} {f : Valuation}
    (hf : f.Within dom N.scope) (hN : N.Holds A f) :
    Maximal (N.Admits A dom) bias.constraints (bias.holding A f) where
  subset := holding_subset f
  sat := ⟨f, hf, hN, fun c hc => (mem_holding.1 hc).2⟩
  maximal := by
    intro t ht hadm hsub
    obtain ⟨g, -, -, hg⟩ := hadm
    have htg : t ⊆ bias.holding A g := fun c hc => mem_holding.2 ⟨ht c hc, hg c hc⟩
    have hsame := hb.holding_eq_of_subset hA hclosed (Subset.trans hsub htg)
    exact Subset.antisymm (hsame ▸ htg) hsub

end Bias

/-- All that holds on a witness of a maximal subset is in the subset. -/
theorem Maximal.eq_holding {N : Network} {q : Query} {s : IndexSet}
    (hs : Maximal (N.Admits A dom) bias.constraints s) (hq : N.Supports A dom q s) :
    s = bias.holding A q.valuation := by
  have hsub : s ⊆ bias.holding A q.valuation := fun c hc =>
    Bias.mem_holding.2 ⟨hs.subset c hc, hq.members c hc⟩
  have hadm : N.Admits A dom (bias.holding A q.valuation) :=
    ⟨q.valuation, hq.solves.within, hq.solves.holds, fun c hc => (Bias.mem_holding.1 hc).2⟩
  exact (hs.maximal _ (Bias.holding_subset _) hadm hsub).symm

namespace Concept

theorem complete_of_unpaired (h : unpaired? A bias = .ok none) : bias.Complete := by
  intro c hc
  have hone := findSomeM_eq_none h c (mem_toList'.2 hc)
  rw [bind_eq_ok] at hone
  obtain ⟨n, hn, hone⟩ := hone
  obtain ⟨rfl, -⟩ := Arena.negation_eq_ok hn
  rw [pure_eq_ok] at hone
  split at hone
  · next hin => exact hin
  · cases hone

theorem unpaired_eq_some {c : ConstraintId} (h : unpaired? A bias = .ok (some c)) :
    c ∈ bias.constraints ∧ Arena.twin c ∉ bias.constraints := by
  obtain ⟨d, hd, hone⟩ := findSomeM_eq_some h
  rw [bind_eq_ok] at hone
  obtain ⟨n, hn, hone⟩ := hone
  obtain ⟨rfl, -⟩ := Arena.negation_eq_ok hn
  rw [pure_eq_ok] at hone
  split at hone
  · cases hone
  · next hout =>
    cases hone
    exact ⟨mem_toList'.1 hd, hout⟩

/-- The members are the negations of what holds on the valuation. -/
def Excludes (A : Arena) (bias : Bias) (f : Valuation) (members : IndexSet) : Prop :=
  ∀ d, d ∈ members ↔ ∃ c ∈ bias.holding A f, d = Arena.twin c

/-- Whether some member holds tells apart the valuations on which something of the bias
fails that holds on the excluded one. The arena may have grown meanwhile. -/
theorem Excludes.exists_holds {f : Valuation} {members : IndexSet} (h : Excludes A bias f members)
    (hclosed : bias.network.Closed A) {B : Arena} (hext : A.Extends B) (hB : B.Built)
    (g : Valuation) :
    (∃ d ∈ members, B.Holds g d) ↔ ¬ bias.holding A f ⊆ bias.holding A g := by
  have htwin : ∀ c ∈ bias.constraints, (B.Holds g (Arena.twin c) ↔ ¬ A.Holds g c) := by
    intro c hc
    have hreg := (hclosed c hc).1
    rw [hB.paired.holds_twin (hext.registered hreg) g, hext.holds hreg g]
  constructor
  · intro hsome hsub
    obtain ⟨d, hd, hold⟩ := hsome
    obtain ⟨c, hc, rfl⟩ := (h d).1 hd
    have hcg := Bias.mem_holding.1 (hsub c hc)
    exact (htwin c hcg.1).1 hold hcg.2
  · intro hnot
    by_contra hnone
    apply hnot
    intro c hc
    have hcb := (Bias.mem_holding.1 hc).1
    apply Bias.mem_holding.2
    constructor
    · exact hcb
    · by_contra hfail
      exact hnone ⟨Arena.twin c, (h _).2 ⟨c, hc, rfl⟩, (htwin c hcb).2 hfail⟩

theorem exclusion_spec {C : Concept} (hclosed : C.bias.network.Closed C.arena) {q : Query}
    (hq : C.bias.scope ⊆ q.scope) {members : IndexSet} (h : C.exclusion q = .ok members) :
    Excludes C.arena C.bias q.valuation members := by
  rw [exclusion, bind_eq_ok] at h
  obtain ⟨cs, hcs, h⟩ := h
  rw [bind_eq_ok] at h
  obtain ⟨ds, hds, h⟩ := h
  cases h
  obtain ⟨htotal, -, hmem⟩ := filterM_eq_ok hcs
  have hkept : ∀ c, c ∈ cs ↔ c ∈ C.bias.holding C.arena q.valuation := by
    intro c
    have hin : c ∈ C.bias.toList ↔ c ∈ C.bias.constraints := mem_toList'
    rw [hmem, Bias.mem_holding, hin]
    apply and_congr_right
    intro hc
    obtain ⟨b, hb⟩ := htotal c (hin.2 hc)
    rw [← Arena.check_eq_ok hb fun v hv => hq v ((hclosed c hc).2 v hv), hb, Except.ok.injEq]
  intro d
  rw [mem_ofList, mem_of_mapM hds]
  constructor
  · intro hd
    obtain ⟨c, hc, hn⟩ := hd
    exact ⟨c, (hkept c).1 hc, (Arena.negation_eq_ok hn).1⟩
  · intro hd
    obtain ⟨c, hc, rfl⟩ := hd
    have hreg := (hclosed c (Bias.mem_holding.1 hc).1).1
    exact ⟨c, (hkept c).2 hc, hreg.negation⟩

/-- Only a sum that leaves its word keeps what excludes a query from being told. -/
theorem exclusion_error {C : Concept} (hclosed : C.bias.network.Closed C.arena) {q : Query}
    {e : Fault} (h : C.exclusion q = .error e) : e = .overflow := by
  have hreg : ∀ c ∈ C.bias.toList, C.arena.Registered c :=
    fun c hc => (hclosed c (mem_toList'.1 hc)).1
  rw [exclusion] at h
  cases hcs : C.bias.toList.filterM (C.arena.check q) with
  | error e' =>
    rw [hcs] at h
    cases h
    obtain ⟨c, hc, he⟩ := filterM_eq_error hcs
    exact Arena.check_error (hreg c hc) he
  | ok cs =>
    obtain ⟨ds, hds⟩ := exists_mapM C.arena.negation fun c (hc : c ∈ cs) =>
      ⟨_, (hreg c (((filterM_eq_ok hcs).2.2 c).1 hc).1).negation⟩
    rw [hcs] at h
    change (cs.mapM C.arena.negation >>= fun ds => pure (IndexSet.ofList ds)) = _ at h
    rw [hds] at h
    cases h

/-- What is learnt holds where it did before and some member of each set holds. -/
theorem learn_spec {C C' : Concept} {rejected : List IndexSet} (hA : C.arena.Built)
    (h : C.learn rejected = .ok C') :
    C.arena.Extends C'.arena ∧ C'.arena.Built ∧ C'.queries = C.queries ∧
      ∀ f, C'.learned.Holds C'.arena f ↔ C.learned.Holds C'.arena f ∧
        ∀ ms ∈ rejected, ∃ d ∈ ms, C'.arena.Holds f d := by
  induction rejected generalizing C with
  | nil =>
    cases h
    simp [Arena.Extends.refl, hA]
  | cons ms rest ih =>
    rw [learn, bind_eq_ok] at h
    obtain ⟨⟨c, A'⟩, hdisj, h⟩ := h
    rw [bind_eq_ok] at h
    obtain ⟨N, hN, h⟩ := h
    obtain ⟨hext, hbuilt, hqueries, hholds⟩ := ih (hA.disjunction hdisj) h
    obtain ⟨-, hcons, -⟩ := Network.add_eq_ok hN
    refine ⟨(Arena.extends_disjunction hdisj).trans hext, hbuilt, hqueries, fun f => ?_⟩
    rw [hholds, List.forall_mem_cons, ← Arena.holds_disjunction hdisj hext hbuilt f, ← and_assoc]
    apply and_congr_left'
    simp only [Network.Holds, hcons, mem_insert, forall_eq_or_imp]
    exact and_comm

/-- Disjunctions of constraints that stand in the arena can all be learnt. Nothing else of the
concept changes, and what is learnt stands in the arena. -/
theorem exists_learn {C : Concept} {rejected : List IndexSet} (hA : C.arena.Built)
    (hlearned : ∀ c ∈ C.learned.constraints, C.arena.Registered c)
    (hms : ∀ ms ∈ rejected, ∀ d ∈ ms, C.arena.Registered d) :
    ∃ A N, C.learn rejected = .ok { C with arena := A, learned := N } ∧
      ∀ c ∈ N.constraints, A.Registered c := by
  induction rejected generalizing C with
  | nil => exact ⟨C.arena, C.learned, rfl, hlearned⟩
  | cons ms rest ih =>
    obtain ⟨c, A, hdisj, hc, -⟩ := hA.exists_disjunction (hms ms List.mem_cons_self)
    obtain ⟨N, hN⟩ := Network.exists_add hc C.learned
    have hext := Arena.extends_disjunction hdisj
    have hreg : ∀ d ∈ N.constraints, A.Registered d := by
      intro d hd
      rw [(Network.add_eq_ok hN).2.1] at hd
      rcases mem_insert.1 hd with rfl | hd
      · exact hc
      · exact hext.registered (hlearned d hd)
    have hnext := ih (C := { C with arena := A, learned := N }) (hA.disjunction hdisj) hreg
      fun ms' hms' d hd => hext.registered (hms ms' (List.mem_cons_of_mem _ hms') d hd)
    obtain ⟨A', N', hlearn, hall⟩ := hnext
    refine ⟨A', N', ?_, hall⟩
    rw [learn, hdisj]
    change (C.learned.add A c >>= fun N => learn { C with arena := A, learned := N } rest) = _
    rw [hN]
    exact hlearn

end Concept

end Acquisition
