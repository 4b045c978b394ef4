import Acquisition.Proofs.Conflict
import Acquisition.Proofs.Exhaustive

/-!
# Conflicts are minimal

Nothing is asked here about what constraints mean. Some sets of constraints are
satisfiable and with a set its subsets are, and a backend tells which are. A network that
cannot be satisfied together with a satisfiable background then has its search by halves
end in a minimal part that cannot.

The two halves are searched with different backgrounds. What is minimal in the right half
is so with all of the left half given, and what is minimal in the left half is so with
only the first result given. In neither half it matters whether the background is still
satisfiable: where it is not, the empty part is the minimal one.
-/
namespace Acquisition

open IndexSet

/-- What a set has to satisfy along with the constraints of `b`. -/
def Given (Sat : IndexSet → Prop) (b : IndexSet) : IndexSet → Prop := fun s => Sat (b.union s)

section Halves

variable {Sat : IndexSet → Prop} {b : IndexSet}

/-- It does not matter whether a constraint is given or taken. -/
theorem Hereditary.regroup (hSat : Hereditary Sat) {b' s s' : IndexSet} (h : Given Sat b s)
    (hsub : ∀ c, c ∈ b' ∨ c ∈ s' → c ∈ b ∨ c ∈ s) : Given Sat b' s' := by
  apply hSat _ _ _ h
  intro c hc
  exact mem_union.2 (hsub c (mem_union.1 hc))

/-- With nothing taken, only what is given is left. -/
theorem given_empty : Given Sat b .empty ↔ Sat b := by
  have h : b.union .empty = b := ext_mem fun c => by simp
  rw [Given, h]

/-- Where what is given fails already, nothing has to be taken. -/
theorem Minimal.empty {s : IndexSet} (hb : ¬ Sat b) : Minimal (Given Sat b) s .empty where
  subset := empty_subset s
  unsat := mt given_empty.1 hb
  minimal := fun _ ht _ => Subset.antisymm ht (empty_subset _)

/-- A single constraint that fails with what is given is minimal, if that is satisfiable. -/
theorem Minimal.single {s : IndexSet} {c : ConstraintId} (hs : ∀ d, d ∈ s ↔ d = c) (hb : Sat b)
    (hun : ¬ Given Sat b s) : Minimal (Given Sat b) s s where
  subset := Subset.refl s
  unsat := hun
  minimal := by
    intro t hts ht
    apply Subset.antisymm hts
    intro d hd
    obtain rfl : d = c := (hs d).1 hd
    by_contra hdt
    have hempty : t = .empty := by
      apply Subset.antisymm _ (empty_subset t)
      intro e he
      obtain rfl : e = d := (hs e).1 (hts e he)
      exact absurd he hdt
    exact ht (hempty ▸ given_empty.2 hb)

/-- A minimal part of one half with all of the other given, and one of the other half with
only the first part given, are a minimal part of the whole. -/
theorem Minimal.of_halves (hSat : Hereditary Sat) {left right whole r l : IndexSet}
    (hwhole : ∀ c, c ∈ whole ↔ c ∈ left ∨ c ∈ right)
    (hr : Minimal (Given Sat (b.union left)) right r)
    (hl : Minimal (Given Sat (b.union r)) left l) :
    Minimal (Given Sat b) whole (l.union r) where
  subset := by
    intro c hc
    rw [hwhole]
    exact (mem_union.1 hc).imp (hl.subset c) (hr.subset c)
  unsat := by
    intro h
    apply hl.unsat
    apply hSat.regroup h
    intro c hc
    simp only [mem_union] at hc ⊢
    tauto
  minimal := by
    intro t ht hun
    -- As `t` fails, so does what it has of each part with whatever that part was found with.
    have hrt : r.inter t = r := by
      apply hr.minimal _ fun c hc => (mem_inter.1 hc).1
      intro h
      apply hun
      apply hSat.regroup h
      intro c hc
      have hmem := ht c
      have hleft := hl.subset c
      simp only [mem_union, mem_inter] at hmem ⊢
      tauto
    have hlt : l.inter t = l := by
      apply hl.minimal _ fun c hc => (mem_inter.1 hc).1
      intro h
      apply hun
      apply hSat.regroup h
      intro c hc
      have hmem := ht c
      simp only [mem_union, mem_inter] at hmem ⊢
      tauto
    apply Subset.antisymm ht
    intro c hc
    rcases mem_union.1 hc with hc | hc
    · rw [← hlt] at hc
      exact (mem_inter.1 hc).2
    · rw [← hrt] at hc
      exact (mem_inter.1 hc).2

end Halves

variable {σ : Type} {A : Arena} {scope : IndexSet} {Sat : IndexSet → Prop}

/-- The backend always tells whether a network over the scope is satisfiable, which only
depends on its constraints. -/
def CpBackend.Decides (B : CpBackend σ) (A : Arena) (scope : IndexSet) (Sat : IndexSet → Prop) :
    Prop :=
  ∀ N s, Conflict.Over A scope N →
    (B.satisfiable A N).Leads s (fun r _ => r = true ↔ Sat N.constraints) fun _ _ => False

/-- The backend tells whether a network over the scope is satisfiable whose constraints are as
`D` asks, keeps an invariant of the world, and fails only as `Err` allows. -/
def CpBackend.Tells (B : CpBackend σ) (A : Arena) (scope : IndexSet) (D : ConstraintId → Prop)
    (Sat : IndexSet → Prop) (I : σ → Prop) (Err : Failure → σ → Prop) : Prop :=
  ∀ N s, Conflict.Over A scope N → (∀ c ∈ N.constraints, D c) → I s →
    (B.satisfiable A N).Leads s (fun r t => I t ∧ (r = true ↔ Sat N.constraints))
      fun f t => I t ∧ Err f t

theorem CpBackend.Decides.tells {B : CpBackend σ} (hB : B.Decides A scope Sat) :
    B.Tells A scope (fun _ => True) Sat (fun _ => True) fun _ _ => False :=
  fun N s hN _ _ => (hB N s hN).mono (fun _ _ h => ⟨trivial, h⟩) fun _ _ h => ⟨trivial, h⟩

/-- The backend answers truly about networks over the scope whose constraints are as `D` asks. -/
def CpBackend.AnswersOn (B : CpBackend σ) (A : Arena) (scope : IndexSet) (D : ConstraintId → Prop)
    (dom : Ranges) (I : σ → Prop) (Err : Failure → σ → Prop) : Prop :=
  ∀ N s, Conflict.Over A scope N → (∀ c ∈ N.constraints, D c) → I s →
    (B.witness A N).Leads s (fun r t => I t ∧ N.Answered A dom r) fun f t => I t ∧ Err f t

/-- True answers tell which sets have a common solution, if the variables of the scope have
values at all. -/
theorem CpBackend.AnswersOn.tells {B : CpBackend σ} {D : ConstraintId → Prop} {dom : Ranges}
    {I : σ → Prop} {Err : Failure → σ → Prop} (hB : B.AnswersOn A scope D dom I Err)
    (hdom : ∃ f : Valuation, f.Within dom scope) :
    B.Tells A scope D ((Network.ofScope scope).Admits A dom) I Err := by
  intro N s hN hD hI
  rw [CpBackend.satisfiable, Action.leads_map]
  apply (hB N s hN hD hI).mono _ fun _ _ h => h
  rintro r t ⟨hI, hr⟩
  apply And.intro hI
  have hsat : r.isSome = true ↔ N.Satisfiable A dom := by
    cases r with
    | none => exact iff_of_false Bool.false_ne_true hr
    | some q => exact iff_of_true rfl (Query.Solves.satisfiable hr)
  rw [hsat, hN.satisfiable_iff hdom]
  exact exists_congr fun f => and_congr_right fun _ =>
    (and_iff_right (Network.holds_ofScope A scope f)).symm

/-- A lawful backend decides which sets have a common solution, if the variables of the
scope have values at all. -/
theorem CpBackend.Lawful.decides {B : CpBackend σ} {dom : Ranges}
    (hB : B.Lawful dom fun _ _ => False) (hA : A.Built)
    (hdom : ∃ f : Valuation, f.Within dom scope) :
    B.Decides A scope ((Network.ofScope scope).Admits A dom) := by
  have hanswers : B.AnswersOn A scope (fun _ => True) dom (fun _ => True) fun _ _ => False :=
    fun N s hN _ _ => hB.answers A N s hA hN.closed trivial
  intro N s hN
  exact (hanswers.tells hdom N s hN (fun _ _ => trivial) trivial).mono (fun _ _ h => h.2)
    fun _ _ h => h.2

namespace Conflict

variable {B : CpBackend σ} {st : σ}

/-- Two networks over the scope that have the constraints of another between them, and
each at least one but not all of them. -/
structure Halves (A : Arena) (scope : IndexSet) (N left right : Network) : Prop where
  overLeft : Over A scope left
  overRight : Over A scope right
  mem : ∀ c, c ∈ N.constraints ↔ c ∈ left.constraints ∨ c ∈ right.constraints
  sizeLeft : 0 < left.size ∧ left.size < N.size
  sizeRight : 0 < right.size ∧ right.size < N.size

theorem size_of_mem {cs : List ConstraintId} {M : Network} (hcs : cs.Pairwise (· < ·))
    (hmem : ∀ c, c ∈ M.constraints ↔ c ∈ cs) : M.size = cs.length := by
  have h : M.constraints = ofList cs := ext_mem fun c => by rw [hmem, mem_ofList]
  rw [Network.size, IndexSet.size, h, toList_ofList hcs]

theorem two_le_size {N : Network} (hnil : N.toList = [] → False)
    (hone : ∀ c, N.toList = [c] → False) : 2 ≤ N.size := by
  rw [Network.size, IndexSet.size]
  cases hids : N.constraints.toList with
  | nil => exact absurd hids hnil
  | cons c cs =>
    cases cs with
    | nil => exact absurd hids (hone c)
    | cons d ds => simp

/-- A network of two constraints or more falls into halves. -/
theorem exists_halves {N : Network} (hN : Over A scope N) (hsize : 2 ≤ N.size) :
    ∃ left right, Network.ofList A .empty (N.toList.take (N.toList.length / 2)) = .ok left ∧
      Network.ofList A .empty (N.toList.drop (N.toList.length / 2)) = .ok right ∧
      Halves A scope N left right := by
  have hids : ∀ c ∈ N.toList, c ∈ N.constraints := fun c hc => mem_toList'.1 hc
  have hlen : N.toList.length = N.size := rfl
  have hsorted : N.toList.Pairwise (· < ·) := increasing_toList _
  generalize hcut : N.toList.length / 2 = cut
  obtain ⟨left, hleft, hoverl, hmeml, -⟩ :=
    exists_networkOf hN fun c hc => hids c (List.mem_of_mem_take (i := cut) hc)
  obtain ⟨right, hright, hoverr, hmemr, -⟩ :=
    exists_networkOf hN fun c hc => hids c (List.mem_of_mem_drop (i := cut) hc)
  have hsizel := size_of_mem (hsorted.sublist (List.take_sublist cut _)) hmeml
  have hsizer := size_of_mem (hsorted.sublist (List.drop_sublist cut _)) hmemr
  rw [List.length_take] at hsizel
  rw [List.length_drop] at hsizer
  refine ⟨left, right, hleft, hright, hoverl, hoverr, fun c => ?_, by omega, by omega⟩
  rw [hmeml, hmemr, ← List.mem_append, List.take_append_drop]
  exact mem_toList'.symm

/-- The search by halves finds a minimal part. The background it is told not to check is
satisfiable. The backend is asked about no other constraints than those of the background
and of the network, and the search fails only where it does or at the deadline. -/
theorem leads_minimalPart_of {D : ConstraintId → Prop} {I : σ → Prop} {Err : Failure → σ → Prop}
    (hB : B.Tells A scope D Sat I Err) (hSat : Hereditary Sat) (deadline : Limit)
    (fuel : Nat) {background N : Network} (grown : Bool) (hb : Over A scope background)
    (hN : Over A scope N) (hDb : ∀ c ∈ background.constraints, D c)
    (hDN : ∀ c ∈ N.constraints, D c) (hpos : 0 < N.size) (hfuel : N.size ≤ fuel)
    (hun : ¬ Given Sat background.constraints N.constraints)
    (hgrown : grown = false → Sat background.constraints) (hI : I st) :
    (minimalPart B A deadline fuel background grown N).Leads st
      (fun M t => I t ∧ Over A scope M ∧
        Minimal (Given Sat background.constraints) N.constraints M.constraints)
      (fun f t => I t ∧ (f = .error .timeout ∧ deadline = .passed ∨ Err f t)) := by
  -- Both halves are shorter than the network, so the fuel is enough for them.
  induction fuel generalizing background N grown st with
  | zero => omega
  | succ fuel ih =>
    have search : Sat background.constraints → ∀ t, I t →
        (byHalves B A deadline fuel background N).Leads t
          (fun M t => I t ∧ Over A scope M ∧
            Minimal (Given Sat background.constraints) N.constraints M.constraints)
          (fun f t => I t ∧ (f = .error .timeout ∧ deadline = .passed ∨ Err f t)) := by
      intro hsat t hI
      rw [byHalves]
      split
      · next hids =>
        have hlen : N.size = 0 := congrArg List.length hids
        omega
      · next c hids =>
        refine ⟨hI, hN, Minimal.single (c := c) (fun d => ?_) hsat hun⟩
        rw [← mem_toList', show N.constraints.toList = [c] from hids, List.mem_singleton]
      · next hnil hone =>
        obtain ⟨left, right, hleft, hright, hh⟩ := exists_halves hN (two_le_size hnil hone)
        obtain ⟨hl0, hl⟩ := hh.sizeLeft
        obtain ⟨hr0, hr⟩ := hh.sizeRight
        have hDleft : ∀ c ∈ left.constraints, D c := fun c hc => hDN c ((hh.mem c).2 (.inl hc))
        have hDright : ∀ c ∈ right.constraints, D c := fun c hc => hDN c ((hh.mem c).2 (.inr hc))
        have hDboth : ∀ {M : Network}, (∀ c ∈ M.constraints, D c) →
            ∀ c ∈ (background.union M).constraints, D c :=
          fun hM c hc => (mem_union.1 hc).elim (hDb c) (hM c)
        rw [networkOf, networkOf, hleft, hright]
        have hunr : ¬ Given Sat (background.union left).constraints right.constraints := by
          intro h
          apply hun
          apply hSat.regroup h
          intro c hc
          have hmem := hh.mem c
          simp only [Network.union, mem_union]
          tauto
        apply (ih true (hb.union hh.overLeft) hh.overRight (hDboth hDleft) hDright hr0 (by omega)
          hunr (by simp) hI).bind _ fun _ _ h => h
        rintro R t ⟨hI, hR, hminr⟩
        have hDR : ∀ c ∈ R.constraints, D c := fun c hc => hDright c (hminr.subset c hc)
        have hunl : ¬ Given Sat (background.union R).constraints left.constraints := by
          intro h
          apply hminr.unsat
          apply hSat.regroup h
          intro c hc
          simp only [Network.union, mem_union] at hc ⊢
          tauto
        have hkept : (!R.isEmpty) = false → Sat (background.union R).constraints := by
          intro hempty
          have hisEmpty : R.isEmpty = true := by simpa using hempty
          have hnone : R.constraints = .empty :=
            ext_mem fun c => iff_of_false (isEmpty_eq_true.1 hisEmpty c) (mem_empty' c)
          change Given Sat background.constraints R.constraints
          rw [hnone]
          exact given_empty.2 hsat
        apply (ih _ (hb.union hR) hh.overLeft (hDboth hDR) hDleft hl0 (by omega) hunl hkept
          hI).bind _ fun _ _ h => h
        rintro L t ⟨hI, hL, hminl⟩
        exact ⟨hI, hL.union hR, .of_halves hSat hh.mem hminr hminl⟩
    rw [minimalPart_succ, Action.leads_bind, Limit.leads_poll]
    refine ⟨fun _ => ?_, fun hpassed => ⟨hI, .inl ⟨rfl, hpassed⟩⟩⟩
    cases grown with
    | false => exact search (hgrown rfl) st hI
    | true =>
      rw [if_pos rfl, Action.leads_bind]
      apply (hB background st hb hDb hI).mono _ fun _ _ h => ⟨h.1, .inr h.2⟩
      rintro r t ⟨hI, hr⟩
      cases r with
      | true => exact search (hr.1 rfl) t hI
      | false => exact ⟨hI, .empty A scope, .empty fun h => Bool.false_ne_true (hr.2 h)⟩

/-- With a backend that never fails and without a deadline the search does not fail. -/
theorem leads_minimalPart_minimal (hB : B.Decides A scope Sat) (hSat : Hereditary Sat)
    (fuel : Nat) {background N : Network} (grown : Bool) (hb : Over A scope background)
    (hN : Over A scope N) (hpos : 0 < N.size) (hfuel : N.size ≤ fuel)
    (hun : ¬ Given Sat background.constraints N.constraints)
    (hgrown : grown = false → Sat background.constraints) :
    (minimalPart B A .unbounded fuel background grown N).Leads st
      (fun M _ => Over A scope M ∧
        Minimal (Given Sat background.constraints) N.constraints M.constraints)
      (fun _ _ => False) := by
  apply (leads_minimalPart_of hB.tells hSat .unbounded fuel grown hb hN (fun _ _ => trivial)
    (fun _ _ => trivial) hpos hfuel hun hgrown trivial).mono
  · exact fun _ _ h => h.2
  · rintro f t ⟨-, ⟨-, h⟩ | h⟩
    · cases h
    · exact h

/-- More than a step for each constraint is never needed. -/
theorem minimalPart_enough (B : CpBackend σ) (deadline : Limit) {fuel more : Nat}
    {background N : Network} (grown : Bool) (hN : Over A scope N) (hpos : 0 < N.size)
    (hfuel : N.size ≤ fuel) (hmore : N.size ≤ more) :
    minimalPart B A deadline fuel background grown N =
      minimalPart B A deadline more background grown N := by
  induction fuel generalizing background N grown more with
  | zero => omega
  | succ fuel ih =>
    cases more with
    | zero => omega
    | succ more =>
      rw [minimalPart_succ, minimalPart_succ, byHalves, byHalves]
      split
      · rfl
      · rfl
      · next hnil hone =>
        obtain ⟨left, right, hleft, hright, hh⟩ := exists_halves hN (two_le_size hnil hone)
        obtain ⟨hl0, hl⟩ := hh.sizeLeft
        obtain ⟨hr0, hr⟩ := hh.sizeRight
        have inLeft : ∀ b g, minimalPart B A deadline fuel b g left =
            minimalPart B A deadline more b g left :=
          fun b g => ih g hh.overLeft hl0 (by omega) (by omega)
        have inRight : ∀ b g, minimalPart B A deadline fuel b g right =
            minimalPart B A deadline more b g right :=
          fun b g => ih g hh.overRight hr0 (by omega) (by omega)
        have hpure : ∀ M : Network, (Action.ofChecked (.ok M) : Action σ Network) = pure M :=
          fun _ => rfl
        simp only [networkOf, hleft, hright, hpure, pure_bind, inLeft, inRight]

/-- Without a background the conflict that is found is a minimal one, and it is not empty. -/
theorem leads_explain_minimal {D : ConstraintId → Prop} {I : σ → Prop} {Err : Failure → σ → Prop}
    (hB : B.Tells A scope D Sat I Err) (hSat : Hereditary Sat) {deadline : Limit} {N : Network}
    (hN : Over A scope N) (hD : ∀ c ∈ N.constraints, D c) (hsat : Sat .empty)
    (hun : ¬ Sat N.constraints) (hI : I st) :
    (explain B A deadline {} N).Leads st
      (fun M t => I t ∧ (∃ c, c ∈ M.constraints) ∧ Minimal Sat N.constraints M.constraints)
      (fun f t => I t ∧ (f = .error .timeout ∧ deadline = .passed ∨ Err f t)) := by
  have hgiven : Given Sat ({} : Network).constraints = Sat := by
    funext s
    have hsame : ({} : Network).constraints.union s = s := by
      apply ext_mem
      intro c
      rw [mem_union]
      exact or_iff_right (mem_empty c)
    rw [Given, hsame]
  have hsome : ∀ {s : IndexSet}, ¬ Sat s → ∃ c, c ∈ s := by
    intro s hs
    by_contra hnone
    obtain rfl : s = .empty := ext_mem fun c =>
      iff_of_false (fun hc => hnone ⟨c, hc⟩) (mem_empty' c)
    exact hs hsat
  obtain ⟨c, hc⟩ := hsome hun
  have hpos : 0 < N.size := List.length_pos_of_mem (mem_toList'.2 hc)
  have hnonempty : N.isEmpty = false := isEmpty_eq_false.2 ⟨c, hc⟩
  have hempty : Over A scope ({} : Network) := .empty A scope
  have hnothing : ∀ c ∈ ({} : Network).constraints, D c := fun c hc => absurd hc (mem_empty c)
  rw [explain, hnonempty, if_neg Bool.false_ne_true]
  have hunN : ¬ Given Sat ({} : Network).constraints N.constraints := by
    rw [hgiven]
    exact hun
  apply (leads_minimalPart_of hB hSat deadline N.size false hempty hN hnothing hD hpos le_rfl
    hunN (fun _ => hsat) hI).bind _ fun _ _ h => h
  rintro M t ⟨hI, hM, hmin⟩
  rw [hgiven] at hmin
  have hDM : ∀ c ∈ (({} : Network).union M).constraints, D c := fun c hc =>
    (mem_union.1 hc).elim (hnothing c) fun hc => hD c (hmin.subset c hc)
  rw [Action.leads_bind, confirm, Action.leads_bind, Action.leads_attempt]
  apply (hB (({} : Network).union M) t (hempty.union hM) hDM hI).mono
  · rintro r u ⟨hI, hr⟩
    cases r with
    | true =>
      have hsatM : Given Sat ({} : Network).constraints M.constraints := hr.1 rfl
      rw [hgiven] at hsatM
      exact absurd hsatM hmin.unsat
    | false => exact ⟨hI, hsome hmin.unsat, hmin⟩
  · rintro f u ⟨hI, hf⟩
    cases f with
    | fault e => exact ⟨hI, .inr hf⟩
    | error e => exact ⟨hI, hsome hmin.unsat, hmin⟩
    | outOfFuel => exact ⟨hI, hsome hmin.unsat, hmin⟩

/-- A conflict is found in every network that fails with a satisfiable background. It is
minimal, and not one of the faults that are possible comes up. -/
theorem explain_minimal (hB : B.Decides A scope Sat) (hSat : Hereditary Sat)
    {background N : Network} (hb : Over A scope background) (hN : Over A scope N)
    (hsat : Sat background.constraints)
    (hun : ¬ Sat (background.constraints.union N.constraints)) :
    (explain B A .unbounded background N).Leads st
      (fun M _ => (∃ c, c ∈ M.constraints) ∧
        Minimal (Given Sat background.constraints) N.constraints M.constraints)
      (fun _ _ => False) := by
  have hsome : ∀ {s : IndexSet}, ¬ Given Sat background.constraints s → ∃ c, c ∈ s := by
    intro s hs
    by_contra hnone
    obtain rfl : s = .empty := ext_mem fun c =>
      iff_of_false (fun hc => hnone ⟨c, hc⟩) (mem_empty' c)
    exact hs (given_empty.2 hsat)
  obtain ⟨c, hc⟩ := hsome hun
  have hpos : 0 < N.size := List.length_pos_of_mem (mem_toList'.2 hc)
  have hnonempty : N.isEmpty = false := isEmpty_eq_false.2 ⟨c, hc⟩
  rw [explain, hnonempty]
  apply (leads_minimalPart_minimal hB hSat N.size false hb hN hpos le_rfl hun fun _ => hsat).bind
    _ fun _ _ h => h
  rintro M t ⟨hM, hmin⟩
  rw [Action.leads_bind, confirm, Action.leads_bind, Action.leads_attempt]
  apply (hB (background.union M) t (hb.union hM)).mono _ fun _ _ h => h.elim
  intro r u hr
  cases r with
  | true => exact absurd (hr.1 rfl) hmin.unsat
  | false => exact ⟨hsome hmin.unsat, hmin⟩

open Exhaustive in
/-- The network has the constraint of the background, its negation and one that has nothing
to do with the two. -/
theorem explain_minimal_shared :
    let Sat := (Network.ofScope (.ofList [0, 1])).Admits sample bits.Allows
    let background : Network := ⟨.ofList [0], .ofList [0]⟩
    let N : Network := ⟨.ofList [0, 1], .ofList [0, 1, 4]⟩
    (explain (Exhaustive.cp bits) sample .unbounded background N).Leads []
      (fun M _ => (∃ c, c ∈ M.constraints) ∧
        Minimal (Given Sat background.constraints) N.constraints M.constraints)
      (fun _ _ => False) := by
  have hwithin : Valuation.Within bits.Allows (.ofList [0, 1]) fun _ => 0 := by
    intro v hv
    have hv' : v = 0 ∨ v = 1 := by simpa using hv
    rcases hv' with rfl | rfl <;> exact ⟨⟨0, 1⟩, rfl, by decide, by decide⟩
  apply explain_minimal ((cp_lawful bits _).decides built_sample ⟨_, hwithin⟩)
    (Network.hereditary_admits _)
  · exact .ofList .empty [0] (by decide +kernel) (subset_eq_true.1 (by decide +kernel))
  · exact .ofList .empty [0, 1, 4] (by decide +kernel) (subset_eq_true.1 (by decide +kernel))
  · exact ⟨_, hwithin, Network.holds_ofScope _ _ _, fun c hc => by
      obtain rfl : c = 0 := by simpa using hc
      decide +kernel⟩
  · intro h
    apply not_admits_clash bits.Allows _
    apply Network.hereditary_admits _ _ _ _ h
    exact subset_eq_true.1 (by decide +kernel)

end Conflict

end Acquisition
