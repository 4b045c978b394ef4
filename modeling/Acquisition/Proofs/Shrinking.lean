import Acquisition.Proofs.Breadth
import Acquisition.Proofs.Simplification

/-!
# Simplified disjunctions are smaller

To drop a member brings down the breadth of a disjunction. Renaming is where this hangs on the
subsets. A group of members makes room for one constraint, but this may be a disjunction, and
broader than all of the group together. When nothing but the new name is left of the
disjunction, the constraint becomes that disjunction, and other subsets may then lead back from
it. So the new name has to be less broad than the group, or it is the disjunction of the group
itself.
-/
namespace Acquisition.Simplify

open Checked IndexSet Arena

variable {A B : Arena} {muses : List IndexSet}

/-! ### Groups and their names -/

/-- By the known subsets a constraint is equivalent to the disjunction of a group of two at
least: it contradicts their negations taken together, and its negation contradicts each. -/
structure Names (muses : List IndexSet) (group : IndexSet) (r : ConstraintId) : Prop where
  several : 2 ≤ group.size
  fresh : r ∉ twins group
  covered : (twins group).insert r ∈ muses
  within : ∀ c ∈ group, IndexSet.ofList [c, twin r] ∈ muses

/-- The name of a group is less broad than the group, unless it is just its disjunction. -/
def Shrinks (A : Arena) (muses : List IndexSet) : Prop :=
  ∀ group r, Names muses group r →
    A.breadth r < A.spread group ∨ A.disjuncts? r = .ok (some group)

/-- An arena in which the known subsets stand, and names are less broad than their groups. -/
structure Settled (muses : List IndexSet) (A : Arena) : Prop where
  built : A.Built
  registered : ∀ mus ∈ muses, ∀ c ∈ mus, A.Registered c
  shrinks : Shrinks A muses

theorem Names.registered {group : IndexSet} {r : ConstraintId} (h : Names muses group r)
    (hmuses : ∀ mus ∈ muses, ∀ c ∈ mus, A.Registered c) {c : ConstraintId} (hc : c ∈ group) :
    A.Registered c :=
  hmuses _ (h.within c hc) c (mem_ofList.2 List.mem_cons_self)

theorem Names.registered_name {group : IndexSet} {r : ConstraintId} (h : Names muses group r)
    (hmuses : ∀ mus ∈ muses, ∀ c ∈ mus, A.Registered c) : A.Registered r :=
  hmuses _ h.covered r (mem_insert.2 (.inl rfl))

theorem Settled.extend (h : Settled muses A) (hAB : A.Extends B) (hB : B.Built) :
    Settled muses B where
  built := hB
  registered := fun mus hmus c hc => hAB.registered (h.registered mus hmus c hc)
  shrinks := by
    intro group r hr
    have hgroup : ∀ c ∈ group, A.Registered c := fun c hc => hr.registered h.registered hc
    have hname := hr.registered_name h.registered
    rw [hAB.breadth hname, hAB.spread hgroup, hAB.disjuncts_eq hname]
    exact h.shrinks group r hr

/-- Where the larger subsets have no disjunctions as members, names are not broad at all. -/
theorem shrinks_of_plain (hA : A.Built)
    (hmuses : ∀ mus ∈ muses, ∀ c ∈ mus, A.Registered c)
    (hplain : ∀ mus ∈ muses, 2 < mus.size → ∀ c ∈ mus, A.disjuncts? c = .ok none) :
    Shrinks A muses := by
  intro group r hr
  have hsize : ((twins group).insert r).size = group.size + 1 := by
    rw [size_insert hr.fresh, size_twins]
  have hname : A.breadth r = 1 := by
    apply hA.breadth_of_plain
    apply hplain _ hr.covered
    · have htwo := hr.several
      omega
    · exact mem_insert.2 (.inl rfl)
  have hgroup := size_le_spread fun c hc => hr.registered hmuses hc
  have htwo := hr.several
  left
  omega

/-! ### Members of a disjunction -/

theorem exists_negations {cs : List ConstraintId} (h : ∀ c ∈ cs, A.Registered c) :
    ∃ ns, cs.mapM A.negation = .ok ns := by
  apply exists_mapM
  intro c hc
  exact ⟨twin c, (h c hc).negation⟩

theorem exists_dropImplied (muses : List IndexSet) (cs : List ConstraintId) {kept : IndexSet}
    (hkept : ∀ d ∈ kept, A.Registered d) :
    ∃ kept', dropImplied A muses kept cs = .ok kept' ∧ kept' ⊆ kept := by
  induction cs generalizing kept with
  | nil => exact ⟨kept, rfl, Subset.refl kept⟩
  | cons c cs ih =>
    unfold dropImplied
    split
    · exact ⟨kept, rfl, Subset.refl kept⟩
    · have hothers : ∃ others, (kept.toList.filter (· != c)).mapM A.negation = .ok others := by
        apply exists_negations
        intro d hd
        exact hkept d (mem_toList'.1 (List.mem_filter.1 hd).1)
      rcases hothers with ⟨others, hothers⟩
      simp only [hothers, bind, Except.bind]
      split
      · have herase : kept.erase c ⊆ kept := fun d hd => (mem_erase.1 hd).1
        have hrest := ih fun d hd => hkept d (herase d hd)
        rcases hrest with ⟨kept', h, hsub⟩
        exact ⟨kept', h, Subset.trans hsub herase⟩
      · exact ih hkept

theorem exists_renamedBy {members mus : IndexSet} {r : ConstraintId}
    (hmus : ∀ c ∈ mus, A.Registered c) (hr : r ∈ mus) :
    ∃ found, renamedBy A muses members mus r = .ok found := by
  have hns : ∃ ns, (mus.toList.filter (· != r)).mapM A.negation = .ok ns := by
    apply exists_negations
    intro c hc
    exact hmus c (mem_toList'.1 (List.mem_filter.1 hc).1)
  rcases hns with ⟨ns, hns⟩
  unfold renamedBy
  simp only [hns, (hmus r hr).negation, bind, Except.bind, pure, Except.pure]
  split
  · exact ⟨none, rfl⟩
  · split
    · exact ⟨_, rfl⟩
    · exact ⟨none, rfl⟩

/-- A renaming is told by a subset and one of its members. -/
theorem names_of_renamedBy {members mus group : IndexSet} {r s : ConstraintId}
    (hmus : mus ∈ muses) (hsize : 2 < mus.size) (hr : r ∈ mus)
    (h : renamedBy A muses members mus r = .ok (some (group, s))) :
    group ⊆ members ∧ Names muses group s := by
  unfold renamedBy at h
  rw [bind_eq_ok] at h
  obtain ⟨ns, hns, h⟩ := h
  have hgroup : .ofList ns = twins (mus.erase r) := by
    apply ext_mem
    intro c
    rw [mem_ofList, mem_of_mapM hns, mem_twins, mem_erase]
    constructor
    · rintro ⟨m, hm, hn⟩
      rw [(negation_eq_ok hn).1, twin_twin]
      rw [List.mem_filter, mem_toList', bne_iff_ne] at hm
      exact hm
    · intro hc
      have hm : twin c ∈ mus.toList.filter (· != r) := by
        rw [List.mem_filter, mem_toList', bne_iff_ne]
        exact hc
      obtain ⟨n, -, hn⟩ := mapM_ok_of_mem hns hm
      have hnc := (negation_eq_ok hn).1
      rw [twin_twin] at hnc
      exact ⟨twin c, hm, hnc ▸ hn⟩
  rw [hgroup] at h
  dsimp only at h
  split at h
  · cases h
  · next hsub =>
    rw [bind_eq_ok] at h
    obtain ⟨opposite, hopposite, h⟩ := h
    split at h
    · next hall =>
      cases h
      rw [Bool.not_eq_true', Bool.not_eq_false] at hsub
      refine ⟨subset_eq_true.1 hsub, ?_⟩
      have herase : (mus.erase r).insert r = mus := insert_erase hr
      have hfresh : r ∉ mus.erase r := fun hs => (mem_erase.1 hs).2 rfl
      refine ⟨?_, ?_, ?_, ?_⟩
      · have hcount := size_erase hr
        rw [size_twins]
        omega
      · rwa [twins_twins]
      · rw [twins_twins, herase]
        exact hmus
      · intro c hc
        rw [← (negation_eq_ok hopposite).1]
        exact List.contains_iff_mem.1 (List.all_eq_true.1 hall c (mem_toList'.2 hc))
    · cases h

theorem exists_renaming (members : IndexSet)
    (hmuses : ∀ mus ∈ muses, ∀ c ∈ mus, A.Registered c) :
    ∃ found, renaming? A muses members = .ok found ∧
      ∀ p, found = some p → p.1 ⊆ members ∧ Names muses p.1 p.2 := by
  have hcandidate : ∀ q ∈ (muses.filter (2 < ·.size)).flatMap fun mus => mus.toList.map (mus, ·),
      q.1 ∈ muses ∧ 2 < q.1.size ∧ q.2 ∈ q.1 := by
    intro q hq
    obtain ⟨mus, hmus, hq⟩ := List.mem_flatMap.1 hq
    obtain ⟨r, hr, rfl⟩ := List.mem_map.1 hq
    obtain ⟨hmus, hsize⟩ := List.mem_filter.1 hmus
    exact ⟨hmus, of_decide_eq_true hsize, mem_toList'.1 hr⟩
  have hfound : ∃ found, renaming? A muses members = .ok found := by
    apply exists_findSomeM
    intro q hq
    obtain ⟨hmus, -, hr⟩ := hcandidate q hq
    exact exists_renamedBy (hmuses q.1 hmus) hr
  rcases hfound with ⟨found, hfound⟩
  refine ⟨found, hfound, ?_⟩
  rintro ⟨group, r⟩ rfl
  obtain ⟨q, hq, h⟩ := findSomeM_eq_some hfound
  obtain ⟨hmus, hsize, hr⟩ := hcandidate q hq
  exact names_of_renamedBy hmus hsize hr h

/-- What is made of the members of a disjunction: the same, less broad ones, or fewer ones.
In the last case the only one that may be left has fewer members itself, or these very ones. -/
inductive Reduced (A : Arena) (ms : IndexSet) : IndexSet → Prop
  | same : Reduced A ms ms
  | lighter {kept : IndexSet} : A.spread kept < A.spread ms → Reduced A ms kept
  | fewer {kept : IndexSet} : A.spread kept ≤ A.spread ms → kept.size < ms.size →
      (∀ r inner, kept = .singleton r → A.disjuncts? r = .ok (some inner) →
        inner.size < ms.size ∨ inner = ms) → Reduced A ms kept

theorem reduced_of_subset {kept ms : IndexSet} (hms : ∀ d ∈ ms, A.Registered d)
    (h : kept ⊆ ms) : Reduced A ms kept := by
  by_cases he : kept = ms
  · rw [he]
    exact .same
  · exact .lighter (spread_lt h he hms)

theorem Reduced.spread_le {kept ms : IndexSet} (h : Reduced A ms kept) :
    A.spread kept ≤ A.spread ms := by
  cases h with
  | same => exact Nat.le_refl _
  | lighter hlt => exact Nat.le_of_lt hlt
  | fewer hle _ _ => exact hle

theorem Reduced.rename (hA : A.Built) {kept ms group : IndexSet} {r : ConstraintId}
    (h : Reduced A ms kept) (hsub : group ⊆ kept) (hr : Names muses group r)
    (hname : A.breadth r < A.spread group ∨ A.disjuncts? r = .ok (some group)) :
    Reduced A ms ((kept.diff group).insert r) := by
  have hinsert := spread_insert_le A (kept.diff group) r
  have hrest := spread_diff (A := A) hsub
  have hle := h.spread_le
  rcases hname with hlt | hdisjunction
  · exact .lighter (by omega)
  · have htwo := hr.several
    have hmembers := size_le_spread fun c hc => hA.registered_member hdisjunction hc
    have hbreadth := hA.breadth_of_disjuncts hdisjunction
    have hsize := size_diff_insert_lt hsub htwo r
    cases h with
    | lighter hlt => exact .lighter (by omega)
    | fewer hle hfewer honly =>
      refine .fewer (by omega) (by omega) ?_
      intro s inner hs hinner
      have hsr : r ∈ singleton s := hs ▸ mem_insert.2 (.inl rfl)
      rw [← mem_singleton.1 hsr, hdisjunction] at hinner
      cases hinner
      have hgroup := size_le_of_subset hsub
      left
      omega
    | same =>
      refine .fewer (by omega) (by omega) ?_
      intro s inner hs hinner
      have hsr : r ∈ singleton s := hs ▸ mem_insert.2 (.inl rfl)
      rw [← mem_singleton.1 hsr, hdisjunction] at hinner
      cases hinner
      by_cases he : group = kept
      · exact .inr he
      · exact .inl (size_lt_of_ssubset hsub he)

theorem exists_renameAll (h : Settled muses A) {ms : IndexSet} {fuel : Nat} {kept : IndexSet}
    (hms : ∀ d ∈ kept, A.Registered d) (hkept : Reduced A ms kept) :
    ∃ kept', renameAll A muses fuel kept = .ok kept' ∧ (∀ d ∈ kept', A.Registered d) ∧
      Reduced A ms kept' := by
  induction fuel generalizing kept with
  | zero => exact ⟨kept, rfl, hms, hkept⟩
  | succ fuel ih =>
    rcases exists_renaming kept h.registered with ⟨found, hfound, hnames⟩
    unfold renameAll
    rw [hfound]
    cases found with
    | none => exact ⟨kept, rfl, hms, hkept⟩
    | some p =>
      obtain ⟨hsub, hr⟩ := hnames p rfl
      refine ih ?_ (hkept.rename h.built hsub hr (h.shrinks p.1 p.2 hr))
      intro d hd
      rcases mem_insert.1 hd with rfl | hd
      · exact hr.registered_name h.registered
      · exact hms d (mem_diff.1 hd).1

theorem exists_simplified (h : Settled muses A) {ms : IndexSet}
    (hms : ∀ d ∈ ms, A.Registered d) :
    ∃ kept, disjunction A muses ms = .ok kept ∧ (∀ d ∈ kept, A.Registered d) ∧
      Reduced A ms kept := by
  rcases exists_dropImplied muses ms.toList hms with ⟨left, hleft, hsub⟩
  unfold disjunction
  rw [hleft]
  exact exists_renameAll h (fun d hd => hms d (hsub d hd)) (reduced_of_subset hms hsub)

/-- The disjunction of what is left is the one there was, or a smaller constraint. -/
theorem Reduced.bulk_lt (hA : A.Built) {c d : ConstraintId} {ms kept : IndexSet}
    (h : Reduced A ms kept) (hc : A.disjuncts? c = .ok (some ms))
    (hkept : ∀ e ∈ kept, A.Registered e) (hd : A.disjunction kept = .ok (d, B)) :
    d = c ∨ B.bulk d < A.bulk c := by
  cases h with
  | same =>
    left
    cases (hA.disjunction_found hc).symm.trans hd
    rfl
  | lighter hlt => exact .inr (hA.bulk_disjunction_lt hc hkept hlt hd)
  | fewer hle hfewer honly =>
    have hB := Built.disjunction hA hd
    obtain ⟨d', B', hd', hreg, hshape⟩ := hA.exists_disjunction hkept
    cases hd.symm.trans hd'
    have hbreadth := hA.breadth_of_disjuncts hc
    have hwidth := width_of_disjuncts hc
    rcases hshape with ⟨hone, rfl⟩ | ⟨-, hmembers⟩
    · have hspread := spread_singleton B d
      rw [← hone] at hspread
      obtain ⟨inner?, hinner⟩ := hreg.exists_disjuncts
      cases inner? with
      | none =>
        have hplain := width_of_plain hinner
        exact .inr (bulk_lt_of_width (by omega) (by omega))
      | some inner =>
        have hinnerWidth := width_of_disjuncts hinner
        rcases honly d inner hone hinner with hlt | rfl
        · exact .inr (bulk_lt_of_width (by omega) (by omega))
        · exact .inl (hA.eq_of_disjuncts hinner hc)
    · have hspread := (extends_disjunction hd).spread hkept
      have hkeptBreadth := hB.breadth_of_disjuncts hmembers
      have hkeptWidth := width_of_disjuncts hmembers
      exact .inr (bulk_lt_of_width (by omega) (by omega))

theorem exists_simplifyOne (h : Settled muses A) {c : ConstraintId} (hc : A.Registered c) :
    ∃ d B, simplifyOne muses A c = .ok (d, B) ∧ B.Registered d ∧ (d = c ∨ B.bulk d < A.bulk c) := by
  obtain ⟨ms?, hms⟩ := hc.exists_disjuncts
  unfold simplifyOne
  rw [hms]
  cases ms? with
  | none => exact ⟨c, A, rfl, hc, .inl rfl⟩
  | some ms =>
    obtain ⟨kept, hkept, hreg, hreduced⟩ :=
      exists_simplified h fun d hd => h.built.registered_member hms hd
    obtain ⟨d, B, hd, hregistered, -⟩ := h.built.exists_disjunction hreg
    refine ⟨d, B, ?_, hregistered, hreduced.bulk_lt h.built hms hreg hd⟩
    simp only [bind, Except.bind, hkept, hd]

end Acquisition.Simplify
