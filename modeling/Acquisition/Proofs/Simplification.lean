import Acquisition.Simplify.Contraction
import Acquisition.Proofs.Exhaustive
import Acquisition.Proofs.Extension

/-!
# Simplification keeps the meaning

Each rule reads some unsatisfiable subsets as implications. Where none of the subsets
holds, these implications are true, and then the rule changes neither what a disjunction
means nor what a network means. The rules register new disjunctions, so meanings are those
of an arena in which all of them stand.
-/
namespace Acquisition.Simplify

open Checked IndexSet

variable {A B : Arena} {f : Valuation} {muses : List IndexSet}

/-- None of the sets holds entirely on the valuation. -/
def Clear (A : Arena) (f : Valuation) (muses : List IndexSet) : Prop :=
  ∀ s ∈ muses, ¬ ∀ c ∈ s, A.Holds f c

theorem Clear.exists_fails (hf : Clear B f muses) {s : IndexSet}
    (h : isRefuted muses s = true) : ∃ c ∈ s, ¬ B.Holds f c := by
  obtain ⟨mus, hmus, hsub⟩ := List.any_eq_true.1 h
  by_contra hall
  push Not at hall
  exact hf mus hmus fun c hc => hall c (subset_eq_true.1 hsub c hc)

theorem Clear.not_both (hf : Clear B f muses) {c d : ConstraintId}
    (h : isKnown muses [c, d] = true) (hc : B.Holds f c) : ¬ B.Holds f d := by
  intro hd
  apply hf _ (List.contains_iff_mem.1 h)
  intro e he
  simp only [mem_ofList, List.mem_cons, List.not_mem_nil, or_false] at he
  rcases he with rfl | rfl
  · exact hc
  · exact hd

/-- A set of three is made of two different members and the first of the others. -/
theorem eq_of_size_three {s : IndexSet} {a b c m : ConstraintId} (hs : s.size = 3) (hab : a ≠ b)
    (ha : a ∈ s) (hb : b ∈ s) (hc : (s.toList.find? fun d => d != a && d != b) = some c)
    (hm : m ∈ s) : m = a ∨ m = b ∨ m = c := by
  have hpred := List.find?_some (p := fun d => d != a && d != b) hc
  rw [Bool.and_eq_true, bne_iff_ne, bne_iff_ne] at hpred
  have hnd : [a, b, c].Nodup := by simp [hab, hpred.1.symm, hpred.2.symm]
  have hsub : [a, b, c] ⊆ s.toList := by
    intro d hd
    simp only [List.mem_cons, List.not_mem_nil, or_false] at hd
    rcases hd with rfl | rfl | rfl
    · exact mem_toList'.2 ha
    · exact mem_toList'.2 hb
    · exact List.mem_of_find?_eq_some hc
  have hperm := (List.subperm_of_subset hnd hsub).perm_of_length_le (Nat.le_of_eq hs)
  simpa using hperm.mem_iff.2 (mem_toList'.2 hm)

/-! ### Disjunctions -/

section Disjunctions

variable (hB : B.Built) (hAB : A.Extends B) (hf : Clear B f muses)
include hB hAB hf

/-- A member is dropped only if it implies one that stays. -/
theorem dropImplied_spec {cs : List ConstraintId} {kept kept' : IndexSet}
    (h : dropImplied A muses kept cs = .ok kept') :
    (∃ d ∈ kept', B.Holds f d) ↔ ∃ d ∈ kept, B.Holds f d := by
  induction cs generalizing kept with
  | nil =>
    cases h
    exact Iff.rfl
  | cons c cs ih =>
    unfold dropImplied at h
    split at h
    · cases h
      exact Iff.rfl
    · rw [bind_eq_ok] at h
      obtain ⟨others, hothers, h⟩ := h
      split at h
      · next hrefuted =>
        rw [ih h]
        constructor
        · rintro ⟨d, hd, hholds⟩
          exact ⟨d, (mem_erase.1 hd).1, hholds⟩
        · rintro ⟨d, hd, hholds⟩
          by_cases hdc : d = c
          · -- The member that is dropped holds, so the negation of another one fails.
            obtain ⟨e, he, hfails⟩ := hf.exists_fails hrefuted
            rcases List.mem_cons.1 (mem_ofList.1 he) with rfl | he
            · exact absurd (hdc ▸ hholds) hfails
            · obtain ⟨b, hb, hn⟩ := (mem_of_mapM hothers).1 he
              rw [List.mem_filter, mem_toList', bne_iff_ne] at hb
              rw [hAB.holds_negation hB hn, not_not] at hfails
              exact ⟨b, mem_erase.2 hb, hfails⟩
          · exact ⟨d, mem_erase.2 ⟨hd, hdc⟩, hholds⟩
      · exact ih h

/-- What is renamed is equivalent, as a disjunction, to its new name. -/
theorem renamedBy_spec {members mus renamed : IndexSet} {r s : ConstraintId} (hmus : mus ∈ muses)
    (h : renamedBy A muses members mus r = .ok (some (renamed, s))) :
    renamed ⊆ members ∧ (B.Holds f s ↔ ∃ d ∈ renamed, B.Holds f d) := by
  unfold renamedBy at h
  rw [bind_eq_ok] at h
  obtain ⟨ns, hns, h⟩ := h
  dsimp only at h
  split at h
  · cases h
  · next hsub =>
    rw [bind_eq_ok] at h
    obtain ⟨opposite, hopposite, h⟩ := h
    split at h
    · next hall =>
      cases h
      rw [Bool.not_eq_true', Bool.not_eq_false] at hsub
      refine ⟨subset_eq_true.1 hsub, ?_⟩
      constructor
      · intro hr
        by_contra hnone
        push Not at hnone
        -- Every constraint of the subset would hold: the new name, and what is renamed fails.
        apply hf mus hmus
        intro m hm
        by_cases hmr : m = r
        · exact hmr ▸ hr
        · have hm' : m ∈ mus.toList.filter (· != r) := by
            rw [List.mem_filter, mem_toList', bne_iff_ne]
            exact ⟨hm, hmr⟩
          obtain ⟨n, hn, hneg⟩ := mapM_ok_of_mem hns hm'
          have hfails := hnone n (mem_ofList.2 hn)
          rwa [hAB.holds_negation hB hneg, not_not] at hfails
      · rintro ⟨d, hd, hholds⟩
        have hfails := hf.not_both (List.all_eq_true.1 hall d (mem_toList'.2 hd)) hholds
        rwa [hAB.holds_negation hB hopposite, not_not] at hfails
    · cases h

theorem renaming_spec {members renamed : IndexSet} {r : ConstraintId}
    (h : renaming? A muses members = .ok (some (renamed, r))) :
    renamed ⊆ members ∧ (B.Holds f r ↔ ∃ d ∈ renamed, B.Holds f d) := by
  obtain ⟨⟨mus, s⟩, hmem, h⟩ := findSomeM_eq_some h
  obtain ⟨mus', hmus', hpair⟩ := List.mem_flatMap.1 hmem
  obtain ⟨s', -, hs⟩ := List.mem_map.1 hpair
  cases hs
  exact renamedBy_spec hB hAB hf (List.mem_filter.1 hmus').1 h

theorem renameAll_spec {fuel : Nat} {kept kept' : IndexSet}
    (h : renameAll A muses fuel kept = .ok kept') :
    (∃ d ∈ kept', B.Holds f d) ↔ ∃ d ∈ kept, B.Holds f d := by
  induction fuel generalizing kept with
  | zero =>
    cases h
    exact Iff.rfl
  | succ fuel ih =>
    unfold renameAll at h
    rw [bind_eq_ok] at h
    obtain ⟨found, hfound, h⟩ := h
    cases found with
    | none =>
      cases h
      exact Iff.rfl
    | some p =>
      obtain ⟨hsub, hname⟩ := renaming_spec hB hAB hf hfound
      rw [ih h]
      constructor
      · rintro ⟨d, hd, hholds⟩
        rcases mem_insert.1 hd with rfl | hd
        · obtain ⟨e, he, hholds⟩ := hname.1 hholds
          exact ⟨e, hsub e he, hholds⟩
        · exact ⟨d, (mem_diff.1 hd).1, hholds⟩
      · rintro ⟨d, hd, hholds⟩
        by_cases hdp : d ∈ p.1
        · exact ⟨p.2, mem_insert.2 (.inl rfl), hname.2 ⟨d, hdp, hholds⟩⟩
        · exact ⟨d, mem_insert.2 (.inr (mem_diff.2 ⟨hd, hdp⟩)), hholds⟩

/-- The members that are left have the meaning of those given, taken together. -/
theorem disjunction_spec {members kept : IndexSet}
    (h : disjunction A muses members = .ok kept) :
    (∃ d ∈ kept, B.Holds f d) ↔ ∃ d ∈ members, B.Holds f d := by
  unfold disjunction at h
  rw [bind_eq_ok] at h
  obtain ⟨left, hleft, h⟩ := h
  exact (renameAll_spec hB hAB hf h).trans (dropImplied_spec hB hAB hf hleft)

/-- What is found for two different constraints is equivalent to both together. -/
theorem jointName_spec {a b r : ConstraintId} (hab : a ≠ b)
    (h : jointName? A muses a b = .ok (some r)) :
    B.Holds f r ↔ B.Holds f a ∧ B.Holds f b := by
  obtain ⟨mus, hmus, h⟩ := findSomeM_eq_some h
  simp only [List.mem_filter, Bool.and_eq_true, beq_iff_eq, contains_iff] at hmus
  obtain ⟨hmus, ⟨hsize, ha⟩, hb⟩ := hmus
  split at h
  · cases h
  · next other hother =>
    simp only [bind_eq_ok] at h
    obtain ⟨s, hs, na, hna, nb, hnb, h⟩ := h
    split at h
    · next hknown =>
      cases h
      obtain ⟨hka, hkb⟩ := Bool.and_eq_true_iff.1 hknown
      constructor
      · intro hr
        constructor
        · by_contra ha
          exact hf.not_both hka ((hAB.holds_negation hB hna f).2 ha) hr
        · by_contra hb
          exact hf.not_both hkb ((hAB.holds_negation hB hnb f).2 hb) hr
      · rintro ⟨ha', hb'⟩
        rw [hAB.holds_negation hB hs]
        intro hc
        apply hf mus hmus
        intro m hm
        rcases eq_of_size_three hsize hab ha hb hother hm with rfl | rfl | rfl
        · exact ha'
        · exact hb'
        · exact hc
    · cases h

end Disjunctions

/-! ### Networks -/

/-- A network is rewritten to one with the same meaning, where none of the sets holds and
in each arena in which both can be read. -/
structure Rewrites (muses : List IndexSet) (A : Arena) (N : Network) (A' : Arena) (N' : Network) :
    Prop where
  grows : A.Extends A'
  built : A.Built → A'.Built
  holds : ∀ B f, A'.Extends B → B.Built → Clear B f muses → (N'.Holds B f ↔ N.Holds B f)

theorem Rewrites.refl (muses : List IndexSet) (A : Arena) (N : Network) :
    Rewrites muses A N A N := ⟨.refl A, id, fun _ _ _ _ _ => Iff.rfl⟩

theorem Rewrites.trans {A' A'' : Arena} {N N' N'' : Network} (h : Rewrites muses A N A' N')
    (h' : Rewrites muses A' N' A'' N'') : Rewrites muses A N A'' N'' := by
  refine ⟨h.grows.trans h'.grows, fun hA => h'.built (h.built hA), ?_⟩
  intro B f hB hbuilt hf
  rw [h'.holds B f hB hbuilt hf, h.holds B f (h'.grows.trans hB) hbuilt hf]

theorem mem_replace {N M : Network} {removed added : List ConstraintId}
    (h : replace A N removed added = .ok M) {c : ConstraintId} :
    c ∈ M.constraints ↔ c ∈ N.constraints ∧ c ∉ removed ∨ c ∈ added := by
  have hnone : c ∉ (Network.ofScope N.scope).constraints := mem_empty c
  rw [(Network.addAll_eq_ok h).2.1, or_iff_right hnone, List.mem_append, List.mem_filter]
  simp [Network.toList]

theorem holds_replace {N M : Network} {removed added : List ConstraintId}
    (h : replace A N removed added = .ok M) (B : Arena) (f : Valuation) :
    M.Holds B f ↔ (∀ c ∈ N.constraints, c ∉ removed → B.Holds f c) ∧
      ∀ c ∈ added, B.Holds f c := by
  simp only [Network.Holds, mem_replace h, or_imp, and_imp, forall_and]

/-- Some constraints are replaced by a disjunction. The network keeps its meaning if, beside
the constraints that stay, those removed mean what the disjunction means. -/
theorem replaceByDisjunction_rewrites {A' : Arena} {N N' : Network}
    {removed : List ConstraintId} {members : IndexSet}
    (h : replaceByDisjunction A N removed members = .ok (some (A', N')))
    (hsub : ∀ c ∈ removed, c ∈ N.constraints)
    (hsame : ∀ B f, A.Extends B → B.Built → Clear B f muses →
      (∀ c ∈ N.constraints, c ∉ removed → B.Holds f c) →
      ((∃ d ∈ members, B.Holds f d) ↔ ∀ c ∈ removed, B.Holds f c)) :
    Rewrites muses A N A' N' := by
  unfold replaceByDisjunction at h
  simp only [bind_eq_ok] at h
  obtain ⟨⟨c, C⟩, hc, M, hM, h⟩ := h
  cases h
  refine ⟨Arena.extends_disjunction hc, fun hA => .disjunction hA hc, ?_⟩
  intro B f hB hbuilt hf
  rw [holds_replace hM, List.forall_mem_singleton, Arena.holds_disjunction hc hB hbuilt]
  constructor
  · rintro ⟨hrest, hor⟩ d hd
    by_cases hdr : d ∈ removed
    · exact (hsame B f ((Arena.extends_disjunction hc).trans hB) hbuilt hf hrest).1 hor d hdr
    · exact hrest d hd hdr
  · intro hall
    have hrest : ∀ d ∈ N.constraints, d ∉ removed → B.Holds f d := fun d hd _ => hall d hd
    refine ⟨hrest, ?_⟩
    apply (hsame B f ((Arena.extends_disjunction hc).trans hB) hbuilt hf hrest).2
    exact fun d hd => hall d (hsub d hd)

/-- A constraint is dropped beside one that implies it. -/
theorem drop_rewrites {N M : Network} {first second : ConstraintId} {falsified : IndexSet}
    (hfirst : first ∈ N.constraints) (hne : first ≠ second)
    (hrefuted : isRefuted muses (falsified.insert first) = true)
    (himplies : ∀ B f, A.Extends B → B.Built →
      (∃ d ∈ falsified, ¬ B.Holds f d) → B.Holds f second)
    (hM : replace A N [second] [] = .ok M) : Rewrites muses A N A M := by
  refine ⟨.refl A, id, ?_⟩
  intro B f hB hbuilt hf
  rw [holds_replace hM]
  constructor
  · rintro ⟨hrest, -⟩ d hd
    by_cases hds : d = second
    · obtain ⟨e, he, hfails⟩ := hf.exists_fails hrefuted
      rcases mem_insert.1 he with rfl | he
      · exact absurd (hrest e hfirst (by simpa using hne)) hfails
      · exact hds ▸ himplies B f hB hbuilt ⟨e, he, hfails⟩
    · exact hrest d hd (by simpa using hds)
  · intro hall
    exact ⟨fun d hd _ => hall d hd, nofun⟩

/-- Beside a constraint, its negation is no member that could make a disjunction hold. -/
theorem resolve_rewrites {A' : Arena} {N N' : Network} {first second opposite : ConstraintId}
    {members : IndexSet} (hfirst : first ∈ N.constraints) (hsecond : second ∈ N.constraints)
    (hne : first ≠ second) (hopposite : A.negation first = .ok opposite)
    (hmembers : A.disjuncts? second = .ok (some members))
    (h : replaceByDisjunction A N [second] (members.erase opposite) = .ok (some (A', N'))) :
    Rewrites muses A N A' N' := by
  apply replaceByDisjunction_rewrites h (by simpa using hsecond)
  intro B f hB hbuilt hf hrest
  have hfails : ¬ B.Holds f opposite := by
    rw [hB.holds_negation hbuilt hopposite, not_not]
    exact hrest first hfirst (by simpa using hne)
  rw [List.forall_mem_singleton, hbuilt.holds_disjunction (hB.disjuncts hmembers)]
  constructor
  · rintro ⟨d, hd, hholds⟩
    exact ⟨d, (mem_erase.1 hd).1, hholds⟩
  · rintro ⟨d, hd, hholds⟩
    refine ⟨d, mem_erase.2 ⟨hd, ?_⟩, hholds⟩
    rintro rfl
    exact hfails hholds

theorem contractBeside_rewrites {A' : Arena} {N N' : Network} {first second : ConstraintId}
    (hfirst : first ∈ N.constraints) (hsecond : second ∈ N.constraints) (hne : first ≠ second)
    (h : contractBeside A muses N first second = .ok (some (A', N'))) :
    Rewrites muses A N A' N' := by
  unfold contractBeside at h
  simp only [bind_eq_ok] at h
  obtain ⟨opposite, hopposite, members?, hmembers, h⟩ := h
  cases members? with
  | some members =>
    dsimp only at h
    split at h
    · exact resolve_rewrites hfirst hsecond hne hopposite hmembers h
    · simp only [bind_eq_ok] at h
      obtain ⟨falsified, hfalsified, h⟩ := h
      split at h
      · next hrefuted =>
        rw [bind_eq_ok] at h
        obtain ⟨M, hM, h⟩ := h
        cases h
        apply drop_rewrites hfirst hne hrefuted _ hM
        rintro B f hB hbuilt ⟨d, hd, hfails⟩
        obtain ⟨c, hc, hneg⟩ := Arena.negation_of_mem_negations hfalsified hd
        rw [hB.holds_negation hbuilt hneg, not_not] at hfails
        exact (hbuilt.holds_disjunction (hB.disjuncts hmembers) f).2 ⟨c, hc, hfails⟩
      · cases h
  | none =>
    simp only [bind_eq_ok, pure_eq_ok] at h
    obtain ⟨n, hn, falsified, rfl, h⟩ := h
    split at h
    · next hrefuted =>
      rw [bind_eq_ok] at h
      obtain ⟨M, hM, h⟩ := h
      cases h
      apply drop_rewrites hfirst hne hrefuted _ hM
      rintro B f hB hbuilt ⟨d, hd, hfails⟩
      rw [mem_singleton.1 hd, hB.holds_negation hbuilt hn, not_not] at hfails
      exact hfails
    · cases h

/-- Two sets that differ in one member each are that member and what they share. -/
theorem mem_of_diff_singletons {left right : IndexSet} {a b : ConstraintId}
    (ha : (left.diff right).toList = [a]) (hb : (right.diff left).toList = [b]) :
    a ≠ b ∧ (∀ d, d ∈ left ↔ d = a ∨ d ∈ left.erase a) ∧
      ∀ d, d ∈ right ↔ d = b ∨ d ∈ left.erase a := by
  have hleft : ∀ d, d ∈ left ∧ d ∉ right ↔ d = a := by
    intro d
    rw [← mem_diff, ← mem_toList', ha, List.mem_singleton]
  have hright : ∀ d, d ∈ right ∧ d ∉ left ↔ d = b := by
    intro d
    rw [← mem_diff, ← mem_toList', hb, List.mem_singleton]
  have haleft := (hleft a).2 rfl
  have hbright := (hright b).2 rfl
  refine ⟨?_, fun d => ?_, fun d => ?_⟩
  · intro hab
    exact hbright.2 (hab ▸ haleft.1)
  · rw [mem_erase]
    by_cases hd : d = a
    · simp [hd, haleft.1]
    · simp [hd]
  · rw [mem_erase, ← hright d, Ne, ← hleft d]
    tauto

/-- Two disjunctions that differ in one member hold together where a member that they
share does, or both others. -/
theorem holds_pair {first second a b : ConstraintId} {left right common : IndexSet}
    (hB : B.Built) (hleft : B.disjuncts? first = .ok (some left))
    (hright : B.disjuncts? second = .ok (some right))
    (hla : ∀ d, d ∈ left ↔ d = a ∨ d ∈ common) (hrb : ∀ d, d ∈ right ↔ d = b ∨ d ∈ common) :
    (∀ c ∈ [first, second], B.Holds f c) ↔
      (∃ d ∈ common, B.Holds f d) ∨ B.Holds f a ∧ B.Holds f b := by
  have hl : B.Holds f first ↔ B.Holds f a ∨ ∃ d ∈ common, B.Holds f d := by
    rw [hB.holds_disjunction hleft]
    simp only [hla, or_and_right, exists_or, exists_eq_left]
  have hr : B.Holds f second ↔ B.Holds f b ∨ ∃ d ∈ common, B.Holds f d := by
    rw [hB.holds_disjunction hright]
    simp only [hrb, or_and_right, exists_or, exists_eq_left]
  rw [List.forall_mem_cons, List.forall_mem_singleton, hl, hr, ← and_or_right, or_comm]

/-- Two disjunctions that differ in one member become the disjunction of what they share
and of what their own members come to together. -/
theorem merge_rewrites {A' : Arena} {N N' : Network} {first second : ConstraintId}
    {left right : IndexSet} (hfirst : first ∈ N.constraints) (hsecond : second ∈ N.constraints)
    (hleft : A.disjuncts? first = .ok (some left))
    (hright : A.disjuncts? second = .ok (some right))
    (h : merge A muses N first second left right = .ok (some (A', N'))) :
    Rewrites muses A N A' N' := by
  unfold merge at h
  split at h
  · next a b ha hb =>
    obtain ⟨hab, hla, hrb⟩ := mem_of_diff_singletons ha hb
    have hpair : ∀ c ∈ [first, second], c ∈ N.constraints := by simp [hfirst, hsecond]
    rw [bind_eq_ok] at h
    obtain ⟨n, hn, h⟩ := h
    split at h
    · next heq =>
      apply replaceByDisjunction_rewrites h hpair
      intro B f hB hbuilt _ _
      have hneg := hB.holds_negation hbuilt hn f
      rw [beq_iff_eq.1 heq] at hneg
      rw [holds_pair hbuilt (hB.disjuncts hleft) (hB.disjuncts hright) hla hrb, hneg]
      simp only [and_not_self, or_false]
    · rw [bind_eq_ok] at h
      obtain ⟨name?, hname, h⟩ := h
      cases name? with
      | none => cases h
      | some r =>
        apply replaceByDisjunction_rewrites h hpair
        intro B f hB hbuilt hf _
        have hr := jointName_spec hbuilt hB hf hab hname
        rw [holds_pair hbuilt (hB.disjuncts hleft) (hB.disjuncts hright) hla hrb, ← hr]
        simp only [mem_insert, or_and_right, exists_or, exists_eq_left]
        exact or_comm
  · cases h

theorem contractPair_rewrites {A' : Arena} {N N' : Network} {pair : ConstraintId × ConstraintId}
    (hpair : pair ∈ pairs N) (h : contractPair A muses N pair = .ok (some (A', N'))) :
    Rewrites muses A N A' N' := by
  obtain ⟨first, hfirst, hmem⟩ := List.mem_flatMap.1 hpair
  obtain ⟨second, hsecond, rfl⟩ := List.mem_map.1 hmem
  obtain ⟨hsecond, hne⟩ := List.mem_filter.1 hsecond
  have hne' : first ≠ second := fun e => bne_iff_ne.1 hne e.symm
  unfold contractPair at h
  simp only [bind_eq_ok] at h
  obtain ⟨left?, hleft, h⟩ := h
  cases left? with
  | none => exact contractBeside_rewrites (mem_toList'.1 hfirst) (mem_toList'.1 hsecond) hne' h
  | some left =>
    simp only [bind_eq_ok] at h
    obtain ⟨right?, hright, h⟩ := h
    cases right? with
    | none => cases h
    | some right =>
      dsimp only at h
      split at h
      · exact merge_rewrites (mem_toList'.1 hfirst) (mem_toList'.1 hsecond) hleft hright h
      · cases h

theorem contractAll_rewrites {fuel : Nat} {A' : Arena} {N N' : Network}
    (h : contractAll muses fuel A N = .ok (A', N')) : Rewrites muses A N A' N' := by
  induction fuel generalizing A N with
  | zero => cases h
  | succ fuel ih =>
    unfold contractAll at h
    rw [bind_eq_ok] at h
    obtain ⟨found?, hfound, h⟩ := h
    cases found? with
    | none =>
      cases h
      exact .refl muses _ _
    | some p =>
      obtain ⟨pair, hpair, hstep⟩ := findSomeM_eq_some (mapError_eq_ok.1 hfound)
      exact (contractPair_rewrites hpair hstep).trans (ih h)

/-! ### Rounds -/

/-- One constraint is simplified: the constraint that takes its place means the same. -/
theorem simplifyOne_spec {A' : Arena} {c c' : ConstraintId}
    (h : simplifyOne muses A c = .ok (c', A')) :
    A.Extends A' ∧ (A.Built → A'.Built) ∧
      ∀ B f, A'.Extends B → B.Built → Clear B f muses → (B.Holds f c' ↔ B.Holds f c) := by
  unfold simplifyOne at h
  rw [bind_eq_ok] at h
  obtain ⟨members?, hmembers, h⟩ := h
  cases members? with
  | none =>
    cases h
    exact ⟨.refl A, id, fun _ _ _ _ _ => Iff.rfl⟩
  | some members =>
    rw [bind_eq_ok] at h
    obtain ⟨kept, hkept, h⟩ := h
    have hext := Arena.extends_disjunction h
    refine ⟨hext, fun hA => .disjunction hA h, ?_⟩
    intro B f hB hbuilt hf
    have hAB := hext.trans hB
    rw [Arena.holds_disjunction h hB hbuilt, disjunction_spec hbuilt hAB hf hkept,
      hbuilt.holds_disjunction (hAB.disjuncts hmembers)]

theorem simplifyEach_spec {cs : List ConstraintId} {A' : Arena} {N N' : Network}
    (h : simplifyEach muses cs A N = .ok (A', N')) :
    A.Extends A' ∧ (A.Built → A'.Built) ∧
      ∀ B f, A'.Extends B → B.Built → Clear B f muses →
        (N'.Holds B f ↔ N.Holds B f ∧ ∀ c ∈ cs, B.Holds f c) := by
  induction cs generalizing A N with
  | nil =>
    cases h
    exact ⟨.refl _, id, fun B f _ _ _ => by simp⟩
  | cons c cs ih =>
    unfold simplifyEach at h
    rw [bind_eq_ok] at h
    obtain ⟨⟨c', C⟩, hc, h⟩ := h
    rw [bind_eq_ok] at h
    obtain ⟨M, hM, h⟩ := h
    obtain ⟨hgrows, hbuilt, hholds⟩ := simplifyOne_spec hc
    obtain ⟨hgrows', hbuilt', hholds'⟩ := ih h
    refine ⟨hgrows.trans hgrows', fun hA => hbuilt' (hbuilt hA), ?_⟩
    intro B f hB hB' hf
    have hadd : M.Holds B f ↔ N.Holds B f ∧ B.Holds f c' := by
      simp only [Network.Holds, (Network.add_eq_ok hM).2.1, mem_insert, forall_eq_or_imp]
      exact and_comm
    rw [hholds' B f hB hB' hf, hadd, hholds B f (hgrows'.trans hB) hB' hf,
      List.forall_mem_cons, and_assoc]

theorem rounds_rewrites {fuel : Nat} {A' : Arena} {N N' : Network}
    (h : rounds muses fuel A N = .ok (A', N')) : Rewrites muses A N A' N' := by
  induction fuel generalizing A N with
  | zero => cases h
  | succ fuel ih =>
    unfold rounds at h
    rw [bind_eq_ok] at h
    obtain ⟨⟨C, each⟩, heach, h⟩ := h
    rw [bind_eq_ok] at h
    obtain ⟨⟨D, next⟩, hnext, h⟩ := h
    obtain ⟨hgrows, hbuilt, hholds⟩ := simplifyEach_spec (mapError_eq_ok.1 heach)
    have hfirst : Rewrites muses A N C each := by
      refine ⟨hgrows, hbuilt, ?_⟩
      intro B f hB hB' hf
      rw [hholds B f hB hB' hf, and_iff_right (Network.holds_ofScope B N.scope f)]
      simp only [Network.Holds, Network.toList, mem_toList']
    have hround := hfirst.trans (contractAll_rewrites hnext)
    dsimp only at h
    split at h
    · cases h
      exact hround
    · exact hround.trans (ih h)

theorem clear_mergeSort {le : IndexSet → IndexSet → Bool} :
    Clear B f (muses.mergeSort le) ↔ Clear B f muses := by
  simp only [Clear, (List.mergeSort_perm muses le).mem_iff]

/-- Where none of the sets holds entirely, the simplified network holds just where the given
one does, after any number of rounds. Both are read in the arena that is returned. It keeps
what was there: each earlier constraint stands at its place and means what it meant. -/
theorem holds_network {A A' : Arena} {N N' : Network} {muses : List IndexSet} {fuel : Nat}
    (hA : A.Built) (h : network A N muses fuel = .ok (A', N')) :
    (∀ f, Clear A' f muses → (N'.Holds A' f ↔ N.Holds A' f)) ∧
      A'.Built ∧ A.Extends A' ∧
        ∀ c, A.Registered c → A'.Registered c ∧ ∀ f, A'.Holds f c ↔ A.Holds f c := by
  have hrewrites := rounds_rewrites h
  have hbuilt := hrewrites.built hA
  refine ⟨?_, hbuilt, hrewrites.grows, ?_⟩
  · intro f hf
    exact hrewrites.holds A' f (.refl A') hbuilt (clear_mergeSort.2 hf)
  · intro c hc
    exact ⟨hrewrites.grows.registered hc, hrewrites.grows.holds hc⟩

/-- The sample with the disjunction of its first and third constraints, the first of which
implies the third. -/
def sampleOr : Arena :=
  match Exhaustive.sample.disjunction (.ofList [0, 2]) with
  | .ok (_, A) => A
  | .error _ => .empty

theorem built_sampleOr : sampleOr.Built := by
  unfold sampleOr
  split
  · next h => exact .disjunction Exhaustive.built_sample h
  · exact .empty

/-- The first variable is never zero and yet more than zero, so the third constraint is all
that is left of the disjunction. -/
theorem holds_network_or :
    ∃ A', sampleOr.Built ∧ network sampleOr ⟨.singleton 0, .singleton 6⟩ [.ofList [0, 3]] 3 =
        .ok (A', ⟨.singleton 0, .singleton 2⟩) ∧
      ∀ f, Clear A' f [.ofList [0, 3]] →
        (Network.Holds A' f ⟨.singleton 0, .singleton 2⟩ ↔
          Network.Holds A' f ⟨.singleton 0, .singleton 6⟩) := by
  have hrun : Prod.snd <$> rounds [.ofList [0, 3]] 3 sampleOr ⟨.singleton 0, .singleton 6⟩ =
      .ok ⟨.singleton 0, .singleton 2⟩ := by decide +kernel
  obtain ⟨⟨A', N'⟩, h, rfl⟩ := map_eq_ok.1 hrun
  have hnetwork : network sampleOr ⟨.singleton 0, .singleton 6⟩ [.ofList [0, 3]] 3 =
      .ok (A', ⟨.singleton 0, .singleton 2⟩) := by
    rw [network, List.mergeSort_singleton, h]
  exact ⟨A', built_sampleOr, hnetwork, (holds_network built_sampleOr hnetwork).1⟩

end Acquisition.Simplify
