import Acquisition.Proofs.Shrinking

/-!
# Simplification ends

Each rewriting of a network makes it lighter: it leaves fewer constraints, or no more of them
and less of their bulk. Disjunctions that are simplified or resolved lose bulk, and the other
rules bring down the count of the constraints.

That names are less broad than their groups is needed: two disjunctions may name each other.
-/
namespace Acquisition.Simplify

open Checked IndexSet Arena

variable {A B : Arena} {muses : List IndexSet}

/-- The bulk of the constraints of a network. -/
def load (A : Arena) (N : Network) : Nat := ∑ c ∈ N.constraints.toFinset, A.bulk c

/-- A network has fewer constraints than another, or no more of them and less bulk. -/
def Lighter (B : Arena) (M : Network) (A : Arena) (N : Network) : Prop :=
  M.size < N.size ∨ M.size ≤ N.size ∧ load B M < load A N

theorem Lighter.trans {C : Arena} {K M N : Network} (h : Lighter C K B M)
    (h' : Lighter B M A N) : Lighter C K A N := by
  unfold Lighter at h h' ⊢
  omega

/-- There is no end to growing lighter only if there is none to the networks. -/
theorem lighter_induction {motive : Arena → Network → Prop}
    (step : ∀ A N, (∀ B M, Lighter B M A N → motive B M) → motive A N) (A : Arena) (N : Network) :
    motive A N := by
  induction hsize : N.size using Nat.strong_induction_on generalizing A N with
  | h size ihsize =>
    induction hload : load A N using Nat.strong_induction_on generalizing A N with
    | h _ ihload =>
      apply step
      intro B M hlight
      by_cases hlt : M.size < N.size
      · exact ihsize M.size (hsize ▸ hlt) B M rfl
      · unfold Lighter at hlight
        exact ihload (load B M) (by omega) B M (by omega) rfl

theorem load_extend (hAB : A.Extends B) {N : Network} (hN : ∀ c ∈ N.constraints, A.Registered c) :
    load B N = load A N :=
  Finset.sum_congr rfl fun c hc => hAB.bulk (hN c (mem_toFinset.1 hc))

theorem load_insert_le {M N : Network} {c : ConstraintId}
    (h : M.constraints = N.constraints.insert c) : load A M ≤ load A N + A.bulk c := by
  rw [load, load, h, toFinset_insert]
  by_cases hc : c ∈ N.constraints.toFinset
  · rw [Finset.insert_eq_of_mem hc]
    exact Nat.le_add_right _ _
  · rw [Finset.sum_insert hc, Nat.add_comm]

theorem size_le_of_insert {M N : Network} {c : ConstraintId}
    (h : M.constraints = N.constraints.insert c) : M.size ≤ N.size + 1 := by
  rw [Network.size, Network.size, h]
  exact size_insert_le _ _

/-- A constraint of a network makes room for a smaller one. -/
theorem lighter_of_bulk (hAB : A.Extends B) {M N : Network} {c d : ConstraintId}
    (hN : ∀ e ∈ N.constraints, A.Registered e) (hc : c ∈ N.constraints)
    (hM : M.constraints = (N.constraints.erase c).insert d) (hlt : B.bulk d < A.bulk c) :
    Lighter B M A N := by
  have hsize : M.size ≤ (N.remove c).size + 1 := size_le_of_insert hM
  have herase : (N.remove c).size + 1 = N.size := size_erase hc
  have hload : load B M ≤ load B (N.remove c) + B.bulk d := load_insert_le hM
  have hkeep : load B (N.remove c) = load A (N.remove c) :=
    load_extend hAB fun e he => hN e (mem_erase.1 he).1
  have hremove : load A (N.remove c) + A.bulk c = load A N := by
    rw [load, load, Network.remove, toFinset_erase]
    exact Finset.sum_erase_add _ _ (mem_toFinset.2 hc)
  right
  omega

theorem registered_of_replace {M N : Network} {removed added : List ConstraintId}
    (h : replace A N removed added = .ok M) {c : ConstraintId} (hc : c ∈ M.constraints) :
    A.Registered c := by
  apply (Network.addAll_eq_ok h).1 c
  rcases (mem_replace h).1 hc with ⟨hcN, hremoved⟩ | hadded
  · apply List.mem_append_left
    rw [List.mem_filter]
    exact ⟨mem_toList'.2 hcN, by simpa using hremoved⟩
  · exact List.mem_append_right _ hadded

theorem exists_replace {N : Network} {removed added : List ConstraintId}
    (hN : ∀ c ∈ N.constraints, A.Registered c) (hadded : ∀ c ∈ added, A.Registered c) :
    ∃ M, replace A N removed added = .ok M := by
  apply Network.exists_addAll
  intro c hc
  rcases List.mem_append.1 hc with hc | hc
  · exact hN c (mem_toList'.1 (List.mem_filter.1 hc).1)
  · exact hadded c hc

theorem exists_replaceByDisjunction (hA : A.Built) {N : Network}
    (hN : ∀ c ∈ N.constraints, A.Registered c) (removed : List ConstraintId) {ms : IndexSet}
    (hms : ∀ c ∈ ms, A.Registered c) :
    ∃ p, replaceByDisjunction A N removed ms = .ok (some p) := by
  obtain ⟨d, B, hd, hregistered, -⟩ := hA.exists_disjunction hms
  have hext := extends_disjunction hd
  have hreplace : ∃ M, replace B N removed [d] = .ok M := by
    apply exists_replace
    · intro c hc
      exact hext.registered (hN c hc)
    · simpa using hregistered
  obtain ⟨M, hM⟩ := hreplace
  refine ⟨(B, M), ?_⟩
  unfold replaceByDisjunction
  simp only [hd, hM, bind, Except.bind]
  rfl

/-- Two constraints make room for one. -/
theorem lighter_of_pair {N M : Network} {first second : ConstraintId} {ms : IndexSet}
    (hfirst : first ∈ N.constraints) (hsecond : second ∈ N.constraints) (hne : first ≠ second)
    (hpair : replaceByDisjunction A N [first, second] ms = .ok (some (B, M))) :
    Lighter B M A N ∧ ∀ c ∈ M.constraints, B.Registered c := by
  unfold replaceByDisjunction at hpair
  simp only [bind_eq_ok] at hpair
  obtain ⟨⟨d, C⟩, hd, K, hK, hpair⟩ := hpair
  cases hpair
  refine ⟨?_, fun c hc => registered_of_replace hK hc⟩
  have hM : M.constraints = ((N.constraints.erase first).erase second).insert d := by
    apply ext_mem
    intro c
    rw [mem_replace hK, mem_insert, mem_erase, mem_erase]
    simp only [List.mem_cons, List.not_mem_nil, or_false, not_or]
    tauto
  have hsize := size_insert_le ((N.constraints.erase first).erase second) d
  have herase := size_erase hfirst
  have herase' := size_erase (mem_erase.2 ⟨hsecond, hne.symm⟩)
  rw [← hM] at hsize
  left
  unfold Network.size
  omega

theorem lighter_of_drop {N M : Network} {second : ConstraintId} (hsecond : second ∈ N.constraints)
    (hM : replace A N [second] [] = .ok M) :
    Lighter A M A N ∧ ∀ c ∈ M.constraints, A.Registered c := by
  refine ⟨?_, fun c hc => registered_of_replace hM hc⟩
  have herase : M.constraints = N.constraints.erase second := by
    apply ext_mem
    intro c
    rw [mem_replace hM, mem_erase]
    simp
  have hsize := size_erase hsecond
  left
  unfold Network.size
  rw [herase]
  omega

/-- A disjunction makes room for one without one of its members. -/
theorem lighter_of_resolve (hA : A.Built) {N M : Network} {c opposite : ConstraintId}
    {ms : IndexSet} (hN : ∀ e ∈ N.constraints, A.Registered e) (hc : c ∈ N.constraints)
    (hms : A.disjuncts? c = .ok (some ms)) (hmem : opposite ∈ ms)
    (h : replaceByDisjunction A N [c] (ms.erase opposite) = .ok (some (B, M))) :
    Lighter B M A N ∧ ∀ e ∈ M.constraints, B.Registered e := by
  unfold replaceByDisjunction at h
  simp only [bind_eq_ok] at h
  obtain ⟨⟨d, C⟩, hd, K, hK, h⟩ := h
  cases h
  refine ⟨?_, fun e he => registered_of_replace hK he⟩
  have hset : M.constraints = (N.constraints.erase c).insert d := by
    apply ext_mem
    intro e
    rw [mem_replace hK, mem_insert, mem_erase]
    simp only [List.mem_cons, List.not_mem_nil, or_false]
    tauto
  have hmembers : ∀ e ∈ ms, A.Registered e := fun e he => hA.registered_member hms he
  have hsub : ms.erase opposite ⊆ ms := fun e he => (mem_erase.1 he).1
  have hne : ms.erase opposite ≠ ms := by
    intro he
    have hgone : opposite ∉ ms.erase opposite := fun hmem => (mem_erase.1 hmem).2 rfl
    rw [he] at hgone
    exact hgone hmem
  apply lighter_of_bulk (extends_disjunction hd) hN hc hset
  exact hA.bulk_disjunction_lt hms (fun e he => hmembers e (hsub e he))
    (spread_lt hsub hne hmembers) hd

theorem exists_jointName (h : Settled muses A) {a b : ConstraintId} (ha : A.Registered a)
    (hb : A.Registered b) :
    ∃ name?, jointName? A muses a b = .ok name? ∧ ∀ r, name? = some r → A.Registered r := by
  have hother : ∀ mus ∈ muses.filter fun mus => mus.size == 3 && mus.contains a && mus.contains b,
      ∀ other, (mus.toList.find? fun m => m != a && m != b) = some other →
        A.Registered other := by
    intro mus hmus other hfind
    apply h.registered mus (List.mem_filter.1 hmus).1
    exact mem_toList'.1 (List.mem_of_find?_eq_some hfind)
  have hfound : ∃ name?, jointName? A muses a b = .ok name? := by
    apply exists_findSomeM
    intro mus hmus
    split
    · exact ⟨none, rfl⟩
    · next other hfind =>
      simp only [(hother mus hmus other hfind).negation, ha.negation, hb.negation, bind,
        Except.bind, pure, Except.pure]
      split
      · exact ⟨_, rfl⟩
      · exact ⟨none, rfl⟩
  obtain ⟨name?, hname⟩ := hfound
  refine ⟨name?, hname, ?_⟩
  rintro r rfl
  obtain ⟨mus, hmus, hr⟩ := findSomeM_eq_some hname
  split at hr
  · cases hr
  · next other hfind =>
    have hreg := hother mus hmus other hfind
    simp only [hreg.negation, ha.negation, hb.negation, bind, Except.bind, pure,
      Except.pure] at hr
    split at hr
    · cases hr
      exact h.built.paired.registered_twin hreg
    · cases hr

theorem mem_pairs {N : Network} {pair : ConstraintId × ConstraintId} :
    pair ∈ pairs N ↔ pair.1 ∈ N.constraints ∧ pair.2 ∈ N.constraints ∧ pair.1 ≠ pair.2 := by
  obtain ⟨first, second⟩ := pair
  simp only [pairs, List.mem_flatMap, List.mem_map, List.mem_filter, bne_iff_ne, Prod.mk.injEq,
    Network.toList, mem_toList']
  constructor
  · rintro ⟨c, hc, d, ⟨hd, hne⟩, rfl, rfl⟩
    exact ⟨hc, hd, hne.symm⟩
  · rintro ⟨hfirst, hsecond, hne⟩
    exact ⟨first, hfirst, second, ⟨hsecond, hne.symm⟩, rfl, rfl⟩

section Contraction

variable {N M : Network} (h : Settled muses A) (hN : ∀ c ∈ N.constraints, A.Registered c)
include h hN

theorem exists_contractBeside {first second : ConstraintId} (hfirst : first ∈ N.constraints)
    (hsecond : second ∈ N.constraints) :
    ∃ found, contractBeside A muses N first second = .ok found := by
  have hdrop : ∃ M, replace A N [second] [] = .ok M := exists_replace hN nofun
  obtain ⟨M, hM⟩ := hdrop
  obtain ⟨ms?, hms⟩ := (hN second hsecond).exists_disjuncts
  unfold contractBeside
  cases ms? with
  | none =>
    simp only [(hN first hfirst).negation, hms, (hN second hsecond).negation, hM, bind,
      Except.bind, pure, Except.pure]
    split
    · exact ⟨_, rfl⟩
    · exact ⟨none, rfl⟩
  | some ms =>
    have hmembers : ∀ d ∈ ms, A.Registered d := fun d hd => h.built.registered_member hms hd
    have hresolved : ∃ p, replaceByDisjunction A N [second] (ms.erase (twin first)) = .ok (some p) :=
      exists_replaceByDisjunction h.built hN _ fun d hd => hmembers d (mem_erase.1 hd).1
    obtain ⟨p, hp⟩ := hresolved
    have hdual : ∃ dual, A.negations ms = .ok dual := by
      obtain ⟨ds, hds⟩ := exists_negations fun d hd => hmembers d (mem_toList'.1 hd)
      exact ⟨.ofList ds, map_eq_ok.2 ⟨ds, hds, rfl⟩⟩
    obtain ⟨dual, hdual⟩ := hdual
    simp only [(hN first hfirst).negation, hms, hdual, hM, hp, bind, Except.bind, pure,
      Except.pure]
    split
    · exact ⟨_, rfl⟩
    · split
      · exact ⟨_, rfl⟩
      · exact ⟨none, rfl⟩

theorem exists_merge {first second : ConstraintId} {left right : IndexSet}
    (hleft : ∀ d ∈ left, A.Registered d) (hright : ∀ d ∈ right, A.Registered d) :
    ∃ found, merge A muses N first second left right = .ok found := by
  unfold merge
  split
  · next a b ha hb =>
    have haleft : a ∈ left := by
      have hmem : a ∈ (left.diff right).toList := by rw [ha]; exact List.mem_cons_self
      exact (mem_diff.1 (mem_toList'.1 hmem)).1
    have hbright : b ∈ right := by
      have hmem : b ∈ (right.diff left).toList := by rw [hb]; exact List.mem_cons_self
      exact (mem_diff.1 (mem_toList'.1 hmem)).1
    have hcommon : ∀ d ∈ left.erase a, A.Registered d := fun d hd => hleft d (mem_erase.1 hd).1
    simp only [(hleft a haleft).negation, bind, Except.bind]
    split
    · obtain ⟨p, hp⟩ := exists_replaceByDisjunction h.built hN [first, second] hcommon
      exact ⟨some p, hp⟩
    · obtain ⟨name?, hname, hreg⟩ := exists_jointName h (hleft a haleft) (hright b hbright)
      rw [hname]
      cases name? with
      | none => exact ⟨none, rfl⟩
      | some r =>
        have hmembers : ∀ d ∈ (left.erase a).insert r, A.Registered d := by
          intro d hd
          rcases mem_insert.1 hd with rfl | hd
          · exact hreg d rfl
          · exact hcommon d hd
        obtain ⟨p, hp⟩ := exists_replaceByDisjunction h.built hN [first, second] hmembers
        exact ⟨some p, hp⟩
  · exact ⟨none, rfl⟩

theorem exists_contractPair {pair : ConstraintId × ConstraintId}
    (hfirst : pair.1 ∈ N.constraints) (hsecond : pair.2 ∈ N.constraints) :
    ∃ found, contractPair A muses N pair = .ok found := by
  obtain ⟨left?, hleft⟩ := (hN pair.1 hfirst).exists_disjuncts
  obtain ⟨right?, hright⟩ := (hN pair.2 hsecond).exists_disjuncts
  unfold contractPair
  simp only [hleft, hright, bind, Except.bind]
  cases left? with
  | none => exact exists_contractBeside h hN hfirst hsecond
  | some left =>
    cases right? with
    | none => exact ⟨none, rfl⟩
    | some right =>
      dsimp only
      split
      · exact exists_merge h hN (fun d hd => h.built.registered_member hleft hd)
          fun d hd => h.built.registered_member hright hd
      · exact ⟨none, rfl⟩

theorem lighter_of_contractBeside {first second : ConstraintId}
    (hsecond : second ∈ N.constraints)
    (hM : contractBeside A muses N first second = .ok (some (B, M))) :
    Lighter B M A N ∧ ∀ c ∈ M.constraints, B.Registered c := by
  unfold contractBeside at hM
  simp only [bind_eq_ok] at hM
  obtain ⟨opposite, hopposite, ms?, hms, hM⟩ := hM
  have hdrop : ∀ {s : IndexSet}, (if isRefuted muses s = true then
      (do return some (A, ← replace A N [second] []) : Checked (Option (Arena × Network)))
      else pure none) = .ok (some (B, M)) → Lighter B M A N ∧ ∀ c ∈ M.constraints, B.Registered c := by
    intro s hs
    split at hs
    · rw [bind_eq_ok] at hs
      obtain ⟨K, hK, hs⟩ := hs
      cases hs
      exact lighter_of_drop hsecond hK
    · cases hs
  cases ms? with
  | none =>
    simp only [bind_eq_ok, pure_eq_ok] at hM
    obtain ⟨n, hn, falsified, rfl, hM⟩ := hM
    exact hdrop hM
  | some ms =>
    dsimp only at hM
    split at hM
    · next hcontains =>
      exact lighter_of_resolve h.built hN hsecond hms hcontains hM
    · simp only [bind_eq_ok] at hM
      obtain ⟨falsified, -, hM⟩ := hM
      exact hdrop hM

theorem lighter_of_contractPair {pair : ConstraintId × ConstraintId} (hpair : pair ∈ pairs N)
    (hM : contractPair A muses N pair = .ok (some (B, M))) :
    Lighter B M A N ∧ ∀ c ∈ M.constraints, B.Registered c := by
  obtain ⟨hfirst, hsecond, hne⟩ := mem_pairs.1 hpair
  unfold contractPair at hM
  rw [bind_eq_ok] at hM
  obtain ⟨left?, -, hM⟩ := hM
  cases left? with
  | none => exact lighter_of_contractBeside h hN hsecond hM
  | some left =>
    simp only [bind_eq_ok] at hM
    obtain ⟨right?, -, hM⟩ := hM
    cases right? with
    | none => cases hM
    | some right =>
      dsimp only at hM
      split at hM
      · unfold merge at hM
        split at hM
        · rw [bind_eq_ok] at hM
          obtain ⟨opposite, -, hM⟩ := hM
          split at hM
          · exact lighter_of_pair hfirst hsecond hne hM
          · rw [bind_eq_ok] at hM
            obtain ⟨name?, -, hM⟩ := hM
            cases name? with
            | none => cases hM
            | some r => exact lighter_of_pair hfirst hsecond hne hM
        · cases hM
      · cases hM

end Contraction

/-- Some rewriting leaves a network as it was, or a lighter one, and the known subsets are read
in the same way after it. -/
structure Lightens (muses : List IndexSet) (A : Arena) (N : Network) (B : Arena) (M : Network) :
    Prop where
  grows : A.Extends B
  settled : Settled muses B
  registered : ∀ c ∈ M.constraints, B.Registered c
  lighter : M.constraints = N.constraints ∨ Lighter B M A N

theorem load_eq (hAB : A.Extends B) {M N : Network} (hN : ∀ c ∈ N.constraints, A.Registered c)
    (h : M.constraints = N.constraints) : load B M = load A N := by
  rw [load, h]
  exact load_extend hAB hN

theorem Lightens.trans {C : Arena} {K M N : Network} (h : Lightens muses A N B M)
    (h' : Lightens muses B M C K) (hN : ∀ c ∈ N.constraints, A.Registered c) :
    Lightens muses A N C K where
  grows := h.grows.trans h'.grows
  settled := h'.settled
  registered := h'.registered
  lighter := by
    rcases h.lighter with hM | hM
    · rcases h'.lighter with hK | hK
      · exact .inl (hK.trans hM)
      · have hload := load_eq h.grows hN hM
        unfold Lighter Network.size at hK ⊢
        rw [hM, hload] at hK
        exact .inr hK
    · rcases h'.lighter with hK | hK
      · have hload := load_eq h'.grows h.registered hK
        unfold Lighter Network.size at hM ⊢
        rw [hK, hload]
        exact .inr hM
      · exact .inr (hK.trans hM)

theorem exists_contractAll (h : Settled muses A) {N : Network}
    (hN : ∀ c ∈ N.constraints, A.Registered c) :
    ∃ bound B M, (∀ fuel, bound ≤ fuel → contractAll muses fuel A N = .ok (B, M)) ∧
      Lightens muses A N B M := by
  induction A, N using lighter_induction with
  | step A N ih =>
    have hfound : ∃ found, contract? A muses N = .ok found := by
      apply exists_findSomeM
      intro pair hpair
      exact exists_contractPair h hN (mem_pairs.1 hpair).1 (mem_pairs.1 hpair).2.1
    obtain ⟨found, hfound⟩ := hfound
    cases found with
    | none =>
      refine ⟨1, A, N, ?_, .refl A, h, hN, .inl rfl⟩
      intro fuel hfuel
      obtain ⟨fuel, rfl⟩ := Nat.exists_eq_add_of_le' hfuel
      rw [contractAll, hfound]
      rfl
    | some p =>
      obtain ⟨pair, hpair, hstep⟩ := findSomeM_eq_some hfound
      obtain ⟨hlight, hreg⟩ := lighter_of_contractPair h hN hpair hstep
      have hrewrites := contractPair_rewrites hpair hstep
      have hsettled := h.extend hrewrites.grows (hrewrites.built h.built)
      have hfirst : Lightens muses A N p.1 p.2 := ⟨hrewrites.grows, hsettled, hreg, .inr hlight⟩
      obtain ⟨bound, B, M, hrun, hrest⟩ := ih p.1 p.2 hlight hsettled hreg
      refine ⟨bound + 1, B, M, ?_, hfirst.trans hrest hN⟩
      intro fuel hfuel
      obtain ⟨fuel, rfl⟩ := Nat.exists_eq_add_of_le' (Nat.le_of_add_left_le hfuel)
      rw [contractAll, hfound]
      exact hrun fuel (by omega)

/-- The bulk of some constraints, one after the other. -/
def loads (A : Arena) (cs : List ConstraintId) : Nat := (cs.map A.bulk).sum

theorem loads_toList (A : Arena) (N : Network) : loads A N.toList = load A N := by
  rw [loads, load, toFinset, Network.toList, List.sum_toFinset _ (nodup_toList _)]

theorem exists_simplifyEach (h : Settled muses A) (cs : List ConstraintId) {N : Network}
    (hN : ∀ c ∈ N.constraints, A.Registered c) (hcs : ∀ c ∈ cs, A.Registered c) :
    ∃ B M, simplifyEach muses cs A N = .ok (B, M) ∧ (∀ c ∈ M.constraints, B.Registered c) ∧
      M.size ≤ N.size + cs.length ∧ load B M ≤ load A N + loads A cs ∧
      ((∀ c, c ∈ M.constraints ↔ c ∈ N.constraints ∨ c ∈ cs) ∨
        load B M < load A N + loads A cs) := by
  induction cs generalizing A N with
  | nil => exact ⟨A, N, rfl, hN, Nat.le_refl _, Nat.le_refl _, .inl fun c => by simp⟩
  | cons c cs ih =>
    have hc := hcs c List.mem_cons_self
    obtain ⟨d, C, hone, hd, hbulk⟩ := exists_simplifyOne h hc
    obtain ⟨hext, hbuilt, -⟩ := simplifyOne_spec hone
    obtain ⟨K, hK⟩ := Network.exists_add hd N
    have hset := (Network.add_eq_ok hK).2.1
    have hKreg : ∀ e ∈ K.constraints, C.Registered e := by
      intro e he
      rw [hset] at he
      rcases mem_insert.1 he with rfl | he
      · exact hd
      · exact hext.registered (hN e he)
    have hcs' : ∀ e ∈ cs, A.Registered e := fun e he => hcs e (List.mem_cons_of_mem c he)
    obtain ⟨B, M, hrest, hreg, hsize, hload, hshape⟩ := ih (h.extend hext (hbuilt h.built)) hKreg
      fun e he => hext.registered (hcs' e he)
    have hKsize := size_le_of_insert hset
    have hKload := load_insert_le (A := C) hset
    have hkeep := load_extend hext hN
    have hloads : loads C cs = loads A cs := by
      rw [loads, loads, List.map_congr_left fun e he => hext.bulk (hcs' e he)]
    have hcons : loads A (c :: cs) = A.bulk c + loads A cs := by
      rw [loads, loads, List.map_cons, List.sum_cons]
    have hle : C.bulk d ≤ A.bulk c := by
      rcases hbulk with rfl | hlt
      · exact Nat.le_of_eq (hext.bulk hc)
      · exact Nat.le_of_lt hlt
    refine ⟨B, M, ?_, hreg, ?_, ?_, ?_⟩
    · unfold simplifyEach
      simp only [hone, hK, bind, Except.bind]
      exact hrest
    · rw [List.length_cons]
      omega
    · omega
    · rcases hbulk with rfl | hlt
      · rcases hshape with hsame | hlt
        · left
          intro e
          rw [hsame e, hset, mem_insert, List.mem_cons, or_comm (a := e = d), or_assoc]
        · right
          omega
      · right
        omega

theorem exists_each (h : Settled muses A) {N : Network}
    (hN : ∀ c ∈ N.constraints, A.Registered c) :
    ∃ B M, simplifyEach muses N.toList A (.ofScope N.scope) = .ok (B, M) ∧
      Lightens muses A N B M := by
  obtain ⟨B, M, hrun, hreg, hsize, hload, hshape⟩ := exists_simplifyEach h N.toList
    (N := .ofScope N.scope) (fun c hc => absurd hc (mem_empty c))
    fun c hc => hN c (mem_toList'.1 hc)
  obtain ⟨hext, hbuilt, -⟩ := simplifyEach_spec hrun
  refine ⟨B, M, hrun, hext, h.extend hext (hbuilt h.built), hreg, ?_⟩
  have hempty : load A (.ofScope N.scope) = 0 := rfl
  have hnone : (Network.ofScope N.scope).size = 0 := rfl
  rw [loads_toList, hempty, Nat.zero_add] at hload hshape
  rw [hnone, Nat.zero_add] at hsize
  rcases hshape with hsame | hlt
  · left
    apply ext_mem
    intro c
    have hno : c ∉ (Network.ofScope N.scope).constraints := mem_empty c
    rw [hsame c, or_iff_right hno]
    exact mem_toList'
  · exact .inr (.inr ⟨hsize, hlt⟩)

theorem exists_rounds (h : Settled muses A) {N : Network}
    (hN : ∀ c ∈ N.constraints, A.Registered c) :
    ∃ bound B M, ∀ fuel, bound ≤ fuel → rounds muses fuel A N = .ok (B, M) := by
  induction A, N using lighter_induction with
  | step A N ih =>
    obtain ⟨C, each, heach, hfirst⟩ := exists_each h hN
    obtain ⟨bound, B, next, hnext, hsecond⟩ := exists_contractAll hfirst.settled hfirst.registered
    have hround := hfirst.trans hsecond hN
    by_cases hsame : next.constraints = N.constraints
    · refine ⟨bound + 1, B, next, ?_⟩
      intro fuel hfuel
      obtain ⟨fuel, rfl⟩ := Nat.exists_eq_add_of_le' (Nat.le_of_add_left_le hfuel)
      simp only [rounds, heach, Except.mapError, hnext fuel (by omega), bind, Except.bind, hsame]
      rfl
    · have hlight := hround.lighter.resolve_left hsame
      obtain ⟨bound', B', M, hrest⟩ := ih B next hlight hround.settled hround.registered
      refine ⟨max bound bound' + 1, B', M, ?_⟩
      intro fuel hfuel
      obtain ⟨fuel, rfl⟩ := Nat.exists_eq_add_of_le' (Nat.le_of_add_left_le hfuel)
      simp only [rounds, heach, Except.mapError, hnext fuel (by omega), bind, Except.bind,
        if_neg hsame]
      exact hrest fuel (by omega)

/-- Simplification ends, with a network and an arena, for every network and every list of
known subsets, disjunctions in them or not: where the name of a group of members is less broad
than the group, or is its disjunction. -/
theorem network_ends (hA : A.Built) {N : Network} (hN : ∀ c ∈ N.constraints, A.Registered c)
    (hmuses : ∀ mus ∈ muses, ∀ c ∈ mus, A.Registered c) (hshrinks : Shrinks A muses) :
    ∃ bound B M, ∀ fuel, bound ≤ fuel → network A N muses fuel = .ok (B, M) := by
  have hperm := List.mergeSort_perm muses (·.size ≤ ·.size)
  have hsettled : Settled (muses.mergeSort (·.size ≤ ·.size)) A := by
    refine ⟨hA, fun mus hmus => hmuses mus (hperm.mem_iff.1 hmus), ?_⟩
    intro group r hr
    apply hshrinks
    exact ⟨hr.several, hr.fresh, hperm.mem_iff.1 hr.covered,
      fun c hc => hperm.mem_iff.1 (hr.within c hc)⟩
  exact exists_rounds hsettled hN

/-! ### Two disjunctions that name each other -/

/-- Groups and names are told by a subset and one of its members. -/
theorem names_iff {group : IndexSet} {r : ConstraintId} : Names muses group r ↔
    ∃ mus ∈ muses, r ∈ mus ∧ twins (mus.erase r) = group ∧ 2 ≤ group.size ∧
      ∀ c ∈ group, IndexSet.ofList [c, twin r] ∈ muses := by
  constructor
  · intro h
    have herase : ((twins group).insert r).erase r = twins group := by
      apply ext_mem
      intro c
      rw [mem_erase, mem_insert]
      constructor
      · rintro ⟨hc, hne⟩
        exact hc.resolve_left hne
      · intro hc
        refine ⟨.inr hc, ?_⟩
        rintro rfl
        exact h.fresh hc
    refine ⟨_, h.covered, mem_insert.2 (.inl rfl), ?_, h.several, h.within⟩
    rw [herase, twins_twins]
  · rintro ⟨mus, hmus, hr, rfl, hsize, hwithin⟩
    refine ⟨hsize, ?_, ?_, hwithin⟩
    · rw [twins_twins]
      exact fun h => (mem_erase.1 h).2 rfl
    · rw [twins_twins, insert_erase hr]
      exact hmus

instance (A : Arena) (muses : List IndexSet) : Decidable (Shrinks A muses) :=
  decidable_of_iff (∀ mus ∈ muses, ∀ r ∈ mus, 2 ≤ (twins (mus.erase r)).size →
    (∀ c ∈ twins (mus.erase r), IndexSet.ofList [c, twin r] ∈ muses) →
      A.breadth r < A.spread (twins (mus.erase r)) ∨
        A.disjuncts? r = .ok (some (twins (mus.erase r)))) (by
    constructor
    · intro h group r hr
      obtain ⟨mus, hmus, hrm, rfl, hsize, hwithin⟩ := names_iff.1 hr
      exact h mus hmus r hrm hsize hwithin
    · intro h mus hmus r hr hsize hwithin
      exact h _ r (names_iff.2 ⟨mus, hmus, hr, rfl, hsize, hwithin⟩))

/-- The disjunction of the first and third constraints is the name of its own members, and
stays as it is. -/
theorem network_ends_or :
    Shrinks sampleOr [.ofList [0, 7], .ofList [2, 7], .ofList [1, 3, 6]] ∧
      ∃ bound B M, ∀ fuel, bound ≤ fuel → network sampleOr ⟨.singleton 0, .singleton 6⟩
        [.ofList [0, 7], .ofList [2, 7], .ofList [1, 3, 6]] fuel = .ok (B, M) := by
  have hregistered : ∀ c, c < sampleOr.size → sampleOr.Registered c := by
    intro c hc
    exact ⟨_, Array.getElem?_eq_getElem hc⟩
  have hshrinks : Shrinks sampleOr [.ofList [0, 7], .ofList [2, 7], .ofList [1, 3, 6]] := by
    decide +kernel
  refine ⟨hshrinks, network_ends built_sampleOr ?_ ?_ hshrinks⟩
  · intro c hc
    apply hregistered
    revert c
    decide +kernel
  · intro mus hmus c hc
    apply hregistered
    revert c
    revert mus
    decide +kernel

/-- The sample with the disjunctions of its first and of its second constraint with the third.
The first two are the same where no variable is negative. -/
def sampleRivals : Arena :=
  match (do (← Exhaustive.sample.disjunction (.ofList [0, 4])).2.disjunction (.ofList [2, 4])) with
  | .ok (_, A) => A
  | .error _ => .empty

theorem built_sampleRivals : sampleRivals.Built := by
  unfold sampleRivals
  split
  · next h =>
    rw [bind_eq_ok] at h
    obtain ⟨p, hp, h⟩ := h
    exact .disjunction (.disjunction Exhaustive.built_sample hp) h
  · exact .empty

/-- What makes each of the two disjunctions a name of the members of the other. -/
def rivalry : List IndexSet :=
  [.ofList [0, 9], .ofList [4, 9], .ofList [2, 7], .ofList [4, 7], .ofList [1, 5, 8],
    .ofList [3, 5, 6]]

/-- The network of one constraint over the two variables. -/
def lone (c : ConstraintId) : Network := ⟨.ofList [0, 1], .singleton c⟩

/-- The valuation of the two variables. -/
def given (x y : Value) : Valuation := fun v => if v = 0 then x else y

/-- The sets are minimal unsatisfiable subsets over zero and one. -/
theorem minimal_rivalry : ∀ mus ∈ rivalry,
    Minimal ((Network.ofScope (.ofList [0, 1])).Admits sampleRivals Exhaustive.bits.Allows)
      (.below 10) mus := by
  have hclosed : (⟨.ofList [0, 1], .below 10⟩ : Network).Closed sampleRivals := by
    have hall : Network.ofList sampleRivals (.ofList [0, 1]) (List.range 10) =
        .ok ⟨.ofList [0, 1], .below 10⟩ := by decide +kernel
    exact Network.closed_ofList hall
  have hsub : ∀ mus ∈ rivalry, mus ⊆ IndexSet.below 10 := by decide +kernel
  have hvalues : ∀ v ∈ IndexSet.ofList [0, 1],
      Exhaustive.values Exhaustive.bits v = [0, 1] := by decide +kernel
  have hfails : ∀ x ∈ [(0 : Value), 1], ∀ y ∈ [(0 : Value), 1], ∀ mus ∈ rivalry,
      ¬ ∀ c ∈ mus, sampleRivals.Holds (given x y) c := by decide +kernel
  have hfits : ∀ mus ∈ rivalry, ∀ c ∈ mus, ∃ x ∈ [(0 : Value), 1], ∃ y ∈ [(0 : Value), 1],
      ∀ d ∈ mus.erase c, sampleRivals.Holds (given x y) d := by decide +kernel
  intro mus hmus
  apply Minimal.of_erase (Network.hereditary_admits _) (hsub mus hmus)
  · rintro ⟨f, hf, -, hall⟩
    have hvalue : ∀ v ∈ IndexSet.ofList [0, 1], f v ∈ [(0 : Value), 1] := by
      intro v hv
      rw [← hvalues v hv, Exhaustive.mem_values]
      exact hf v hv
    apply hfails (f 0) (hvalue 0 (by simp)) (f 1) (hvalue 1 (by simp)) mus hmus
    intro c hc
    rw [Arena.holds_congr (g := f)]
    · exact hall c hc
    · intro v hv
      have hscope := (hclosed c (hsub mus hmus c hc)).2 v hv
      have hv' : v = 0 ∨ v = 1 := by simpa using hscope
      rcases hv' with rfl | rfl
      · rfl
      · rfl
  · intro c hc
    rcases hfits mus hmus c hc with ⟨x, hx, y, hy, hall⟩
    refine ⟨given x y, ?_, Network.holds_ofScope _ _ _, hall⟩
    intro v hv
    rw [← Exhaustive.mem_values, hvalues v hv]
    unfold given
    split
    · exact hx
    · exact hy

theorem simplifyOne_rivals :
    simplifyOne rivalry sampleRivals 6 = .ok (8, sampleRivals) ∧
      simplifyOne rivalry sampleRivals 8 = .ok (6, sampleRivals) := by
  have hdisjuncts : sampleRivals.disjuncts? 6 = .ok (some (.ofList [0, 4])) ∧
      sampleRivals.disjuncts? 8 = .ok (some (.ofList [2, 4])) := by decide +kernel
  have hrenamed : disjunction sampleRivals rivalry (.ofList [0, 4]) = .ok (.singleton 8) ∧
      disjunction sampleRivals rivalry (.ofList [2, 4]) = .ok (.singleton 6) := by decide +kernel
  have honly : only? (.singleton 8) = some 8 ∧ only? (.singleton 6) = some 6 := by decide +kernel
  constructor
  · simp only [simplifyOne, hdisjuncts.1, hrenamed.1, Arena.disjunction, honly.1, bind, Except.bind]
  · simp only [simplifyOne, hdisjuncts.2, hrenamed.2, Arena.disjunction, honly.2, bind, Except.bind]

/-- A round turns a network of one constraint into another such network, in which there is
nothing to contract. -/
theorem rounds_lone {c d : ConstraintId}
    (heach : simplifyEach muses (lone c).toList A (.ofScope (lone c).scope) = .ok (A, lone d))
    (hpairs : pairs (lone d) = []) (hne : (lone d).constraints ≠ (lone c).constraints)
    (fuel : Nat) : rounds muses (fuel + 1) A (lone c) = rounds muses fuel A (lone d) := by
  have hcontract : contract? A muses (lone d) = .ok none := by
    rw [contract?, hpairs]
    rfl
  rw [rounds, heach]
  cases fuel with
  | zero => rfl
  | succ fuel =>
    simp only [Except.mapError, contractAll, hcontract, bind, Except.bind, pure, Except.pure,
      if_neg hne]

theorem rounds_rivals (fuel : Nat) :
    rounds rivalry fuel sampleRivals (lone 6) = .error .outOfFuel ∧
      rounds rivalry fuel sampleRivals (lone 8) = .error .outOfFuel := by
  have hadd : (Network.ofScope (lone 6).scope).add sampleRivals 8 = .ok (lone 8) ∧
      (Network.ofScope (lone 8).scope).add sampleRivals 6 = .ok (lone 6) := by decide +kernel
  have hlists : (lone 6).toList = [6] ∧ (lone 8).toList = [8] := by decide +kernel
  have hpairs : pairs (lone 8) = [] ∧ pairs (lone 6) = [] := by decide +kernel
  have hne : (lone 8).constraints ≠ (lone 6).constraints := by decide +kernel
  induction fuel with
  | zero => exact ⟨rfl, rfl⟩
  | succ fuel ih =>
    constructor
    · rw [rounds_lone _ hpairs.1 hne, ih.2]
      rw [hlists.1, simplifyEach, simplifyOne_rivals.1]
      simp only [hadd, simplifyEach, bind, Except.bind]
    · rw [rounds_lone _ hpairs.2 hne.symm, ih.1]
      rw [hlists.2, simplifyEach, simplifyOne_rivals.2]
      simp only [hadd, simplifyEach, bind, Except.bind]

/-- Each of the two disjunctions is all that is left of the other when its members make room
for their name, so simplification goes back and forth between them for ever. -/
theorem network_never_ends :
    sampleRivals.Built ∧ (∀ c ∈ (lone 6).constraints, sampleRivals.Registered c) ∧
      (∀ mus ∈ rivalry, Minimal
        ((Network.ofScope (.ofList [0, 1])).Admits sampleRivals Exhaustive.bits.Allows)
        (.below 10) mus) ∧
      ∀ fuel, network sampleRivals (lone 6) rivalry fuel = .error .outOfFuel := by
  have hsorted : rivalry.mergeSort (·.size ≤ ·.size) = rivalry := by
    apply List.mergeSort_of_pairwise
    decide +kernel
  refine ⟨built_sampleRivals, ?_, minimal_rivalry, ?_⟩
  · intro c hc
    have hlt : c < sampleRivals.size := by
      revert c
      decide +kernel
    exact ⟨_, Array.getElem?_eq_getElem hlt⟩
  · intro fuel
    rw [network, hsorted]
    exact (rounds_rivals fuel).1

end Acquisition.Simplify
