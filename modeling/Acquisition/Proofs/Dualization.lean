import Acquisition.Subsets.Dualization
import Acquisition.Proofs.Exhaustive
import Acquisition.Proofs.HittingSets

/-!
# Dualization is exact

The minimal hitting sets of the correction sets met so far are known exactly. One
that holds lies in no maximal subset met so far, so that it grows to a new one; one
that does not hold is minimal, since without any of its members it lies in a subset
that was met. When none holds, nothing is left: a maximal subset that was not met
would contain a hitting set, and a minimal set that cannot hold is one.

The constraints sifted out beforehand lose nothing. A constraint that conflicts with
the base is a minimal set by itself, and one that the base implies is in none.
-/
namespace Acquisition.Dualization

open Checked IndexSet

variable {σ : Type} {A : Arena} {dom : Ranges} {cp : CpBackend σ} {I : σ → Prop}
  {Err : Failure → σ → Prop} {st : σ}

/-- The base and the bias are made of constraints of the arena over the variables of
the base. -/
structure Framed (A : Arena) (D : Dualization) : Prop where
  closed : D.base.Closed A
  spans : D.base.Spans A D.bias

/-- The ways in which a search may fail: its time is up, a backend fails, or a sum
leaves its word. The invariant of the world is kept all the same. -/
def Fails (A : Arena) (dom : Ranges) (I : σ → Prop) (Err : Failure → σ → Prop) (D : Dualization)
    (f : Failure) (t : σ) : Prop :=
  I t ∧ ((f = .error .timeout ∧ D.deadline = .passed) ∨ Err f t ∨
    (f = .fault .overflow ∧ D.base.Overflows A dom D.bias))

/-- Some solution of the network satisfies the constraint, and another one does not. -/
def Relevant (A : Arena) (dom : Ranges) (N : Network) (c : ConstraintId) : Prop :=
  N.Admits A dom (.singleton c) ∧
    ∃ f : Valuation, f.Within dom N.scope ∧ N.Holds A f ∧ ¬ A.Holds f c

theorem leads_leavesOpen (hcp : cp.Answers I dom Err) (hA : A.Built) {D : Dualization}
    (hD : D.base.Closed A) {c : ConstraintId}
    (hc : A.Registered c ∧ ∀ v, A.Mentions c v → v ∈ D.base.scope) (hI : I st) :
    (D.leavesOpen A cp c).Leads st
      (fun b t => I t ∧ (b = true ↔ ∃ f : Valuation, f.Within dom D.base.scope ∧
        D.base.Holds A f ∧ ¬ A.Holds f c))
      (fun f t => I t ∧ Err f t) := by
  obtain ⟨M, hM⟩ := Network.exists_add (hA.paired.registered_twin hc.1) D.base
  obtain ⟨-, hcons, hvars⟩ := Network.add_eq_ok hM
  have hscope : M.scope = D.base.scope := ext_mem fun v => by
    rw [hvars, hA.paired.mentions_twin]
    exact or_iff_left_of_imp (hc.2 v)
  have hnet : (do D.base.add A (← A.negation c)) = .ok M := by
    rw [hc.1.negation]
    exact hM
  have hholds : ∀ f, M.Holds A f ↔ D.base.Holds A f ∧ ¬ A.Holds f c := fun f => by
    simp only [Network.Holds, hcons, mem_insert, forall_eq_or_imp, hA.paired.holds_twin hc.1]
    exact and_comm
  rw [leavesOpen, Action.leads_bind, Action.leads_ofChecked, hnet]
  refine ⟨fun N hN => ?_, by simp⟩
  cases hN
  refine (hcp.satisfiable hA (hD.add hM) hI).mono (fun b t h => ⟨h.1, h.2.trans ?_⟩)
    fun _ _ h => h
  simp only [Network.Satisfiable, hscope, hholds]

/-- What the search is about, once some constraints were sifted. -/
structure Sifted (A : Arena) (dom : Ranges) (D : Dualization) (cs : List ConstraintId)
    (D' : Dualization) : Prop where
  rest : D' = { D with bias := D'.bias, muses := D'.muses }
  bias : ∀ c, c ∈ D'.bias ↔ c ∈ D.bias ∨ (c ∈ cs ∧ Relevant A dom D.base c)
  muses : ∃ ds : List ConstraintId, ds.Sublist cs ∧ D'.muses = D.muses ++ ds.map .singleton ∧
    ∀ c ∈ cs, c ∈ ds ↔ ¬ D.base.Admits A dom (.singleton c)

namespace Sifted

variable {D D' : Dualization} {c : ConstraintId} {cs : List ConstraintId}

/-- A constraint that is not relevant adds nothing to the bias. -/
theorem bias_cons (h : ∀ d, d ∈ D'.bias ↔ d ∈ D.bias ∨ (d ∈ cs ∧ Relevant A dom D.base d))
    (hno : ¬ Relevant A dom D.base c) (d : ConstraintId) :
    d ∈ D'.bias ↔ d ∈ D.bias ∨ (d ∈ c :: cs ∧ Relevant A dom D.base d) := by
  rw [h d, List.mem_cons]
  refine or_congr Iff.rfl (and_congr_left fun hrel => (or_iff_right ?_).symm)
  rintro rfl
  exact hno hrel

/-- A constraint that conflicts with the base is recorded by itself. -/
theorem conflict (h : Sifted A dom { D with muses := D.muses ++ [.singleton c] } cs D')
    (hnot : c ∉ cs) (hun : ¬ D.base.Admits A dom (.singleton c)) :
    D.Sifted A dom (c :: cs) D' := by
  obtain ⟨ds, hsub, hmus, hall⟩ := h.muses
  refine ⟨h.rest, bias_cons h.bias fun hrel => hun hrel.1, c :: ds, hsub.cons_cons c,
    by simp [hmus], fun d hd => ?_⟩
  rw [List.mem_cons]
  rcases List.mem_cons.1 hd with rfl | hd
  · exact iff_of_true (.inl rfl) hun
  · have hne : d ≠ c := fun e => hnot (e ▸ hd)
    exact (or_iff_right hne).trans (hall d hd)

/-- A constraint that agrees with the base is not recorded. -/
theorem muses_cons {E : Dualization} (h : E.Sifted A dom cs D') (hbase : E.base = D.base)
    (hmuses : E.muses = D.muses) (hnot : c ∉ cs) (hadm : D.base.Admits A dom (.singleton c)) :
    ∃ ds : List ConstraintId, ds.Sublist (c :: cs) ∧ D'.muses = D.muses ++ ds.map .singleton ∧
      ∀ d ∈ c :: cs, d ∈ ds ↔ ¬ D.base.Admits A dom (.singleton d) := by
  obtain ⟨ds, hsub, hmus, hall⟩ := h.muses
  refine ⟨ds, hsub.cons c, hmuses ▸ hmus, fun d hd => ?_⟩
  rcases List.mem_cons.1 hd with rfl | hd
  · exact iff_of_false (fun h => hnot (hsub.subset h)) fun h => h hadm
  · exact hbase ▸ hall d hd

theorem relevant (h : Sifted A dom { D with bias := D.bias.insert c } cs D') (hnot : c ∉ cs)
    (hrel : Relevant A dom D.base c) : D.Sifted A dom (c :: cs) D' where
  rest := h.rest
  bias := fun d => by
    rw [h.bias d, mem_insert, List.mem_cons]
    constructor
    · rintro ((rfl | hd) | ⟨hd, hrel⟩)
      · exact .inr ⟨.inl rfl, hrel⟩
      · exact .inl hd
      · exact .inr ⟨.inr hd, hrel⟩
    · rintro (hd | ⟨rfl | hd, hrel⟩)
      · exact .inl (.inr hd)
      · exact .inl (.inl rfl)
      · exact .inr ⟨hd, hrel⟩
  muses := h.muses_cons rfl rfl hnot hrel.1

theorem implied (h : D.Sifted A dom cs D') (hnot : c ∉ cs)
    (hadm : D.base.Admits A dom (.singleton c)) (hno : ¬ Relevant A dom D.base c) :
    D.Sifted A dom (c :: cs) D' where
  rest := h.rest
  bias := bias_cons h.bias hno
  muses := h.muses_cons rfl rfl hnot hadm

end Sifted

theorem leads_sift (hcp : cp.Answers I dom Err) (hA : A.Built) {D : Dualization}
    (hD : D.base.Closed A) {cs : List ConstraintId} (hnd : cs.Nodup)
    (hcs : ∀ c ∈ cs, A.Registered c ∧ ∀ v, A.Mentions c v → v ∈ D.base.scope) (hI : I st) :
    (sift A cp D cs).Leads st (fun D' t => I t ∧ D.Sifted A dom cs D')
      (fun f t => I t ∧ ((f = .error .timeout ∧ D.deadline = .passed) ∨ Err f t)) := by
  induction cs generalizing D st with
  | nil => exact ⟨hI, rfl, by simp, [], .refl _, by simp, nofun⟩
  | cons c cs ih =>
    obtain ⟨hnot, hnd⟩ := List.nodup_cons.1 hnd
    have hc := hcs c List.mem_cons_self
    have hcs' := fun d hd => hcs d (List.mem_cons_of_mem c hd)
    have hspan : D.base.Spans A (.singleton c) := fun d hd => by
      rw [mem_singleton.1 hd]
      exact hc
    rw [sift, Action.leads_bind, Limit.leads_poll]
    refine ⟨fun _ => ?_, fun hpassed => ⟨hI, .inl ⟨rfl, hpassed⟩⟩⟩
    refine (Network.leads_satisfiable hcp hA hD hspan hI).bind (fun b t ⟨hI, hb⟩ => ?_)
      fun f t ⟨ht, hf⟩ => ⟨ht, .inr hf⟩
    cases b with
    | false =>
      have hun : ¬ D.base.Admits A dom (.singleton c) := fun h => nomatch hb.2 h
      exact (ih (D := { D with muses := D.muses ++ [.singleton c] }) hD hnd hcs' hI).mono
        (fun _ _ h => ⟨h.1, h.2.conflict hnot hun⟩) fun _ _ h => h
    | true =>
      have hadm := hb.1 rfl
      refine (leads_leavesOpen hcp hA hD hc hI).bind (fun b t ⟨hI, hopen⟩ => ?_)
        fun f t ⟨ht, hf⟩ => ⟨ht, .inr hf⟩
      cases b with
      | true =>
        exact (ih (D := { D with bias := D.bias.insert c }) hD hnd hcs' hI).mono
          (fun _ _ h => ⟨h.1, h.2.relevant hnot ⟨hadm, hopen.1 rfl⟩⟩) fun _ _ h => h
      | false =>
        have hno : ¬ Relevant A dom D.base c := fun h => nomatch hopen.2 h.2
        exact (ih hD hnd hcs' hI).mono (fun _ _ h => ⟨h.1, h.2.implied hnot hadm hno⟩)
          fun _ _ h => h

/-- What a subset has become once each of the given constraints was tried. -/
structure Grown (A : Arena) (dom : Ranges) (D : Dualization) (G : MaximalSubset)
    (cs : List ConstraintId) (G' : MaximalSubset) : Prop where
  keeps : G.subset ⊆ G'.subset
  within : G'.subset ⊆ D.bias
  supports : D.base.Supports A dom G'.witness G'.subset
  tried : ∀ c ∈ cs, c ∈ G'.subset ∨ ¬ D.base.Admits A dom (G'.subset.insert c)

theorem Grown.accept {D : Dualization} {G G' : MaximalSubset} {c : ConstraintId}
    {cs : List ConstraintId} {q : Query}
    (h : D.Grown A dom ⟨G.subset.insert c, q⟩ cs G') : D.Grown A dom G (c :: cs) G' := by
  refine ⟨fun d hd => h.keeps d (mem_insert.2 (.inr hd)), h.within, h.supports, fun d hd => ?_⟩
  rcases List.mem_cons.1 hd with rfl | hd
  · exact .inl (h.keeps d (mem_insert.2 (.inl rfl)))
  · exact h.tried d hd

theorem Grown.refute {D : Dualization} {G G' : MaximalSubset} {c : ConstraintId}
    {cs : List ConstraintId} (h : D.Grown A dom G cs G')
    (hno : ¬ D.base.Admits A dom (G.subset.insert c)) : D.Grown A dom G (c :: cs) G' := by
  refine ⟨h.keeps, h.within, h.supports, fun d hd => ?_⟩
  rcases List.mem_cons.1 hd with rfl | hd
  · exact .inr (D.base.hereditary_admits.not_insert h.keeps hno)
  · exact h.tried d hd

theorem leads_tryEach (hcp : cp.Answers I dom Err) (hA : A.Built) {D : Dualization}
    (hD : D.Framed A) {cs : List ConstraintId} (hcs : ∀ c ∈ cs, c ∈ D.bias) {G : MaximalSubset}
    (hsub : G.subset ⊆ D.bias) (hG : D.base.Supports A dom G.witness G.subset) (hI : I st) :
    (tryEach A cp D G cs).Leads st (fun G' t => I t ∧ D.Grown A dom G cs G')
      (D.Fails A dom I Err) := by
  induction cs generalizing G st with
  | nil => exact ⟨hI, Subset.refl _, hsub, hG, by simp⟩
  | cons c cs ih =>
    have hc := hcs c List.mem_cons_self
    have hcs' : ∀ d ∈ cs, d ∈ D.bias := fun d hd => hcs d (List.mem_cons_of_mem _ hd)
    have hsub' : G.subset.insert c ⊆ D.bias := insert_subset hsub hc
    have accept : ∀ q, D.base.Supports A dom q (G.subset.insert c) → ∀ t, I t →
        (tryEach A cp D ⟨G.subset.insert c, q⟩ cs).Leads t
          (fun G' t => I t ∧ D.Grown A dom G (c :: cs) G') (D.Fails A dom I Err) := fun q hq t ht =>
      (ih hcs' (G := ⟨G.subset.insert c, q⟩) hsub' hq ht).mono
        (fun _ _ h => ⟨h.1, h.2.accept⟩) fun _ _ h => h
    simp only [tryEach, Action.leads_bind, Limit.leads_poll, Action.leads_ofChecked]
    refine ⟨fun _ => ⟨fun b hb => ?_, fun e he => ?_⟩, fun hpassed => ⟨hI, .inl ⟨rfl, hpassed⟩⟩⟩
    · split
      · next hholds =>
        exact accept _ (hG.insert (((hG.check (hD.spans c hc)).1 b hb).1 hholds)) st hI
      · refine (Network.leads_witness hcp hA hD.closed (hD.spans.mono hsub') hI).bind
          (fun r t h => ?_) fun f t h => ⟨h.1, .inr (.inl h.2)⟩
        obtain ⟨ht, hr⟩ := h
        cases r with
        | some q => exact accept q hr t ht
        | none =>
          exact (ih hcs' hsub hG ht).mono (fun _ _ h => ⟨h.1, h.2.refute hr⟩) fun _ _ h => h
    · obtain ⟨rfl, hover⟩ := hG.check_error hD.spans hc he
      exact ⟨hI, .inr (.inr ⟨rfl, hover⟩)⟩

/-- A satisfiable seed grows to a maximal subset that is satisfiable. -/
theorem leads_grow (hcp : cp.Answers I dom Err) (hA : A.Built) {D : Dualization}
    (hD : D.Framed A) {seed : IndexSet} (hsub : seed ⊆ D.bias)
    (hseed : D.base.Admits A dom seed) (hI : I st) :
    (D.grow A cp seed).Leads st
      (fun F t => I t ∧ Maximal (D.base.Admits A dom) D.bias F.subset ∧ seed ⊆ F.subset ∧
        D.base.Supports A dom F.witness F.subset) (D.Fails A dom I Err) := by
  rw [grow]
  refine (Network.leads_witness hcp hA hD.closed (hD.spans.mono hsub) hI).bind
    (fun r t ⟨ht, hr⟩ => ?_) fun f t ⟨ht, hf⟩ => ⟨ht, .inr (.inl hf)⟩
  cases r with
  | none => exact absurd hseed hr
  | some q =>
    refine (leads_tryEach hcp hA hD (G := ⟨seed, q⟩) (fun c hc => ?_) hsub hr ht).mono
      (fun F t ⟨hI, h⟩ => ⟨hI, ?_, h.keeps, h.supports⟩) fun _ _ h => h
    · exact (mem_diff.1 (mem_toList'.1 hc)).1
    · exact .of_tried D.base.hereditary_admits h.keeps h.within h.supports.admits h.tried

/-- To hit every correction is to lie in no subset found. -/
theorem hits_corrections_iff {b s : IndexSet} {found : List IndexSet} (hs : s ⊆ b) :
    HittingSets.Hits (found.map (b.diff ·)) s ↔ ∀ u ∈ found, ¬ s ⊆ u := by
  simp only [HittingSets.Hits, List.forall_mem_map, mem_diff]
  refine forall₂_congr fun u _ => ?_
  constructor
  · rintro ⟨i, hi, -, hiu⟩ hsub
    exact hiu (hsub i hi)
  · intro hno
    by_contra hall
    push Not at hall
    exact hno fun i hi => hall i hi (hs i hi)

/-- How far a search has come: the hitting sets are those of the corrections of the
subsets found, and what is recorded is minimal or was known to conflict beforehand. -/
structure Explored (Sat : IndexSet → Prop) (b : IndexSet) (conflicts found : List IndexSet)
    (D : Dualization) : Prop where
  hitting : HittingSets.Exact (found.map (b.diff ·)) D.hitting
  maximal : ∀ s ∈ found, Maximal Sat b s
  nodup_found : found.Nodup
  muses : ∀ s ∈ D.muses, s ∈ conflicts ∨ Minimal Sat b s
  nodup_muses : D.muses.Nodup
  recorded : ∀ s ∈ conflicts, s ∈ D.muses
  conflicts : ∀ s ∈ conflicts, ¬ Sat s

namespace Explored

variable {Sat : IndexSet → Prop} {b : IndexSet} {conflicts found : List IndexSet}
  {D : Dualization}

/-- Hitting sets have no members but those of the bias. -/
theorem hitting_subset (h : Explored Sat b conflicts found D) {s : IndexSet}
    (hs : s ∈ D.hitting) : s ⊆ b := by
  have hmin := (h.hitting.mem_iff s).1 hs
  have hhits : HittingSets.Hits (found.map (b.diff ·)) (s.diff (s.diff b)) := fun t ht => by
    obtain ⟨i, hi, hit⟩ := hmin.hits t ht
    obtain ⟨u, -, rfl⟩ := List.mem_map.1 ht
    exact ⟨i, mem_diff.2 ⟨hi, fun hd => (mem_diff.1 hd).2 (mem_diff.1 hit).1⟩, hit⟩
  have heq := hmin.minimal _ (fun i hi => (mem_diff.1 hi).1) hhits
  intro i hi
  rw [← heq, mem_diff] at hi
  by_contra hib
  exact hi.2 (mem_diff.2 ⟨hi.1, hib⟩)

/-- A hitting set that does not hold is minimal. -/
theorem minimal_of_hitting (h : Explored Sat b conflicts found D) (hSat : Hereditary Sat)
    {s : IndexSet} (hs : s ∈ D.hitting) (hun : ¬ Sat s) : Minimal Sat b s := by
  have hsub := h.hitting_subset hs
  have hmin := (h.hitting.mem_iff s).1 hs
  refine .of_erase hSat hsub hun fun c hc => ?_
  have herase : s.erase c ⊆ s := fun i hi => (mem_erase.1 hi).1
  by_contra hno
  -- Without `c` some correction is not hit, so what is left was found to hold.
  have hhits : HittingSets.Hits (found.map (b.diff ·)) (s.erase c) :=
    (hits_corrections_iff (Subset.trans herase hsub)).2 fun u hu hsu =>
      hno (hSat _ u hsu (h.maximal u hu).sat)
  have heq := hmin.minimal _ herase hhits
  rw [← heq] at hc
  exact (mem_erase.1 hc).2 rfl

/-- When no hitting set holds, the maximal subsets were all found, and the minimal
ones are hitting sets. -/
theorem exact (h : Explored Sat b conflicts found D) (hSat : Hereditary Sat)
    (hnone : ∀ s ∈ D.hitting, ¬ Sat s) :
    (∀ s, s ∈ found ↔ Maximal Sat b s) ∧ ∀ s, Minimal Sat b s → s ∈ D.hitting := by
  refine ⟨fun s => ⟨h.maximal s, fun hs => ?_⟩, fun s hs => ?_⟩
  · by_contra hnot
    have hhits : HittingSets.Hits (found.map (b.diff ·)) s :=
      (hits_corrections_iff hs.subset).2 fun u hu hsu =>
        hnot (hs.eq_of_subset (h.maximal u hu) hsu ▸ hu)
    obtain ⟨t, hts, ht⟩ := HittingSets.exists_minimalHitting hhits
    exact hnone t ((h.hitting.mem_iff t).2 ht) (hSat t s hts hs.sat)
  · have hhits : HittingSets.Hits (found.map (b.diff ·)) s :=
      (hits_corrections_iff hs.subset).2 fun u hu hsu =>
        hs.unsat (hSat s u hsu (h.maximal u hu).sat)
    obtain ⟨t, hts, ht⟩ := HittingSets.exists_minimalHitting hhits
    have ht' := (h.hitting.mem_iff t).2 ht
    rwa [← hs.minimal t hts (hnone t ht')]

theorem adding_mus (h : Explored Sat b conflicts found D) {s : IndexSet}
    (hs : Minimal Sat b s) (hnew : s ∉ D.muses) :
    Explored Sat b conflicts found { D with muses := D.muses ++ [s] } where
  hitting := h.hitting
  maximal := h.maximal
  nodup_found := h.nodup_found
  muses := fun u hu => by
    rcases List.mem_append.1 hu with hu | hu
    · exact h.muses u hu
    · exact .inr (List.mem_singleton.1 hu ▸ hs)
  nodup_muses := h.nodup_muses.append (List.nodup_singleton s) fun u hu hu' =>
    hnew (List.mem_singleton.1 hu' ▸ hu)
  recorded := fun u hu => List.mem_append_left _ (h.recorded u hu)
  conflicts := h.conflicts

theorem record (h : Explored Sat b conflicts found D) (hb : D.bias = b) {F : MaximalSubset}
    (hF : Maximal Sat b F.subset) (hnew : F.subset ∉ found) :
    Explored Sat b conflicts (found ++ [F.subset]) (D.record F) where
  hitting := by
    rw [List.map_append, List.map_singleton, ← hb]
    exact (hb ▸ h.hitting).extend _
  maximal := fun u hu => by
    rcases List.mem_append.1 hu with hu | hu
    · exact h.maximal u hu
    · exact List.mem_singleton.1 hu ▸ hF
  nodup_found := h.nodup_found.append (List.nodup_singleton _) fun u hu hu' =>
    hnew (List.mem_singleton.1 hu' ▸ hu)
  muses := h.muses
  nodup_muses := h.nodup_muses
  recorded := h.recorded
  conflicts := h.conflicts

theorem length_le (h : Explored Sat b conflicts found D) : found.length ≤ 2 ^ b.size :=
  length_le_two_pow h.nodup_found fun u hu => (h.maximal u hu).subset

end Explored

/-- What a search never changes once it has begun. -/
structure Continues (D D' : Dualization) : Prop where
  bias : D'.bias = D.bias
  base : D'.base = D.base
  deadline : D'.deadline = D.deadline

theorem Continues.refl (D : Dualization) : D.Continues D := ⟨rfl, rfl, rfl⟩

/-- Looks for a hitting set that holds, and records those before it that do not. -/
theorem leads_nextSeed (hcp : cp.Answers I dom Err) (hA : A.Built)
    {conflicts found : List IndexSet} {hs : List IndexSet} {D : Dualization} (hD : D.Framed A)
    (h : Explored (D.base.Admits A dom) D.bias conflicts found D)
    (hsub : ∀ s ∈ hs, s ∈ D.hitting) (hI : I st) :
    (nextSeed A cp hs).Leads (D, st)
      (fun r p => I p.2 ∧ p.1 = { D with muses := p.1.muses } ∧ D.muses <+: p.1.muses ∧
        Explored (D.base.Admits A dom) D.bias conflicts found p.1 ∧
        match r with
        | none => ∀ s ∈ hs, s ∈ p.1.muses
        | some s => s ∈ D.hitting ∧ D.base.Admits A dom s)
      (fun f p => D.Continues p.1 ∧ D.Fails A dom I Err f p.2) := by
  induction hs generalizing D st with
  | nil => exact ⟨hI, rfl, List.prefix_rfl, h, by simp⟩
  | cons s hs ih =>
    have hsub' : ∀ u ∈ hs, u ∈ D.hitting := fun u hu => hsub u (List.mem_cons_of_mem _ hu)
    have hs' := hsub s List.mem_cons_self
    simp only [nextSeed, Action.leads_bind, Procedure.leads_own, Procedure.leads_call,
      Limit.leads_poll]
    refine ⟨fun _ => ?_, fun hpassed => ⟨.refl D, hI, .inl ⟨rfl, hpassed⟩⟩⟩
    split
    · next hin =>
      refine (ih hD h hsub' hI).mono (fun r p h' => ?_) fun _ _ h => h
      obtain ⟨hI, hp, hpre, hexp, hr⟩ := h'
      refine ⟨hI, hp, hpre, hexp, ?_⟩
      cases r with
      | some u => exact hr
      | none =>
        intro u hu
        rcases List.mem_cons.1 hu with rfl | hu
        · exact hpre.subset (List.contains_iff_mem.1 hin)
        · exact hr u hu
    · next hnot =>
      have hspan := hD.spans.mono (h.hitting_subset hs')
      rw [Action.leads_bind, Procedure.leads_call]
      refine (Network.leads_satisfiable hcp hA hD.closed hspan hI).mono (fun b t hsat => ?_)
        fun f t hf => ⟨.refl D, hf.1, .inr (.inl hf.2)⟩
      obtain ⟨hI, hb⟩ := hsat
      cases b with
      | true => exact ⟨hI, rfl, List.prefix_rfl, h, hs', hb.1 rfl⟩
      | false =>
        have hun : ¬ D.base.Admits A dom s := fun h => Bool.false_ne_true (hb.2 h)
        have hmin := h.minimal_of_hitting (Network.hereditary_admits _) hs' hun
        have hnew : s ∉ D.muses := fun hmem => hnot (List.contains_iff_mem.2 hmem)
        have hmore : D.muses <+: D.muses ++ [s] := List.prefix_append _ _
        simp only [Bool.false_eq_true, if_false, Action.leads_bind, Procedure.leads_update]
        refine (ih (D := { D with muses := D.muses ++ [s] }) ⟨hD.closed, hD.spans⟩
          (h.adding_mus hmin hnew) hsub' hI).mono (fun r p h' => ?_) fun f p hf =>
          ⟨⟨hf.1.bias, hf.1.base, hf.1.deadline⟩, hf.2⟩
        obtain ⟨hI, hp, hpre, hexp, hr⟩ := h'
        refine ⟨hI, hp, hmore.trans hpre, hexp, ?_⟩
        cases r with
        | some u => exact hr
        | none =>
          intro u hu
          rcases List.mem_cons.1 hu with rfl | hu
          · exact hpre.subset (by simp)
          · exact hr u hu

/-- How far a search has come after a step, where nothing more is found only if every
hitting set is known not to hold. -/
def Advanced (A : Arena) (dom : Ranges) (conflicts found : List IndexSet) (D : Dualization) :
    Option MaximalSubset → Dualization → Prop
  | none, D' => Explored (D.base.Admits A dom) D.bias conflicts found D' ∧
      ∀ s ∈ D'.hitting, s ∈ D'.muses
  | some F, D' => Explored (D.base.Admits A dom) D.bias conflicts (found ++ [F.subset]) D' ∧
      D'.started = true ∧ D'.exhausted = false ∧ D.base.Supports A dom F.witness F.subset

/-- A seed that holds and lies in no subset found grows to a new one. -/
theorem leads_advance (hcp : cp.Answers I dom Err) (hA : A.Built)
    {conflicts found : List IndexSet} {D : Dualization} (hD : D.Framed A)
    (h : Explored (D.base.Admits A dom) D.bias conflicts found D) (hex : D.exhausted = false)
    (hst : D.started = true) {seed : IndexSet} (hsub : seed ⊆ D.bias)
    (hadm : D.base.Admits A dom seed) (hnew : ∀ u ∈ found, ¬ seed ⊆ u) (hI : I st) :
    (D.grow A cp seed).Leads st
      (fun F t => I t ∧ Advanced A dom conflicts found D (some F) (D.record F))
      (D.Fails A dom I Err) := by
  refine (leads_grow hcp hA hD hsub hadm hI).mono (fun F t ⟨hI, hmax, hseed, hsup⟩ => ?_)
    fun _ _ h => h
  exact ⟨hI, h.record rfl hmax fun hmem => hnew _ hmem hseed, hst, hex, hsup⟩

theorem leads_next (hcp : cp.Answers I dom Err) (hA : A.Built)
    {conflicts found : List IndexSet} {D : Dualization} (hD : D.Framed A)
    (h : Explored (D.base.Admits A dom) D.bias conflicts found D) (hex : D.exhausted = false)
    (hfresh : D.started = false → found = [] ∧ D.base.Admits A dom .empty) (hI : I st) :
    (next? A cp).Leads (D, st)
      (fun r p => I p.2 ∧ D.Continues p.1 ∧ Advanced A dom conflicts found D r p.1)
      (fun f p => D.Continues p.1 ∧ D.Fails A dom I Err f p.2) := by
  simp only [next?, seed, Action.leads_bind, Procedure.leads_own, hex, Bool.false_eq_true,
    if_false]
  cases hst : D.started with
  | false =>
    obtain ⟨rfl, hadm⟩ := hfresh hst
    simp only [Bool.false_eq_true, if_false, Action.leads_bind, Procedure.leads_update,
      Action.leads_pure, Procedure.leads_callWith]
    refine (leads_advance hcp hA (D := { D with started := true }) ⟨hD.closed, hD.spans⟩
      ⟨h.hitting, h.maximal, h.nodup_found, h.muses, h.nodup_muses, h.recorded, h.conflicts⟩ hex
      rfl (fun i hi => absurd hi (mem_empty i)) hadm (by simp) hI).mono
      (fun r t h => ⟨h.1, ⟨rfl, rfl, rfl⟩, h.2⟩) fun f t hf => ⟨⟨rfl, rfl, rfl⟩, hf⟩
  | true =>
    simp only [if_true]
    refine (leads_nextSeed hcp hA hD h (fun _ hs => hs) hI).mono
      (fun r p h' => ?_) fun _ _ h => h
    obtain ⟨D', t⟩ := p
    obtain ⟨hI, hp, -, hexp, hr⟩ := h'
    simp only at hp hexp hI hr
    cases r with
    | none =>
      simp only [Action.leads_bind, Procedure.leads_update, Action.leads_pure]
      refine ⟨hI, ⟨by rw [hp], by rw [hp], by rw [hp]⟩, ⟨hexp.hitting, hexp.maximal,
        hexp.nodup_found, hexp.muses, hexp.nodup_muses, hexp.recorded, hexp.conflicts⟩, ?_⟩
      intro s hs
      refine hr s ?_
      rw [hp] at hs
      exact hs
    | some s =>
      obtain ⟨hs, hadm⟩ := hr
      have hsub := h.hitting_subset hs
      have hbase : D'.base = D.base := by rw [hp]
      have hbias : D'.bias = D.bias := by rw [hp]
      have hdl : D'.deadline = D.deadline := by rw [hp]
      have hex' : D'.exhausted = false := by rw [hp]; exact hex
      have hst' : D'.started = true := by rw [hp]; exact hst
      simp only [Action.leads_bind, Procedure.leads_update, Action.leads_pure,
        Procedure.leads_callWith]
      have hexp' : Explored (D'.base.Admits A dom) D'.bias conflicts found D' := by
        rwa [hbase, hbias]
      refine (leads_advance hcp hA ⟨by rw [hbase]; exact hD.closed,
        by rw [hbase, hbias]; exact hD.spans⟩ hexp' hex' hst'
        (by rwa [hbias]) (by rwa [hbase])
        ((hits_corrections_iff hsub).1 ((h.hitting.mem_iff s).1 hs).hits) hI).mono
        (fun r t h' => ⟨h'.1, ⟨hbias, hbase, hdl⟩, ?_⟩)
        fun f t hf => ⟨⟨hbias, hbase, hdl⟩, ?_⟩
      · simpa only [Advanced, hbase, hbias] using h'.2
      · simpa only [Fails, hbase, hbias, hdl] using hf

/-- Every maximal subset that is still to be found, one call after the other. -/
def all (A : Arena) (cp : CpBackend σ) : Nat → Procedure Dualization σ (List MaximalSubset)
  | 0 => throw .outOfFuel
  | fuel + 1 => do
    match ← next? A cp with
    | none => return []
    | some F => return F :: (← all A cp fuel)

/-- What has been found in the end, and what was met on the way. -/
structure Completed (A : Arena) (dom : Ranges) (conflicts found : List IndexSet)
    (D : Dualization) (xs : List MaximalSubset) (D' : Dualization) : Prop where
  explored : Explored (D.base.Admits A dom) D.bias conflicts (found ++ xs.map (·.subset)) D'
  decided : ∀ s ∈ D'.hitting, s ∈ D'.muses
  supported : ∀ F ∈ xs, D.base.Supports A dom F.witness F.subset

theorem leads_all (hcp : cp.Answers I dom Err) (hA : A.Built) (fuel : Nat)
    {conflicts found : List IndexSet} {D : Dualization} (hD : D.Framed A)
    (h : Explored (D.base.Admits A dom) D.bias conflicts found D) (hex : D.exhausted = false)
    (hfresh : D.started = false → found = [] ∧ D.base.Admits A dom .empty)
    (hfuel : 2 ^ D.bias.size < fuel + found.length) (hI : I st) :
    (all A cp fuel).Leads (D, st) (fun xs p => Completed A dom conflicts found D xs p.1)
      (fun f p => D.Fails A dom I Err f p.2) := by
  induction fuel generalizing D st found with
  | zero =>
    have := h.length_le
    omega
  | succ fuel ih =>
    rw [all]
    refine (leads_next hcp hA hD h hex hfresh hI).bind (fun r p ⟨hI, hc, hadv⟩ => ?_)
      fun f p ⟨_, hf⟩ => hf
    obtain ⟨D', t⟩ := p
    cases r with
    | none =>
      obtain ⟨hexp, hdec⟩ := hadv
      exact ⟨by simpa using hexp, hdec, nofun⟩
    | some F =>
      obtain ⟨hexp, hst', hex', hsup⟩ := hadv
      obtain ⟨hbias, hbase, hdl⟩ := hc
      simp only at hbias hbase hdl hex' hexp hI hst'
      rw [Action.leads_bind]
      have hexp' : Explored (D'.base.Admits A dom) D'.bias conflicts (found ++ [F.subset]) D' := by
        rwa [hbias, hbase]
      refine (ih ⟨by rw [hbase]; exact hD.closed, by rw [hbase, hbias]; exact hD.spans⟩ hexp' hex'
        (fun hno => by rw [hst'] at hno; cases hno)
        (by rw [hbias, List.length_append, List.length_singleton]; omega) hI).mono
        (fun xs p hxs => ?_) fun f p hf => by simpa only [Fails, hbase, hbias, hdl] using hf
      obtain ⟨hexp, hdec, hall⟩ := hxs
      rw [hbase, hbias] at hexp
      rw [hbase] at hall
      rw [Action.leads_pure]
      refine ⟨by simpa using hexp, hdec, fun G hG => ?_⟩
      rcases List.mem_cons.1 hG with rfl | hG
      · exact hsup
      · exact hall G hG

/-- In the end all maximal subsets were found, and all minimal ones are recorded. -/
theorem Completed.exact {conflicts : List IndexSet} {D D' : Dualization}
    {xs : List MaximalSubset} (h : Completed A dom conflicts [] D xs D') :
    Explored (D.base.Admits A dom) D.bias conflicts (xs.map (·.subset)) D' ∧
      (∀ s, s ∈ xs.map (·.subset) ↔ Maximal (D.base.Admits A dom) D.bias s) ∧
      ∀ s, s ∈ D'.muses ↔ s ∈ conflicts ∨ Minimal (D.base.Admits A dom) D.bias s := by
  have hexp := h.explored
  rw [List.nil_append] at hexp
  have hnone : ∀ s ∈ D'.hitting, ¬ D.base.Admits A dom s := fun s hs =>
    (hexp.muses s (h.decided s hs)).elim (hexp.conflicts s) (·.unsat)
  obtain ⟨hmax, hmin⟩ := hexp.exact (Network.hereditary_admits _) hnone
  refine ⟨hexp, hmax, fun s => ⟨hexp.muses s, ?_⟩⟩
  rintro (hs | hs)
  · exact hexp.recorded s hs
  · exact h.decided s (hmin s hs)

/-- Sifting loses no minimal set that cannot hold. -/
theorem minimal_iff {N : Network} {B b : IndexSet} (hN : N.Admits A dom .empty)
    (hb : ∀ c, c ∈ b ↔ c ∈ B ∧ Relevant A dom N c) (s : IndexSet) :
    Minimal (N.Admits A dom) B s ↔
      (∃ c ∈ B, ¬ N.Admits A dom (.singleton c) ∧ s = .singleton c) ∨
        Minimal (N.Admits A dom) b s := by
  constructor
  · intro hs
    by_cases hconf : ∃ c ∈ s, ¬ N.Admits A dom (.singleton c)
    · obtain ⟨c, hc, hun⟩ := hconf
      refine .inl ⟨c, hs.subset c hc, hun, (hs.minimal _ (fun d hd => ?_) hun).symm⟩
      rwa [mem_singleton.1 hd]
    · push Not at hconf
      refine .inr ⟨fun c hc => (hb c).2 ⟨hs.subset c hc, hconf c hc, ?_⟩, hs.unsat, hs.minimal⟩
      -- Were `c` implied, the other members could not hold together either.
      by_contra himp
      push Not at himp
      refine hs.unsat ?_
      by_cases herase : N.Admits A dom (s.erase c)
      · obtain ⟨f, hf, hfN, hall⟩ := herase
        refine ⟨f, hf, hfN, fun d hd => ?_⟩
        by_cases hdc : d = c
        · exact hdc ▸ himp f hf hfN
        · exact hall d (mem_erase.2 ⟨hd, hdc⟩)
      · have heq := hs.minimal _ (fun d hd => (mem_erase.1 hd).1) herase
        rw [← heq] at hc
        exact absurd rfl (mem_erase.1 hc).2
  · rintro (⟨c, hc, hun, rfl⟩ | hs)
    · refine ⟨fun d hd => by rwa [mem_singleton.1 hd], hun, fun t ht hno => ?_⟩
      by_cases hct : c ∈ t
      · exact Subset.antisymm ht fun d hd => by rwa [mem_singleton.1 hd]
      · refine absurd (N.hereditary_admits t .empty (fun d hd => ?_) hN) hno
        exact absurd (mem_singleton.1 (ht d hd) ▸ hd) hct
    · exact ⟨fun c hc => ((hb c).1 (hs.subset c hc)).1, hs.unsat, hs.minimal⟩

/-- What is sifted has met the conflicting constraints, and no other conflict. -/
theorem Sifted.explored {D D' : Dualization} {cs : List ConstraintId} (h : D.Sifted A dom cs D')
    (hmuses : D.muses = []) (hhitting : D.hitting = [.empty]) (hcs : cs.Nodup) :
    ∃ ds : List ConstraintId, (∀ c, c ∈ ds ↔ c ∈ cs ∧ ¬ D.base.Admits A dom (.singleton c)) ∧
      D'.muses = ds.map .singleton ∧
      Explored (D.base.Admits A dom) D'.bias (ds.map .singleton) [] D' := by
  obtain ⟨ds, hsub, hmus, hall⟩ := h.muses
  have hmem : ∀ c, c ∈ ds ↔ c ∈ cs ∧ ¬ D.base.Admits A dom (.singleton c) := fun c =>
    ⟨fun hc => ⟨hsub.subset hc, (hall c (hsub.subset hc)).1 hc⟩, fun hc => (hall c hc.1).2 hc.2⟩
  rw [hmuses, List.nil_append] at hmus
  refine ⟨ds, hmem, hmus, ?_, nofun, .nil, fun s hs => .inl (hmus ▸ hs), ?_, fun s hs => hmus ▸ hs,
    fun s hs => ?_⟩
  · rw [h.rest]
    change HittingSets.Exact [] D.hitting
    rw [hhitting]
    exact HittingSets.exact_nil
  · rw [hmus]
    refine (hcs.sublist hsub).map fun c d hcd => ?_
    exact mem_singleton.1 (hcd ▸ mem_singleton.2 rfl)
  · obtain ⟨c, hc, rfl⟩ := List.mem_map.1 hs
    exact ((hmem c).1 hc).2

/-- Nothing is found once a search is exhausted. -/
theorem leads_all_exhausted {fuel : Nat} {D : Dualization} (hex : D.exhausted = true)
    {Q : List MaximalSubset → Dualization × σ → Prop} {E : Failure → Dualization × σ → Prop}
    (h : Q [] (D, st)) : (all A cp (fuel + 1)).Leads (D, st) Q E := by
  simpa only [all, next?, Action.leads_bind, Procedure.leads_own, hex, if_true,
    Action.leads_pure] using h

/-- A search by dualization is exact, as long as no sum leaves its word. It ends after
as many calls as there are subsets of the bias, and one more. -/
theorem dualizes_exactly (hcp : cp.Lawful dom fun _ _ => False) (hA : A.Built)
    {bias base known : Network} (hbias : bias.Closed A) (hbase : base.Closed A)
    (hknown : known.Closed A) {fuel : Nat}
    (hfuel : 2 ^ (bias.constraints.diff (base.union known).constraints).size < fuel) :
    let b := bias.constraints.diff (base.union known).constraints
    let whole := ((Network.ofScope bias.scope).union base).union known
    (start A cp bias base known .unbounded).Leads st
      (fun D t => (all A cp fuel).Leads (D, t)
        (fun xs p =>
          (¬ whole.Satisfiable A dom → xs = [] ∧ p.1.muses = []) ∧
          (whole.Satisfiable A dom → ∃ kept : IndexSet,
            (∀ c, c ∈ kept ↔ c ∈ b ∧ Relevant A dom whole c) ∧
            (kept = .empty → xs = []) ∧
            (kept ≠ .empty →
              ∀ s, s ∈ xs.map (·.subset) ↔ Maximal (whole.Admits A dom) kept s) ∧
            (xs.map (·.subset)).Nodup ∧
            (∀ F ∈ xs, whole.Supports A dom F.witness F.subset) ∧
            p.1.muses.Nodup ∧
            ∀ s, s ∈ p.1.muses ↔ Minimal (whole.Admits A dom) b s))
        (fun f _ => f = .fault .overflow ∧ whole.Overflows A dom b))
      (fun _ _ => False) := by
  intro b whole
  have hwhole : whole.Closed A := ((Network.closed_ofScope A _).union hbase).union hknown
  have hb : bias.constraints.diff whole.constraints = b := ext_mem fun c => by
    simp [b, whole, Network.union, Network.ofScope]
  have hspans : whole.Spans A b := fun c hc => by
    obtain ⟨hreg, hvars⟩ := hbias c (mem_diff.1 hc).1
    exact ⟨hreg, fun v hv => mem_union.2 (.inl (mem_union.2 (.inl (hvars v hv))))⟩
  have hnone : whole.Spans A .empty := fun c hc => absurd hc (mem_empty c)
  have hempty : whole.Admits A dom .empty ↔ whole.Satisfiable A dom :=
    exists_congr fun f => and_congr_right fun _ =>
      and_iff_left fun c hc => absurd hc (mem_empty c)
  obtain ⟨fuel, rfl⟩ := Nat.exists_eq_succ_of_ne_zero (Nat.ne_of_gt (Nat.zero_lt_of_lt hfuel))
  rw [start, Action.leads_bind]
  refine (Network.leads_satisfiable hcp.answers hA hwhole hnone trivial).mono
    (fun r t h => ?_) fun f t h => h.2
  have hr := h.2
  rw [hempty] at hr
  cases r with
  | false =>
    have hno : ¬ whole.Satisfiable A dom := fun h => Bool.false_ne_true (hr.2 h)
    simp only [Bool.false_eq_true, if_false, Action.leads_pure]
    exact leads_all_exhausted (D := { base := whole, exhausted := true }) rfl
      ⟨fun _ => ⟨rfl, rfl⟩, fun h => absurd h hno⟩
  | true =>
    have hsat : whole.Satisfiable A dom := hr.1 rfl
    simp only [if_true, Action.leads_bind, Action.leads_pure]
    refine (leads_sift (D := { base := whole, deadline := .unbounded }) hcp.answers hA hwhole
      (nodup_toList _) (fun c hc => hspans c (hb ▸ mem_toList'.1 hc)) trivial).mono
      (fun D t hD => ?_) fun f t hf => ?_
    · have h := hD.2
      have hkept : ∀ c, c ∈ D.bias ↔ c ∈ b ∧ Relevant A dom whole c := fun c => by
        rw [h.bias c, mem_toList', ← hb]
        exact or_iff_right (mem_empty c)
      have hsub : D.bias ⊆ b := fun c hc => ((hkept c).1 hc).1
      have hbase : D.base = whole := by rw [h.rest]
      obtain ⟨ds, hds, hmus, hexp⟩ := h.explored rfl rfl (nodup_toList _)
      have hconf : ∀ s, s ∈ ds.map IndexSet.singleton ↔
          ∃ c ∈ b, ¬ whole.Admits A dom (.singleton c) ∧ s = .singleton c := fun s => by
        simp only [List.mem_map, hds, mem_toList', hb]
        grind
      have hminimal := minimal_iff (hempty.2 hsat) hkept
      cases hex : D.bias.isEmpty with
      | true =>
        have hno : ∀ c, c ∉ D.bias := isEmpty_eq_true.1 hex
        have heq : D.bias = .empty := ext_mem fun c => iff_of_false (hno c) (mem_empty c)
        refine leads_all_exhausted (D := { D with exhausted := true }) rfl
          ⟨fun hunsat => absurd hsat hunsat, fun _ => ⟨D.bias, hkept, fun _ => rfl,
            fun hne => absurd heq hne, .nil, by simp, hexp.nodup_muses, fun s => ?_⟩⟩
        rw [hminimal s, ← hconf, hmus]
        refine (or_iff_left fun hs => ?_).symm
        exact hs.unsat (whole.hereditary_admits s .empty
          (fun c hc => absurd (hs.subset c hc) (hno c))
          (hempty.2 hsat))
      | false =>
        have hne : D.bias ≠ .empty := fun heq => by
          obtain ⟨c, hc⟩ := isEmpty_eq_false.1 hex
          rw [heq] at hc
          exact mem_empty c hc
        have hstart : D.started = false := by rw [h.rest]
        have hle := Nat.pow_le_pow_right Nat.two_pos (size_le_of_subset hsub)
        have hexp' : Explored (D.base.Admits A dom) D.bias (ds.map .singleton) []
            { D with exhausted := false } := by
          rw [hbase]
          exact ⟨hexp.hitting, hexp.maximal, hexp.nodup_found, hexp.muses, hexp.nodup_muses,
            hexp.recorded, hexp.conflicts⟩
        refine (leads_all hcp.answers hA (fuel + 1) (D := { D with exhausted := false })
          ⟨hbase ▸ hwhole, hbase ▸ hspans.mono hsub⟩ hexp' rfl
          (fun _ => ⟨rfl, hbase ▸ hempty.2 hsat⟩) ?_ trivial).mono (fun xs p hxs => ?_)
          fun f p hf => ?_
        · exact Nat.lt_of_le_of_lt hle hfuel
        · obtain ⟨hexp', hmax, hmin⟩ := hxs.exact
          rw [hbase] at hexp' hmax hmin
          refine ⟨fun hunsat => absurd hsat hunsat, fun _ => ⟨D.bias, hkept,
            fun heq => absurd heq hne,
            fun _ => hmax, hexp'.nodup_found, fun F hF => hbase ▸ hxs.supported F hF,
            hexp'.nodup_muses, fun s => ?_⟩⟩
          rw [hminimal s, ← hconf]
          exact hmin s
        · obtain ⟨-, ⟨-, hpassed⟩ | hno | ⟨rfl, c, hc, hover⟩⟩ := hf
          · rw [h.rest] at hpassed
            cases hpassed
          · exact hno.elim
          · rw [hbase] at hc hover
            exact ⟨rfl, c, hc.imp id (hsub c), hover⟩
    · obtain ⟨_, ⟨-, hpassed⟩ | hno⟩ := hf
      · cases hpassed
      · exact hno

open Exhaustive in
/-- The maximal subsets of a constraint and its negation are found, and the two of them
are recorded to conflict. -/
theorem dualizes_clash :
    let whole := ((Network.ofScope clash.scope).union {}).union {}
    (start sample (Exhaustive.cp bits) clash {} {} .unbounded).Leads []
      (fun D t => (all sample (Exhaustive.cp bits) 5).Leads (D, t)
        (fun xs p => (xs.map (·.subset)).Nodup ∧
          (∀ F ∈ xs, whole.Supports sample bits.Allows F.witness F.subset) ∧
          ∀ s, s ∈ p.1.muses ↔
            Minimal (whole.Admits sample bits.Allows) clash.constraints s)
        (fun f _ => f = .fault .overflow ∧ whole.Overflows sample bits.Allows clash.constraints))
      (fun _ _ => False) := by
  have hb : clash.constraints.diff (Network.union {} {}).constraints = clash.constraints :=
    ext_mem fun c => by simp [Network.union]
  have hfuel : 2 ^ (clash.constraints.diff (Network.union {} {}).constraints).size < 5 := by
    decide +kernel
  refine (dualizes_exactly (cp_lawful bits _) built_sample closed_clash (closed_nothing _)
    (closed_nothing _) hfuel).mono
    (fun D t h => h.mono (fun xs p hxs => ?_) fun f p hf => ?_) fun _ _ h => h
  · obtain ⟨-, -, -, -, hnd, hsup, -, hmus⟩ := hxs.2 satisfiable_scope
    exact ⟨hnd, hsup, fun s => (hmus s).trans (by rw [hb])⟩
  · exact ⟨hf.1, hb ▸ hf.2⟩

end Acquisition.Dualization
