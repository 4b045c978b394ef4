import Acquisition.Subsets.HittingSets
import Acquisition.Proofs.Subsets

/-!
# Minimal hitting sets, one set at a time

A list is exact for a collection if it holds the minimal hitting sets of the
collection, each once. To be exact is kept when one more set has to be hit, and so
what is computed for a whole collection is exact, in whatever order its sets are
taken.
-/
namespace Acquisition.HittingSets

open IndexSet

/-- The set shares a member with each set of the collection. -/
def Hits (cs : List IndexSet) (s : IndexSet) : Prop := ∀ t ∈ cs, ∃ i ∈ s, i ∈ t

/-- A hitting set of which no proper subset is one. -/
structure MinimalHitting (cs : List IndexSet) (s : IndexSet) : Prop where
  hits : Hits cs s
  minimal : ∀ t, t ⊆ s → Hits cs t → t = s

/-- The list holds the minimal hitting sets, each once. -/
structure Exact (cs hitting : List IndexSet) : Prop where
  nodup : hitting.Nodup
  mem_iff : ∀ s, s ∈ hitting ↔ MinimalHitting cs s

theorem Hits.mono {cs : List IndexSet} {s t : IndexSet} (h : Hits cs s) (hst : s ⊆ t) :
    Hits cs t := fun u hu => by
  obtain ⟨i, hi, hiu⟩ := h u hu
  exact ⟨i, hst i hi, hiu⟩

theorem hits_append {cs : List IndexSet} {c s : IndexSet} :
    Hits (cs ++ [c]) s ↔ Hits cs s ∧ ∃ i ∈ s, i ∈ c := by
  simp only [Hits, List.forall_mem_append, List.forall_mem_singleton]

/-- Every hitting set contains a minimal one. -/
theorem exists_minimalHitting {cs : List IndexSet} {s : IndexSet} (hs : Hits cs s) :
    ∃ t, t ⊆ s ∧ MinimalHitting cs t := by
  obtain ⟨t, hts, ht⟩ : ∃ t, t ⊆ s ∧ Minimal (fun u => ¬ Hits cs u) s t :=
    exists_minimal (Subset.refl s) fun h => h hs
  exact ⟨t, hts, Classical.not_not.1 ht.unsat, fun u hu hc => ht.minimal u hu fun h => h hc⟩

theorem exact_nil : Exact [] [.empty] where
  nodup := List.nodup_singleton _
  mem_iff := fun s => by
    rw [List.mem_singleton]
    constructor
    · rintro rfl
      exact ⟨nofun, fun t ht _ => Subset.antisymm ht fun i hi => absurd hi (mem_empty i)⟩
    · exact fun h => (h.minimal .empty (fun i hi => absurd hi (mem_empty i)) nofun).symm

theorem isDominated_eq_false {sets : List (IndexSet × Nat)} {s : IndexSet} {i : Nat}
    (h : isDominated sets (s, i) = false) {t : IndexSet} {j : Nat} (ht : (t, j) ∈ sets)
    (hne : j ≠ i) (hsub : t ⊆ s) : t = s ∧ i ≤ j := by
  have := List.any_eq_false.1 h (t, j) ht
  simp only [Bool.and_eq_true, bne_iff_ne, subset_eq_true, Bool.or_eq_true, decide_eq_true_eq,
    not_and, not_or, ne_eq, Classical.not_not, Nat.not_lt] at this
  exact this ⟨hne, hsub⟩

theorem isDominated_eq_true {sets : List (IndexSet × Nat)} {s : IndexSet} {i : Nat}
    (h : isDominated sets (s, i) = true) :
    ∃ t j, (t, j) ∈ sets ∧ j ≠ i ∧ t ⊆ s ∧ (t ≠ s ∨ j < i) := by
  obtain ⟨⟨t, j⟩, ht, h⟩ := List.any_eq_true.1 h
  simp only [Bool.and_eq_true, bne_iff_ne, subset_eq_true, Bool.or_eq_true,
    decide_eq_true_eq] at h
  exact ⟨t, j, ht, h.1.1, h.1.2, h.2⟩

theorem mem_minimal {sets : List IndexSet} {s : IndexSet} :
    s ∈ minimal sets ↔ s ∈ sets ∧ ∀ t ∈ sets, t ⊆ s → t = s := by
  simp only [minimal, List.mem_map, List.mem_filter, Bool.not_eq_true', Prod.exists,
    exists_and_right, exists_eq_right]
  constructor
  · rintro ⟨i, hi, hdom⟩
    refine ⟨List.mem_of_getElem? (List.mk_mem_zipIdx_iff_getElem?.1 hi), fun t ht hts => ?_⟩
    obtain ⟨j, hj⟩ := List.mem_iff_getElem?.1 ht
    by_cases hji : j = i
    · subst hji
      rw [List.mk_mem_zipIdx_iff_getElem?.1 hi] at hj
      exact (Option.some.inj hj).symm
    · exact (isDominated_eq_false hdom (List.mk_mem_zipIdx_iff_getElem?.2 hj) hji hts).1
  · rintro ⟨hs, hmin⟩
    -- Among equal sets the first one is kept.
    have hex : ∃ i, sets[i]? = some s := List.mem_iff_getElem?.1 hs
    classical
    refine ⟨Nat.find hex, List.mk_mem_zipIdx_iff_getElem?.2 (Nat.find_spec hex), ?_⟩
    rw [← Bool.not_eq_true]
    intro hdom
    obtain ⟨t, j, ht, -, hts, hor⟩ := isDominated_eq_true hdom
    have ht' := List.mk_mem_zipIdx_iff_getElem?.1 ht
    have heq : t = s := hmin t (List.mem_of_getElem? ht') hts
    exact hor.elim (fun hne => hne heq) fun hlt => Nat.find_min hex hlt (heq ▸ ht')

theorem nodup_minimal (sets : List IndexSet) : (minimal sets).Nodup := by
  rw [minimal, List.Nodup, List.pairwise_map]
  have hlt : (sets.zipIdx.filter fun entry => !isDominated sets.zipIdx entry).Pairwise
      fun a b => a.2 < b.2 := by
    refine List.Pairwise.filter _ ?_
    have := List.pairwise_lt_range (n := sets.length)
    rwa [List.range_eq_range', ← List.zipIdx_map_snd 0 sets, List.pairwise_map] at this
  refine hlt.imp_of_mem fun {a b} ha hb hab heq => ?_
  obtain ⟨s, i⟩ := a
  obtain ⟨t, j⟩ := b
  rw [List.mem_filter, Bool.not_eq_true'] at ha hb
  have hst : s = t := heq
  have := (isDominated_eq_false hb.2 ha.1 (Nat.ne_of_lt hab) (hst ▸ Subset.refl s)).2
  exact absurd hab (Nat.not_lt.2 this)

theorem mem_extensions {c h s : IndexSet} :
    s ∈ extensions c h ↔
      ((∃ i ∈ h, i ∈ c) ∧ s = h) ∨ ((∀ i ∈ h, i ∉ c) ∧ ∃ i ∈ c, s = h.insert i) := by
  unfold extensions
  split
  · next hd =>
    have hd' : ∀ i ∈ h, i ∉ c := disjoint_eq_true.1 hd
    have hno : ¬ ∃ i ∈ h, i ∈ c := fun ⟨i, hi, hic⟩ => hd' i hi hic
    simp only [hno, false_and, false_or, List.mem_map, mem_toList', and_iff_right hd']
    simp only [eq_comm]
  · next hd =>
    have hd' : ¬ ∀ i ∈ h, i ∉ c := fun h' => hd (disjoint_eq_true.2 h')
    have hyes : ∃ i ∈ h, i ∈ c := by
      push Not at hd'
      exact hd'
    simp only [List.mem_singleton, and_iff_right hyes, hd', false_and, or_false]

/-- One more set is hit by what comes of the minimal hitting sets, and by nothing
smaller. -/
theorem Exact.extend {cs hitting : List IndexSet} (h : Exact cs hitting) (c : IndexSet) :
    Exact (cs ++ [c]) (extend hitting c) := by
  have hhits : ∀ s ∈ hitting.flatMap (extensions c), Hits (cs ++ [c]) s := fun s hs => by
    obtain ⟨u, hu, hs⟩ := List.mem_flatMap.1 hs
    have hu' := ((h.mem_iff u).1 hu).hits
    rw [hits_append]
    rcases mem_extensions.1 hs with ⟨hc, rfl⟩ | ⟨-, i, hi, rfl⟩
    · exact ⟨hu', hc⟩
    · exact ⟨hu'.mono fun j hj => mem_insert.2 (.inr hj), i, mem_insert.2 (.inl rfl), hi⟩
  have hbelow : ∀ s, Hits (cs ++ [c]) s → ∃ t ∈ hitting.flatMap (extensions c), t ⊆ s := by
    intro s hs
    rw [hits_append] at hs
    obtain ⟨hcs, i, hi, hic⟩ := hs
    obtain ⟨u, hus, hu⟩ := exists_minimalHitting hcs
    by_cases huc : ∃ j ∈ u, j ∈ c
    · exact ⟨u, List.mem_flatMap.2 ⟨u, (h.mem_iff u).2 hu, mem_extensions.2 (.inl ⟨huc, rfl⟩)⟩, hus⟩
    · have hdis : ∀ j ∈ u, j ∉ c := fun j hj hjc => huc ⟨j, hj, hjc⟩
      refine ⟨u.insert i, List.mem_flatMap.2 ⟨u, (h.mem_iff u).2 hu,
        mem_extensions.2 (.inr ⟨hdis, i, hic, rfl⟩)⟩, fun j hj => ?_⟩
      rcases mem_insert.1 hj with rfl | hj
      · exact hi
      · exact hus j hj
  refine ⟨nodup_minimal _, fun s => ?_⟩
  rw [HittingSets.extend, mem_minimal]
  constructor
  · rintro ⟨hs, hmin⟩
    refine ⟨hhits s hs, fun t hts ht => ?_⟩
    obtain ⟨u, hu, hut⟩ := hbelow t ht
    have hus : u = s := hmin u hu (Subset.trans hut hts)
    exact Subset.antisymm hts (hus ▸ hut)
  · intro hs
    obtain ⟨u, hu, hus⟩ := hbelow s hs.hits
    have heq : u = s := hs.minimal u hus (hhits u hu)
    exact ⟨heq ▸ hu, fun t ht hts => hs.minimal t hts (hhits t ht)⟩

theorem Exact.foldl {cs hitting : List IndexSet} (h : Exact cs hitting) (ds : List IndexSet) :
    Exact (cs ++ ds) (ds.foldl HittingSets.extend hitting) := by
  induction ds generalizing cs hitting with
  | nil => rwa [List.append_nil]
  | cons d ds ih =>
    rw [List.append_cons, List.foldl_cons]
    exact ih (h.extend d)

theorem exact_ofCollection (sets : List IndexSet) : Exact sets (ofCollection sets) :=
  exact_nil.foldl sets

/-- Neither the order of a collection matters nor how often a set is in it. -/
theorem MinimalHitting.congr {cs ds : List IndexSet} (hsame : ∀ t, t ∈ cs ↔ t ∈ ds)
    {s : IndexSet} (h : MinimalHitting cs s) : MinimalHitting ds s where
  hits := fun t ht => h.hits t ((hsame t).2 ht)
  minimal := fun t hts ht => h.minimal t hts fun u hu => ht u ((hsame u).1 hu)

/-- The hitting sets that are computed for a collection are its minimal ones, each once. A
collection of the same sets, in another order or with repetitions, has the same ones. -/
theorem ofCollection_lists_minimal (sets : List IndexSet) :
    (ofCollection sets).Nodup ∧
      (∀ s, s ∈ ofCollection sets ↔ MinimalHitting sets s) ∧
      ∀ others : List IndexSet, (∀ t, t ∈ others ↔ t ∈ sets) →
        (ofCollection others).Perm (ofCollection sets) := by
  have hsets := exact_ofCollection sets
  refine ⟨hsets.nodup, hsets.mem_iff, fun others hsame => ?_⟩
  have hothers := exact_ofCollection others
  apply (List.perm_ext_iff_of_nodup hothers.nodup hsets.nodup).2
  intro s
  rw [hothers.mem_iff, hsets.mem_iff]
  exact ⟨fun h => h.congr hsame, fun h => h.congr fun t => (hsame t).symm⟩

/-- Three sets, then the same ones in another order and one of them twice. -/
theorem ofCollection_lists_pairs :
    ofCollection [.ofList [1, 2], .ofList [2, 3], .ofList [4, 5]] =
        [.ofList [1, 3, 4], .ofList [1, 3, 5], .ofList [2, 4], .ofList [2, 5]] ∧
      (∀ t, t ∈ [.ofList [2, 3], .ofList [4, 5], .ofList [2, 3], .ofList [1, 2]] ↔
        t ∈ [IndexSet.ofList [1, 2], .ofList [2, 3], .ofList [4, 5]]) ∧
      (ofCollection [.ofList [2, 3], .ofList [4, 5], .ofList [2, 3], .ofList [1, 2]]).Perm
        (ofCollection [.ofList [1, 2], .ofList [2, 3], .ofList [4, 5]]) := by
  have hsame : ∀ t, t ∈ [.ofList [2, 3], .ofList [4, 5], .ofList [2, 3], .ofList [1, 2]] ↔
      t ∈ [IndexSet.ofList [1, 2], .ofList [2, 3], .ofList [4, 5]] := by
    intro t
    simp only [List.mem_cons, List.not_mem_nil, or_false]
    tauto
  exact ⟨by decide +kernel, hsame, (ofCollection_lists_minimal _).2.2 _ hsame⟩

end Acquisition.HittingSets
