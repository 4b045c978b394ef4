import Acquisition.Proofs.Exhaustive
import Acquisition.Proofs.Blocking

/-!
# The search by a map is exact

The clauses of the map are one for each maximal subset found, and one for each
contradiction met or known beforehand. So a model of the map is a subset of the bias
of which nothing is known yet, and when there is none every subset lies in one that
was found or contains a contradiction.
-/
namespace Acquisition.MapSearch

open Checked IndexSet

variable {σ : Type} {A : Arena} {dom : Ranges} {cp : CpBackend σ} {I : σ → Prop}
  {Err : Failure → σ → Prop} {st : σ}

/-- How far a search has come: a clause of the map for each maximal subset found, for
each minimal subset met and for each contradiction known beforehand, and no others. -/
structure Explored (T : AtomTable) (Sat : IndexSet → Prop) (b : IndexSet)
    (given found : List IndexSet) (M : MapSearch) : Prop where
  valid : M.map.Valid
  clauses : ∀ d ∈ M.map.clauses,
    (∃ s ∈ found, Offers T (b.diff s) d) ∨ ∃ s ∈ given ++ M.muses, Refuses T s d
  down : ∀ s ∈ found, ∃ d ∈ M.map.clauses, Offers T (b.diff s) d
  up : ∀ s ∈ given ++ M.muses, ∃ d ∈ M.map.clauses, Refuses T s d
  maximal : ∀ s ∈ found, Maximal Sat b s
  minimal : ∀ s ∈ M.muses, Minimal Sat b s
  refuted : ∀ s ∈ given, s ⊆ b ∧ ¬ Sat s
  nodup_found : found.Nodup
  nodup_muses : M.muses.Nodup
  fresh : ∀ s ∈ M.muses, s ∉ given

namespace Explored

variable {T : AtomTable} {Sat : IndexSet → Prop} {b : IndexSet} {given found : List IndexSet}
  {M : MapSearch} {issued : Issued σ}

/-- How far a search has come is told by its map and by what it met. -/
theorem same (h : Explored T Sat b given found M) {M' : MapSearch} (hmap : M'.map = M.map)
    (hmuses : M'.muses = M.muses) : Explored T Sat b given found M' := by
  constructor
  · exact hmap ▸ h.valid
  · rw [hmap, hmuses]
    exact h.clauses
  · rw [hmap]
    exact h.down
  · rw [hmap, hmuses]
    exact h.up
  · exact h.maximal
  · exact hmuses ▸ h.minimal
  · exact h.refuted
  · exact h.nodup_found
  · exact hmuses ▸ h.nodup_muses
  · exact hmuses ▸ h.fresh

theorem unsat (h : Explored T Sat b given found M) {s : IndexSet} (hs : s ∈ given ++ M.muses) :
    s ⊆ b ∧ ¬ Sat s := by
  rcases List.mem_append.1 hs with hs | hs
  · exact h.refuted s hs
  · exact ⟨(h.minimal s hs).subset, (h.minimal s hs).unsat⟩

theorem blocks (h : Explored T Sat b given found M) :
    Blocks T Sat (· ∈ given ++ M.muses) b found M where
  valid := h.valid
  clauses := fun d hd => (h.clauses d hd).imp id fun ⟨u, hu, href⟩ => ⟨u, hu, href⟩
  down := h.down
  maximal := h.maximal
  nodup := h.nodup_found

theorem refused_subset (h : Explored T Sat b given found M) {u : IndexSet}
    (hu : u ∈ given ++ M.muses) : u ⊆ b := (h.unsat hu).1

theorem known_map (h : Explored T Sat b given found M) {t : σ} (hT : T.Assigns issued t b) :
    M.map.Known issued t :=
  h.blocks.known_map (Subset.refl b) (fun _ hu => h.refused_subset hu) hT

/-- The subset read off a model lies in no subset found, and contains no contradiction. -/
theorem seed_spec (h : Explored T Sat b given found M) {t : σ} (hT : T.Assigns issued t b)
    {m : Model} (hm : M.map.Answered (some m)) :
    (∀ s ∈ found, ¬ ofList (m.filter b.contains) ⊆ s) ∧
      ∀ s ∈ given ++ M.muses, ¬ s ⊆ ofList (m.filter b.contains) := by
  refine ⟨fun s hs => h.blocks.seed_new hT hm hs, fun s hs hsub => ?_⟩
  obtain ⟨v, hv, hmem⟩ := hm
  obtain ⟨d, hd, href⟩ := h.up s hs
  obtain ⟨l, hl, hlv⟩ := hv d hd
  obtain ⟨c, hc, hcl⟩ := (href l).1 hl
  obtain ⟨hcm, hcb⟩ := List.mem_filter.1 (mem_ofList.1 (hsub c hc))
  obtain ⟨l', hl', hn, hlc, -⟩ := hT.literal c (contains_iff.1 hcb)
  rw [hcl] at hl'
  cases hl'
  -- The atom of `c` is false here, and true where the model took `c` from.
  have hfalse : v l.atom = false := by
    have hn' : (!l.negated) = false := hn
    rw [Literal.Holds, hn'] at hlv
    exact hlv
  obtain ⟨d', hd', l', hl', hlc', htrue⟩ := (hmem c).1 hcm
  obtain ⟨c', hc', hcl'⟩ := h.blocks.exists_constraint (Subset.refl b)
    (fun _ hu => h.refused_subset hu) hd' hl'
  obtain ⟨k, hk, -, hkc, -⟩ := hT.literal c' hc'
  have hkl : k.constraint = l'.constraint ∧ k.atom = l'.atom := by
    rcases hcl' with hcl' | hcl'
    · rw [Except.ok.inj (hk.symm.trans hcl')]
      exact ⟨rfl, rfl⟩
    · rw [Except.ok.inj (hk.symm.trans hcl')]
      exact ⟨rfl, rfl⟩
  have hcc : c' = c := by rw [← hkc, hkl.1, hlc']
  rw [hcc, hcl] at hk
  cases hk
  have hatom : l.atom = l'.atom := hkl.2
  rw [hatom, htrue] at hfalse
  cases hfalse

/-- Without a model, every subset of the bias was decided. -/
theorem decided (h : Explored T Sat b given found M) {t : σ} (hT : T.Assigns issued t b)
    (hnone : M.map.Answered none) {s : IndexSet} (hs : s ⊆ b) :
    (∃ u ∈ found, s ⊆ u) ∨ ∃ u ∈ given ++ M.muses, u ⊆ s :=
  h.blocks.decided (Subset.refl b) (fun _ hu => h.refused_subset hu) hT hnone hs

/-- The subsets found and met are different subsets of the bias. -/
theorem length_le (h : Explored T Sat b given found M) :
    found.length + M.muses.length ≤ 2 ^ b.size := by
  have hnd : (found ++ M.muses).Nodup := h.nodup_found.append h.nodup_muses fun u hu hu' =>
    (h.minimal u hu').unsat (h.maximal u hu).sat
  have hle := length_le_two_pow (s := b) hnd fun u hu => by
    rcases List.mem_append.1 hu with hu | hu
    · exact (h.maximal u hu).subset
    · exact (h.minimal u hu).subset
  rwa [List.length_append] at hle

theorem adding_found (h : Explored T Sat b given found M) {s : IndexSet} {d : Clause}
    (hs : Maximal Sat b s) (hnew : s ∉ found) (hd : Offers T (b.diff s) d) :
    Explored T Sat b given (found ++ [s]) { M with map := M.map.adding d } :=
  have hblocks := h.blocks.adding_found hs hnew hd
  { valid := hblocks.valid
    clauses := fun e he => (hblocks.clauses e he).imp id fun ⟨u, hu, href⟩ => ⟨u, hu, href⟩
    down := hblocks.down
    up := fun u hu => by
      obtain ⟨e, he, href⟩ := h.up u hu
      exact ⟨e, ClauseStore.mem_adding_of_mem h.valid d he, href⟩
    maximal := hblocks.maximal
    minimal := h.minimal
    refuted := h.refuted
    nodup_found := hblocks.nodup
    nodup_muses := h.nodup_muses
    fresh := h.fresh }

theorem adding_mus (h : Explored T Sat b given found M) {s : IndexSet} {d : Clause}
    (hs : Minimal Sat b s) (hnew : s ∉ given ++ M.muses) (hd : Refuses T s d) :
    Explored T Sat b given found { M with map := M.map.adding d, muses := M.muses ++ [s] } where
  valid := h.valid.adding d
  clauses := fun e he => by
    rcases ClauseStore.mem_of_mem_adding h.valid he with rfl | he
    · exact .inr ⟨s, by simp, hd⟩
    · refine (h.clauses e he).imp id fun ⟨u, hu, href⟩ => ⟨u, ?_, href⟩
      rw [← List.append_assoc]
      exact List.mem_append_left _ hu
  down := fun u hu => by
    obtain ⟨e, he, hoff⟩ := h.down u hu
    exact ⟨e, ClauseStore.mem_adding_of_mem h.valid d he, hoff⟩
  up := fun u hu => by
    rw [← List.append_assoc] at hu
    rcases List.mem_append.1 hu with hu | hu
    · obtain ⟨e, he, href⟩ := h.up u hu
      exact ⟨e, ClauseStore.mem_adding_of_mem h.valid d he, href⟩
    · obtain ⟨e, he, hl⟩ := ClauseStore.exists_adding h.valid d
      refine ⟨e, he, fun l => ?_⟩
      rw [hl, List.mem_singleton.1 hu]
      exact hd l
  maximal := h.maximal
  minimal := fun u hu => by
    rcases List.mem_append.1 hu with hu | hu
    · exact h.minimal u hu
    · exact List.mem_singleton.1 hu ▸ hs
  refuted := h.refuted
  nodup_found := h.nodup_found
  nodup_muses := h.nodup_muses.append (List.nodup_singleton s) fun u hu hu' =>
    hnew (List.mem_append_right _ (List.mem_singleton.1 hu' ▸ hu))
  fresh := fun u hu => by
    rcases List.mem_append.1 hu with hu | hu
    · exact h.fresh u hu
    · rw [List.mem_singleton.1 hu]
      exact fun hk => hnew (List.mem_append_left _ hk)

end Explored

/-- What a search never changes once it has begun. -/
structure Continues (M M' : MapSearch) : Prop where
  bias : M'.bias = M.bias
  base : M'.base = M.base
  deadline : M'.deadline = M.deadline
  started : M'.started = M.started
  muses : M.muses <+: M'.muses

theorem Continues.refl (M : MapSearch) : M.Continues M := ⟨rfl, rfl, rfl, rfl, List.prefix_rfl⟩

/-- Every subset of the bias lies in one that was found, or contains one that cannot
hold. -/
def Decided (b : IndexSet) (given found : List IndexSet) (M : MapSearch) : Prop :=
  ∀ s, s ⊆ b → (∃ u ∈ found, s ⊆ u) ∨ ∃ u ∈ given ++ M.muses, u ⊆ s

/-- How far a search has come after a step, where nothing more is found only if all
is decided. -/
def Advanced (A : Arena) (dom : Ranges) (T : AtomTable) (given found : List IndexSet)
    (M : MapSearch) : Option MaximalSubset → MapSearch → Prop
  | none, M' => Explored T (M.base.Admits A dom) M.bias given found M' ∧ M'.exhausted = true ∧
      Decided M.bias given found M'
  | some F, M' => Explored T (M.base.Admits A dom) M.bias given (found ++ [F.subset]) M' ∧
      M'.exhausted = false ∧ M.base.Supports A dom F.witness F.subset

/-- A search on its way to the next maximal subset. -/
structure Pursues (A : Arena) (dom : Ranges) (T : AtomTable) (given found : List IndexSet)
    (M M' : MapSearch) : Prop where
  continues : M.Continues M'
  explored : Explored T (M.base.Admits A dom) M.bias given found M'
  goes : M'.exhausted = false

/-- How far a search has come is known from seed to seed. -/
theorem pursues_carries {T : AtomTable} {issued : Issued σ} {sat : SatBackend σ}
    (hsat : sat.Lawful issued Err) (dom : Ranges) (given found : List IndexSet) {M : MapSearch}
    (hM : M.Framed A) :
    Carries issued A dom T sat (T.Assigns issued · M.bias) Err
      (Pursues A dom T given found M) where
  framed := fun M' ⟨hc, _, _⟩ =>
    ⟨hc.base ▸ hM.closed, by rw [hc.base, hc.bias]; exact hM.spans⟩
  assigns := fun M' t ⟨hc, _, _⟩ hI => by rwa [hc.bias]
  solve := fun M' t ⟨_, hexp, _⟩ hI => (hsat.solves.solveStore (hexp.known_map hI)).mono
    (fun _ _ ⟨hg, hr⟩ => ⟨hI.grows hg, hr⟩) fun _ _ ⟨hg, hf⟩ => ⟨hI.grows hg, hf⟩
  refuse := by
    rintro M' t m s d ⟨hc, hexp, hex⟩ hI hm hsub hmin href
    rw [hc.bias] at hsub hmin
    rw [hc.base] at hmin
    have hmuses : M'.muses <+: M'.muses ++ [s] := List.prefix_append _ _
    refine ⟨⟨hc.bias, hc.base, hc.deadline, hc.started, hc.muses.trans hmuses⟩, ?_, hex⟩
    exact hexp.adding_mus hmin (fun hmem => (hexp.seed_spec hI hm).2 s hmem hsub) href

theorem leads_explore {T : AtomTable} {issued : Issued σ} {sat : SatBackend σ}
    (hsat : sat.Lawful issued Err) (hA : A.Built) {given found : List IndexSet} (fuel : Nat)
    {M : MapSearch} (hcp : cp.Answers (T.Assigns issued · M.bias) dom Err) (hM : M.Framed A)
    (h : Explored T (M.base.Admits A dom) M.bias given found M) (hex : M.exhausted = false)
    (hI : T.Assigns issued st M.bias) :
    (explore A T sat cp fuel).Leads (M, st)
      (fun r p => M.Continues p.1 ∧ T.Assigns issued p.2 M.bias ∧
        Advanced A dom T given found M r p.1)
      (fun f p => M.Continues p.1 ∧ Explored T (M.base.Admits A dom) M.bias given found p.1 ∧
        (M.Fails A dom (T.Assigns issued · M.bias) Err f p.2 ∨
          (f = .outOfFuel ∧ fuel + found.length + M.muses.length ≤ 2 ^ M.bias.size))) := by
  have hcarries := pursues_carries (T := T) hsat dom given found hM
  apply (leads_seeds hcarries hA hcp fuel ⟨.refl M, h, hex⟩ hI).mono
  · rintro r ⟨M', t⟩ ⟨hI, hr⟩
    cases hr with
    | ended hK hnone =>
      obtain ⟨hc, hexp, -⟩ := hK
      refine ⟨⟨hc.bias, hc.base, hc.deadline, hc.started, hc.muses⟩, hI, hexp.same rfl rfl, rfl, ?_⟩
      exact fun s hs => hexp.decided hI hnone hs
    | found hK hm hsub hmax hsup hoff =>
      obtain ⟨hc, hexp, hex⟩ := hK
      rw [hc.bias] at hsub hmax hoff
      rw [hc.base] at hmax hsup
      refine ⟨⟨hc.bias, hc.base, hc.deadline, hc.started, hc.muses⟩, hI, ?_, hex, hsup⟩
      exact hexp.adding_found hmax (fun hmem => (hexp.seed_spec hI hm).1 _ hmem hsub) hoff
  · rintro f p ⟨hI, ⟨hc, hexp, -⟩, hf⟩
    refine ⟨hc, hexp, ?_⟩
    rcases hf with ⟨-, hf⟩ | ⟨hf, hlength⟩
    · rw [hc.base, hc.bias, hc.deadline] at hf
      exact .inl ⟨hI, hf⟩
    · have hle := hexp.length_le
      exact .inr ⟨hf, by omega⟩

/-- Whether nothing more is found is told by a search that has begun on a consistent
base. -/
theorem leads_next {T : AtomTable} {issued : Issued σ} {sat : SatBackend σ}
    (hsat : sat.Lawful issued Err) (hA : A.Built) {given found : List IndexSet} {fuel : Nat}
    {M : MapSearch} (hcp : cp.Answers (T.Assigns issued · M.bias) dom Err) (hM : M.Framed A)
    (h : Explored T (M.base.Admits A dom) M.bias given found M) (hex : M.exhausted = false)
    (hst : M.started = true)
    (hfuel : 2 ^ M.bias.size < fuel + found.length + M.muses.length)
    (hI : T.Assigns issued st M.bias) :
    (next? A T sat cp fuel).Leads (M, st)
      (fun r p => M.Continues p.1 ∧ T.Assigns issued p.2 M.bias ∧
        Advanced A dom T given found M r p.1)
      (fun f p => M.Continues p.1 ∧ Explored T (M.base.Admits A dom) M.bias given found p.1 ∧
        M.Fails A dom (T.Assigns issued · M.bias) Err f p.2) := by
  simp only [next?, consistentBase, Action.leads_bind, Procedure.leads_own, hex, hst,
    Bool.false_eq_true, if_false, if_true, Action.leads_pure]
  apply (leads_explore hsat hA fuel hcp hM h hex hI).mono (fun _ _ h => h)
  intro f p hfails
  obtain ⟨hc, hexp, hf⟩ := hfails
  refine ⟨hc, hexp, ?_⟩
  rcases hf with hf | ⟨-, hle⟩
  · exact hf
  · omega

/-- A call of a search, the first one or a later one. Either the base is inconsistent, or
the search advances. A call that fails leaves what was found as it is. -/
theorem leads_step {T : AtomTable} {issued : Issued σ} {sat : SatBackend σ}
    (hsat : sat.Lawful issued Err) (hA : A.Built) {given found : List IndexSet} (fuel : Nat)
    {M : MapSearch} (hcp : cp.Answers (T.Assigns issued · M.bias) dom Err) (hM : M.Framed A)
    (h : Explored T (M.base.Admits A dom) M.bias given found M) (hex : M.exhausted = false)
    (hI : T.Assigns issued st M.bias) :
    (next? A T sat cp fuel).Leads (M, st)
      (fun r p => p.1.bias = M.bias ∧ p.1.base = M.base ∧ T.Assigns issued p.2 M.bias ∧
        (Advanced A dom T given found M r p.1 ∨
          (r = none ∧ ¬ M.base.Satisfiable A dom ∧
            Explored T (M.base.Admits A dom) M.bias given found p.1)))
      (fun f p => p.1.bias = M.bias ∧ p.1.base = M.base ∧ T.Assigns issued p.2 M.bias ∧
        Explored T (M.base.Admits A dom) M.bias given found p.1 ∧ p.1.exhausted = false ∧
        (p.1.Fails A dom (T.Assigns issued · M.bias) Err f p.2 ∨
          (f = .outOfFuel ∧ fuel ≤ 2 ^ M.bias.size))) := by
  have hcarries := (pursues_carries (T := T) hsat dom given found hM).or
    (pursues_carries (M := { M with started := true }) hsat dom given found ⟨hM.closed, hM.spans⟩)
  have hkept : ∀ {M' : MapSearch}, (Pursues A dom T given found M M' ∨
      Pursues A dom T given found { M with started := true } M') →
      M'.bias = M.bias ∧ M'.base = M.base ∧
        Explored T (M.base.Admits A dom) M.bias given found M' ∧ M'.exhausted = false := by
    rintro M' (⟨hc, hexp, hex⟩ | ⟨hc, hexp, hex⟩)
    · exact ⟨hc.bias, hc.base, hexp, hex⟩
    · exact ⟨hc.bias, hc.base, hexp, hex⟩
  apply (leads_next_seeds hcarries hA hcp fuel (.inl ⟨.refl M, h, hex⟩)
    (.inr ⟨.refl _, h.same rfl rfl, hex⟩) hex hI).mono
  · rintro r ⟨M', t⟩ ⟨hI, hr | ⟨rfl, hno, rfl⟩⟩
    · cases hr with
      | ended hK hnone =>
        obtain ⟨hb, hbase, hexp, -⟩ := hkept hK
        exact ⟨hb, hbase, hI, .inl ⟨hexp.same rfl rfl, rfl, fun s hs => hexp.decided hI hnone hs⟩⟩
      | found hK hm hsub hmax hsup hoff =>
        obtain ⟨hb, hbase, hexp, hex⟩ := hkept hK
        rw [hb] at hsub hmax hoff
        rw [hbase] at hmax hsup
        have hnew := fun hmem => (hexp.seed_spec hI hm).1 _ hmem hsub
        exact ⟨hb, hbase, hI, .inl ⟨hexp.adding_found hmax hnew hoff, hex, hsup⟩⟩
    · exact ⟨rfl, rfl, hI, .inr ⟨rfl, hno, h.same rfl rfl⟩⟩
  · rintro f ⟨M', t⟩ ⟨hI, hK, hf⟩
    obtain ⟨hb, hbase, hexp, hex⟩ := hkept hK
    refine ⟨hb, hbase, hI, hexp, hex, hf.imp id ?_⟩
    rintro ⟨hout, hlength⟩
    have hle : found.length + M'.muses.length ≤ 2 ^ M.bias.size := hexp.length_le
    have hspent : M'.muses.length = M.muses.length + fuel := hlength
    exact ⟨hout, by omega⟩

/-- Every maximal subset that is still to be found, one call after the other. -/
def all (A : Arena) (T : AtomTable) (sat : SatBackend σ) (cp : CpBackend σ) :
    Nat → Procedure MapSearch σ (List MaximalSubset)
  | 0 => throw .outOfFuel
  | fuel + 1 => do
    match ← next? A T sat cp fuel with
    | none => return []
    | some F => return F :: (← all A T sat cp fuel)

/-- What has been found in the end, and what was met on the way. -/
structure Completed (A : Arena) (dom : Ranges) (T : AtomTable) (given found : List IndexSet)
    (M : MapSearch) (xs : List MaximalSubset) (M' : MapSearch) : Prop where
  explored : Explored T (M.base.Admits A dom) M.bias given (found ++ xs.map (·.subset)) M'
  decided : Decided M.bias given (found ++ xs.map (·.subset)) M'
  supported : ∀ F ∈ xs, M.base.Supports A dom F.witness F.subset

theorem leads_all {T : AtomTable} {issued : Issued σ} {sat : SatBackend σ}
    (hsat : sat.Lawful issued Err) (hA : A.Built) {given found : List IndexSet} (fuel : Nat)
    {M : MapSearch} (hcp : cp.Answers (T.Assigns issued · M.bias) dom Err) (hM : M.Framed A)
    (h : Explored T (M.base.Admits A dom) M.bias given found M) (hex : M.exhausted = false)
    (hst : M.started = true)
    (hfuel : 2 ^ M.bias.size + 1 < fuel + found.length + M.muses.length)
    (hI : T.Assigns issued st M.bias) :
    (all A T sat cp fuel).Leads (M, st)
      (fun xs p => Completed A dom T given found M xs p.1)
      (fun f p => M.Fails A dom (T.Assigns issued · M.bias) Err f p.2) := by
  induction fuel generalizing M st found with
  | zero =>
    have := h.length_le
    omega
  | succ fuel ih =>
    rw [all]
    have hnext : 2 ^ M.bias.size < fuel + found.length + M.muses.length := by omega
    refine (leads_next hsat hA hcp hM h hex hst hnext hI).bind
      (fun r p ⟨hc, hI, hadv⟩ => ?_) fun f p ⟨_, _, hf⟩ => hf
    obtain ⟨M', t⟩ := p
    cases r with
    | none =>
      obtain ⟨hexp, -, hdec⟩ := hadv
      exact ⟨by simpa using hexp, by simpa using hdec, nofun⟩
    | some F =>
      obtain ⟨hexp, hex', hsup⟩ := hadv
      rw [Action.leads_bind]
      have hlen := hc.muses.length_le
      obtain ⟨hb, hbase, hdl, hst', -⟩ := hc
      simp only at hb hbase hdl hst' hex' hexp hI hlen
      have hexp' : Explored T (M'.base.Admits A dom) M'.bias given (found ++ [F.subset]) M' := by
        rwa [hb, hbase]
      refine (ih (by rwa [hb]) ⟨hbase ▸ hM.closed, by rw [hb, hbase]; exact hM.spans⟩ hexp' hex'
        (hst'.trans hst) (by rw [hb, List.length_append, List.length_singleton]; omega)
        (by rwa [hb])).mono (fun xs p hxs => ?_) fun f p hf => ?_
      · obtain ⟨hexp, hdec, hall⟩ := hxs
        rw [hb, hbase] at hexp
        rw [hb] at hdec
        rw [hbase] at hall
        rw [Action.leads_pure]
        refine ⟨by simpa using hexp, by simpa using hdec, fun G hG => ?_⟩
        rcases List.mem_cons.1 hG with rfl | hG
        · exact hsup
        · exact hall G hG
      · simpa only [Fails, hb, hbase, hdl] using hf

/-- The first call of a search looks into its base. -/
theorem leads_all_fresh {T : AtomTable} {sat : SatBackend σ} {fuel : Nat} {M : MapSearch}
    (hst : M.started = false) (hex : M.exhausted = false)
    {Q : List MaximalSubset → MapSearch × σ → Prop}
    {E : Failure → MapSearch × σ → Prop}
    (h : (cp.satisfiable A M.base).Leads st
      (fun r t =>
        (r = true → (all A T sat cp (fuel + 1)).Leads ({ M with started := true }, t) Q E) ∧
        (r = false → Q [] ({ M with started := true, exhausted := true }, t)))
      (fun f t => E f ({ M with started := true }, t))) :
    (all A T sat cp (fuel + 1)).Leads (M, st) Q E := by
  obtain ⟨bias, base, map, growth, deadline, muses, started, exhausted⟩ := M
  cases hst
  cases hex
  rw [all]
  simp only [next?, consistentBase, Action.leads_bind, Procedure.leads_own,
    Bool.false_eq_true, if_false, Procedure.leads_update, Procedure.leads_callWith]
  refine h.mono (fun r t hr => ?_) fun _ _ h => h
  obtain ⟨hyes, hno⟩ := hr
  cases r with
  | true =>
    have h' := hyes rfl
    rw [all] at h'
    simp only [next?, consistentBase, Action.leads_bind, Procedure.leads_own,
      Bool.false_eq_true, if_false, if_true, Action.leads_pure] at h'
    simpa using h'
  | false => simpa using hno rfl

theorem record_spec {T : AtomTable} {Ns : List Network} {S K : ClauseStore} (hS : S.Valid)
    (h : Ns.foldlM (Contradiction.record T) S = .ok K) :
    K.Valid ∧
      (∀ d ∈ K.clauses, d ∈ S.clauses ∨ ∃ N ∈ Ns, Refuses T N.constraints d) ∧
      (∀ d ∈ S.clauses, d ∈ K.clauses) ∧
      ∀ N ∈ Ns, ∃ d ∈ K.clauses, Refuses T N.constraints d := by
  induction Ns generalizing S with
  | nil =>
    cases h
    exact ⟨hS, fun d hd => .inl hd, fun d hd => hd, nofun⟩
  | cons N Ns ih =>
    rw [List.foldlM_cons, bind_eq_ok] at h
    obtain ⟨S', hS', h⟩ := h
    obtain ⟨d, rfl, -, -, hd⟩ := Contradiction.record_eq_ok hS'
    obtain ⟨hK, hfrom, hkeep, hall⟩ := ih (hS.adding d) h
    refine ⟨hK, fun e he => ?_, fun e he => hkeep e (ClauseStore.mem_adding_of_mem hS d he),
      fun M hM => ?_⟩
    · rcases hfrom e he with he | ⟨M, hM, href⟩
      · rcases ClauseStore.mem_of_mem_adding hS he with rfl | he
        · exact .inr ⟨N, List.mem_cons_self, hd⟩
        · exact .inl he
      · exact .inr ⟨M, List.mem_cons_of_mem _ hM, href⟩
    · rcases List.mem_cons.1 hM with rfl | hM
      · obtain ⟨e, he, hl⟩ := ClauseStore.exists_adding hS d
        refine ⟨e, hkeep e he, fun l => ?_⟩
        rw [hl]
        exact hd l
      · exact hall M hM

/-- A search that has not begun knows of the contradictions given to it. -/
theorem explored_exclude {T : AtomTable} {bias base known : Network} {growth : Growth}
    {deadline : Limit} {Ns : List Network} {K : ClauseStore} {Sat : IndexSet → Prop}
    (hNs : ∀ N ∈ Ns, N.constraints ⊆ bias.constraints.diff base.constraints ∧
      ¬ Sat N.constraints)
    (hK : Ns.foldlM (Contradiction.record T) ClauseStore.empty = .ok K) :
    Explored T Sat (bias.constraints.diff base.constraints) (Ns.map (·.constraints)) []
      ((start bias base known growth deadline).exclude K) := by
  obtain ⟨-, hfrom, -, hall⟩ := record_spec ClauseStore.valid_empty hK
  refine ⟨ClauseStore.valid_empty.concat K, fun d hd => .inr ?_, nofun, fun s hs => ?_, nofun,
    nofun, fun s hs => ?_, .nil, .nil, nofun⟩
  · rcases ClauseStore.mem_of_mem_concat ClauseStore.valid_empty hd with hd | hd
    · rcases hfrom d hd with hd | ⟨N, hN, href⟩
      · cases hd
      · exact ⟨N.constraints, List.mem_append_left _ (List.mem_map_of_mem hN), href⟩
    · cases hd
  · have hs' : s ∈ Ns.map (·.constraints) ++ [] := hs
    rw [List.append_nil] at hs'
    obtain ⟨N, hN, rfl⟩ := List.mem_map.1 hs'
    obtain ⟨d, hd, href⟩ := hall N hN
    obtain ⟨e, he, hl⟩ := ClauseStore.exists_concat ClauseStore.valid_empty (.inl hd)
    refine ⟨e, he, fun l => ?_⟩
    rw [hl]
    exact href l
  · obtain ⟨N, hN, rfl⟩ := List.mem_map.1 hs
    exact hNs N hN

/-- Once all is decided, what was found and met is what there is. -/
theorem Explored.exact {T : AtomTable} {Sat : IndexSet → Prop} {b : IndexSet}
    {given found : List IndexSet} {M : MapSearch} (h : Explored T Sat b given found M)
    (hSat : Hereditary Sat) (hdec : Decided b given found M) :
    (∀ s, s ∈ found ↔ Maximal Sat b s) ∧ ∀ s, s ∈ M.muses ↔ Minimal Sat b s ∧ s ∉ given := by
  refine ⟨fun s => ⟨h.maximal s, fun hs => ?_⟩, fun s => ⟨fun hs => ⟨h.minimal s hs, h.fresh s hs⟩,
    fun ⟨hs, hnot⟩ => ?_⟩⟩
  · rcases hdec s hs.subset with ⟨u, hu, hsu⟩ | ⟨u, hu, hus⟩
    · rwa [← hs.eq_of_subset (h.maximal u hu) hsu]
    · exact absurd (hSat u s hus hs.sat) (h.unsat hu).2
  · rcases hdec s hs.subset with ⟨u, hu, hsu⟩ | ⟨u, hu, hus⟩
    · exact absurd (hSat s u hsu (h.maximal u hu).sat) hs.unsat
    · have hus' : u = s := hs.minimal u hus (h.unsat hu).2
      subst hus'
      exact (List.mem_append.1 hu).resolve_left hnot

/-- A search by a map is exact, whatever contradictions it was given, as long as no
sum leaves its word. It ends after as many calls as there are subsets of the bias,
and one or two more. -/
theorem enumerates_exactly {sat : SatBackend σ} {issued : Issued σ}
    (hsat : sat.Lawful issued fun _ _ => False) (hcp : cp.Lawful dom fun _ _ => False)
    (hkeeps : cp.Keeps issued) (hA : A.Built) {bias base known : Network} (hbias : bias.Closed A)
    (hbase : base.Closed A) (hknown : known.Closed A) (growth : Growth) {T : AtomTable}
    (hT : T.Assigns issued st (bias.constraints.diff base.constraints)) {given : List Network}
    (hgiven : ∀ N ∈ given, N.constraints ⊆ bias.constraints.diff base.constraints ∧
      ¬ (((Network.ofScope bias.scope).union base).union known).Admits A dom N.constraints)
    {K : ClauseStore} (hK : given.foldlM (Contradiction.record T) ClauseStore.empty = .ok K)
    {fuel : Nat} (hfuel : 2 ^ (bias.constraints.diff base.constraints).size + 1 < fuel) :
    let b := bias.constraints.diff base.constraints
    let whole := ((Network.ofScope bias.scope).union base).union known
    (all A T sat cp fuel).Leads ((start bias base known growth .unbounded).exclude K, st)
      (fun xs p =>
        (¬ whole.Satisfiable A dom → xs = [] ∧ p.1.muses = []) ∧
        (whole.Satisfiable A dom →
          (xs.map (·.subset)).Nodup ∧
          (∀ s, s ∈ xs.map (·.subset) ↔ Maximal (whole.Admits A dom) b s) ∧
          (∀ F ∈ xs, whole.Supports A dom F.witness F.subset) ∧
          p.1.muses.Nodup ∧
          ∀ s, s ∈ p.1.muses ↔ Minimal (whole.Admits A dom) b s ∧ s ∉ given.map (·.constraints)))
      (fun f _ => f = .fault .overflow ∧ whole.Overflows A dom b) := by
  intro b whole
  have hM : ((start bias base known growth .unbounded).exclude K).Framed A := by
    refine ⟨((Network.closed_ofScope A _).union hbase).union hknown, fun c hc => ?_⟩
    obtain ⟨hreg, hvars⟩ := hbias c (mem_diff.1 hc).1
    refine ⟨hreg, fun v hv => mem_union.2 (.inl (mem_union.2 (.inl (hvars v hv))))⟩
  have hexp : Explored T (whole.Admits A dom) b (given.map (·.constraints)) []
      ((start bias base known growth .unbounded).exclude K) := explored_exclude hgiven hK
  have hcp' : cp.Answers (T.Assigns issued · b) dom fun _ _ => False :=
    hcp.answers_keeping hkeeps fun _ _ h hg => h.grows hg
  have hfail : ∀ (f : Failure) (t : σ),
      Fails A dom (T.Assigns issued · b) (fun _ _ => False)
        ((start bias base known growth .unbounded).exclude K) f t →
      f = .fault .overflow ∧ whole.Overflows A dom b := by
    rintro f t ⟨-, ⟨-, hpassed⟩ | hno | hover⟩
    · cases hpassed
    · exact hno.elim
    · exact hover
  obtain ⟨fuel, rfl⟩ := Nat.exists_eq_succ_of_ne_zero (Nat.ne_of_gt (Nat.zero_lt_of_lt hfuel))
  refine leads_all_fresh rfl rfl ?_
  refine (hcp'.satisfiable hA hM.closed hT).mono (fun r t ⟨hI, hr⟩ => ⟨fun hyes => ?_,
    fun hno => ?_⟩) fun f t ⟨_, hf⟩ => hf.elim
  · have hsat' : whole.Satisfiable A dom := hr.1 hyes
    have hexp' : Explored T (whole.Admits A dom) b (given.map (·.constraints)) []
        { (start bias base known growth .unbounded).exclude K with started := true } :=
      hexp.same rfl rfl
    refine (leads_all hsat hA (fuel + 1)
      (M := { (start bias base known growth .unbounded).exclude K with started := true }) hcp'
      ⟨hM.closed, hM.spans⟩ hexp' rfl rfl hfuel hI).mono
      (fun xs p hxs => ⟨fun hno => absurd hsat' hno, fun _ => ?_⟩) fun f p hf => hfail f p.2 hf
    obtain ⟨hmax, hmin⟩ := hxs.explored.exact (Network.hereditary_admits _) hxs.decided
    exact ⟨hxs.explored.nodup_found, hmax, hxs.supported, hxs.explored.nodup_muses, hmin⟩
  · have hno' : ¬ whole.Satisfiable A dom := fun h => absurd (hr.2 h) (by simp [hno])
    exact ⟨fun _ => ⟨rfl, rfl⟩, fun h => absurd h hno'⟩

open Exhaustive in
/-- Of a constraint and its negation, known to conflict, the maximal subsets are found and
no minimal one is recorded again. -/
theorem enumerates_clash :
    let whole := ((Network.ofScope clash.scope).union {}).union {}
    ∃ K, [clash].foldlM (Contradiction.record table) ClauseStore.empty = .ok K ∧
      (all sample table Exhaustive.sat (Exhaustive.cp bits) 6).Leads
        ((start clash {} {} .witness .unbounded).exclude K, [0, 1])
        (fun xs p =>
          (xs.map (·.subset)).Nodup ∧
          (∀ s, s ∈ xs.map (·.subset) ↔
            Maximal (whole.Admits sample bits.Allows) clash.constraints s) ∧
          clash.constraints ∉ p.1.muses)
        (fun f _ =>
          f = .fault .overflow ∧ whole.Overflows sample bits.Allows clash.constraints) := by
  have hb : clash.constraints.diff IndexSet.empty = clash.constraints :=
    ext_mem fun c => by simp
  have hgiven : ∀ N ∈ [clash], N.constraints ⊆ clash.constraints.diff IndexSet.empty ∧
      ¬ (((Network.ofScope clash.scope).union {}).union {}).Admits sample bits.Allows
        N.constraints := fun N hN => by
    rw [List.mem_singleton.1 hN]
    exact ⟨fun c hc => mem_diff.2 ⟨hc, mem_empty' c⟩, not_admits_clash _ _⟩
  have hfuel : 2 ^ (clash.constraints.diff IndexSet.empty).size + 1 < 6 := by decide +kernel
  refine ⟨_, rfl, ?_⟩
  refine (enumerates_exactly (sat_lawful _) (cp_lawful bits _) (cp_keeps bits) built_sample
    closed_clash (closed_nothing _) (closed_nothing _) .witness
      (assigns_table fun c hc => (mem_diff.1 hc).1)
    hgiven rfl hfuel).mono (fun xs p h => ?_) fun f p h => ?_
  · obtain ⟨hnd, hmax, -, -, hmus⟩ := h.2 satisfiable_scope
    refine ⟨hnd, fun s => (hmax s).trans (by rw [← hb]; rfl), fun hmem => ?_⟩
    exact ((hmus _).1 hmem).2 (List.mem_singleton.2 rfl)
  · exact ⟨h.1, hb ▸ h.2⟩

end Acquisition.MapSearch
