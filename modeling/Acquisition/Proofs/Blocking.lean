import Acquisition.Proofs.Growing

/-!
# What the map of a search rules out

Each clause of the map rules something out: a later seed has a constraint outside a subset
that was found, or lacks one of a set that was refused. The sets refused are those met on
the way and those given beforehand, and it matters for nothing but the end of the search
whether these cannot hold. What is told here holds for any sets that may be refused, and
a search is followed through its seeds with whatever is known of the map.
-/
namespace Acquisition

open Checked IndexSet

theorem AtomTable.Assigns.mono {σ : Type} {issued : Issued σ} {t : σ} {b b' : IndexSet}
    {T : AtomTable} (h : T.Assigns issued t b') (hb : b ⊆ b') : T.Assigns issued t b where
  literal := fun c hc => h.literal c (hb c hc)
  apart := fun c hc d hd => h.apart c (hb c hc) d (hb d hd)

namespace MapSearch

variable {σ : Type} {issued : Issued σ} {A : Arena} {dom : Ranges} {T : AtomTable}
  {Err : Failure → σ → Prop} {st : σ}

/-- The clause offers each constraint of a set. -/
def Offers (T : AtomTable) (s : IndexSet) (d : Clause) : Prop :=
  ∀ l, l ∈ d.literals ↔ ∃ c ∈ s, T.literal c = .ok l

/-- The clause refuses each constraint of a set. -/
def Refuses (T : AtomTable) (s : IndexSet) (d : Clause) : Prop :=
  ∀ l, l ∈ d.literals ↔ ∃ c ∈ s, T.literal c = .ok l.negate

theorem exists_literals {b s : IndexSet} (hT : T.Assigns issued st b) (hs : s ⊆ b) :
    ∃ ls, s.toList.mapM T.literal = .ok ls ∧ ∀ l, l ∈ ls ↔ ∃ c ∈ s, T.literal c = .ok l := by
  obtain ⟨ls, hls⟩ := exists_mapM T.literal fun c (hc : c ∈ s.toList) => by
    obtain ⟨l, hl, -⟩ := hT.literal c (hs c (mem_toList'.1 hc))
    exact ⟨l, hl⟩
  refine ⟨ls, hls, fun l => ?_⟩
  rw [mem_of_mapM hls]
  simp only [mem_toList']

theorem blockDown_spec {M : MapSearch} (hT : T.Assigns issued st M.bias) (s : IndexSet) :
    ∃ d, M.blockDown T s = .ok { M with map := M.map.adding d } ∧ Offers T (M.bias.diff s) d := by
  obtain ⟨ls, hls, hmem⟩ := exists_literals hT (s := M.bias.diff s) fun c hc => (mem_diff.1 hc).1
  refine ⟨.ofList ls, by rw [blockDown, hls]; rfl, fun l => ?_⟩
  rw [Clause.mem_ofList, hmem]

theorem blockUp_spec {M : MapSearch} (hT : T.Assigns issued st M.bias) {s : IndexSet}
    (hs : s ⊆ M.bias) :
    ∃ d, M.blockUp T s = .ok { M with map := M.map.adding d } ∧ Refuses T s d := by
  obtain ⟨ls, hls, hmem⟩ := exists_literals hT hs
  refine ⟨.ofList (ls.map .negate), by rw [blockUp, hls]; rfl, fun l => ?_⟩
  rw [Clause.mem_ofList, List.mem_map, ← hmem]
  constructor
  · rintro ⟨m, hm, rfl⟩
    rwa [Literal.negate_negate]
  · exact fun hl => ⟨l.negate, hl, Literal.negate_negate l⟩

/-- The map has a clause for each subset found, all of which are maximal, and every other
clause refuses a set that may be refused. -/
structure Blocks (T : AtomTable) (Sat R : IndexSet → Prop) (b : IndexSet)
    (found : List IndexSet) (M : MapSearch) : Prop where
  valid : M.map.Valid
  clauses : ∀ d ∈ M.map.clauses,
    (∃ s ∈ found, Offers T (b.diff s) d) ∨ ∃ u, R u ∧ Refuses T u d
  down : ∀ s ∈ found, ∃ d ∈ M.map.clauses, Offers T (b.diff s) d
  maximal : ∀ s ∈ found, Maximal Sat b s
  nodup : found.Nodup

namespace Blocks

variable {Sat R : IndexSet → Prop} {b b' : IndexSet} {found : List IndexSet} {M : MapSearch}
  {t : σ}

theorem same (h : Blocks T Sat R b found M) {M' : MapSearch} (hmap : M'.map = M.map) :
    Blocks T Sat R b found M' :=
  ⟨hmap ▸ h.valid, by rw [hmap]; exact h.clauses, by rw [hmap]; exact h.down, h.maximal, h.nodup⟩

section Atoms

variable (hb : b ⊆ b') (hR : ∀ u, R u → u ⊆ b') (hT : T.Assigns issued t b')
include hb hR

/-- Every literal of the map is that of a constraint with an atom, up to sign. -/
theorem exists_constraint (h : Blocks T Sat R b found M) {d : Clause} (hd : d ∈ M.map.clauses)
    {l : Literal} (hl : l ∈ d.literals) :
    ∃ c ∈ b', T.literal c = .ok l ∨ T.literal c = .ok l.negate := by
  rcases h.clauses d hd with ⟨s, -, hoff⟩ | ⟨u, hu, href⟩
  · obtain ⟨c, hc, hcl⟩ := (hoff l).1 hl
    exact ⟨c, hb c (mem_diff.1 hc).1, .inl hcl⟩
  · obtain ⟨c, hc, hcl⟩ := (href l).1 hl
    exact ⟨c, hR u hu c hc, .inr hcl⟩

include hT

theorem known_map (h : Blocks T Sat R b found M) : M.map.Known issued t := fun d hd l hl => by
  obtain ⟨c, hc, hcl⟩ := h.exists_constraint hb hR hd hl
  obtain ⟨m, hm, -, hmc, hi⟩ := hT.literal c hc
  have hsame : l.atom = m.atom ∧ l.constraint = m.constraint := by
    rcases hcl with hcl | hcl
    · rw [Except.ok.inj (hm.symm.trans hcl)]
      exact ⟨rfl, rfl⟩
    · rw [Except.ok.inj (hm.symm.trans hcl)]
      exact ⟨rfl, rfl⟩
  rw [hsame.1, hsame.2, hmc]
  exact hi

/-- Without a model, every subset of the bias lies in one that was found or contains one that
may be refused. -/
theorem decided (h : Blocks T Sat R b found M) (hnone : M.map.Answered none) {s : IndexSet}
    (hs : s ⊆ b) : (∃ u ∈ found, s ⊆ u) ∨ ∃ u, R u ∧ u ⊆ s := by
  classical
  let v : Atom → Bool := fun a => decide (∃ c ∈ s, ∃ l, T.literal c = .ok l ∧ l.atom = a)
  have htrue : ∀ c ∈ b', ∀ l, T.literal c = .ok l → (v l.atom = true ↔ c ∈ s) := by
    intro c hc l hl
    rw [decide_eq_true_iff]
    constructor
    · rintro ⟨d, hd, m, hm, hatom⟩
      rwa [← hT.apart d (hb d (hs d hd)) c hc m l hm hl hatom]
    · exact fun hcs => ⟨c, hcs, l, hl, rfl⟩
  have hfails := hnone v
  rw [ClauseStore.Holds] at hfails
  push Not at hfails
  obtain ⟨d, hd, hno⟩ := hfails
  rcases h.clauses d hd with ⟨u, hu, hoff⟩ | ⟨u, hu, href⟩
  · refine .inl ⟨u, hu, fun c hc => ?_⟩
    by_contra hcu
    have hcb := hb c (hs c hc)
    obtain ⟨l, hl, hn, -, -⟩ := hT.literal c hcb
    refine hno ⟨l, (hoff l).2 ⟨c, mem_diff.2 ⟨hs c hc, hcu⟩, hl⟩, ?_⟩
    rw [Literal.Holds, hn]
    exact (htrue c hcb l hl).2 hc
  · refine .inr ⟨u, hu, fun c hc => ?_⟩
    have hcb := hR u hu c hc
    obtain ⟨l, hl, hn, -, -⟩ := hT.literal c hcb
    by_contra hcs
    refine hno ⟨l.negate, (href _).2 ⟨c, hc, by rw [Literal.negate_negate, hl]⟩, ?_⟩
    rw [Literal.holds_negate, Literal.Holds, hn]
    exact mt (htrue c hcb l hl).1 hcs

end Atoms

/-- The subset read off a model lies in no subset found. -/
theorem seed_new (h : Blocks T Sat R b found M) (hT : T.Assigns issued t b) {m : Model}
    (hm : M.map.Answered (some m)) {s : IndexSet} (hs : s ∈ found) :
    ¬ ofList (m.filter b.contains) ⊆ s := by
  intro hsub
  obtain ⟨v, hv, hmem⟩ := hm
  obtain ⟨d, hd, hoff⟩ := h.down s hs
  obtain ⟨l, hl, hlv⟩ := hv d hd
  obtain ⟨c, hc, hcl⟩ := (hoff l).1 hl
  obtain ⟨hcb, hcs⟩ := mem_diff.1 hc
  obtain ⟨l', hl', hn, hlc, -⟩ := hT.literal c hcb
  rw [hcl] at hl'
  cases hl'
  rw [Literal.Holds, hn] at hlv
  apply hcs
  apply hsub c
  rw [mem_ofList, List.mem_filter, contains_iff]
  exact ⟨(hmem c).2 ⟨d, hd, l, hl, hlc, hlv⟩, hcb⟩

theorem adding_found (h : Blocks T Sat R b found M) {s : IndexSet} {d : Clause}
    (hs : Maximal Sat b s) (hnew : s ∉ found) (hd : Offers T (b.diff s) d) :
    Blocks T Sat R b (found ++ [s]) { M with map := M.map.adding d } where
  valid := h.valid.adding d
  clauses := fun e he => by
    rcases ClauseStore.mem_of_mem_adding h.valid he with rfl | he
    · exact .inl ⟨s, by simp, hd⟩
    · refine (h.clauses e he).imp (fun ⟨u, hu, hoff⟩ => ⟨u, ?_, hoff⟩) id
      exact List.mem_append_left _ hu
  down := fun u hu => by
    rcases List.mem_append.1 hu with hu | hu
    · obtain ⟨e, he, hoff⟩ := h.down u hu
      exact ⟨e, ClauseStore.mem_adding_of_mem h.valid d he, hoff⟩
    · obtain ⟨e, he, hl⟩ := ClauseStore.exists_adding h.valid d
      refine ⟨e, he, fun l => ?_⟩
      rw [hl, List.mem_singleton.1 hu]
      exact hd l
  maximal := fun u hu => by
    rcases List.mem_append.1 hu with hu | hu
    · exact h.maximal u hu
    · exact List.mem_singleton.1 hu ▸ hs
  nodup := h.nodup.append (List.nodup_singleton s) fun u hu hu' =>
    hnew (List.mem_singleton.1 hu' ▸ hu)

theorem adding_refused (h : Blocks T Sat R b found M) {s : IndexSet} {d : Clause} (hs : R s)
    (hd : Refuses T s d) (muses : List IndexSet) :
    Blocks T Sat R b found { M with map := M.map.adding d, muses := muses } where
  valid := h.valid.adding d
  clauses := fun e he => by
    rcases ClauseStore.mem_of_mem_adding h.valid he with rfl | he
    · exact .inr ⟨s, hs, hd⟩
    · exact h.clauses e he
  down := fun u hu => by
    obtain ⟨e, he, hoff⟩ := h.down u hu
    exact ⟨e, ClauseStore.mem_adding_of_mem h.valid d he, hoff⟩
  maximal := h.maximal
  nodup := h.nodup

end Blocks

/-! ### From seed to seed -/

variable {cp : CpBackend σ} {sat : SatBackend σ} {I : σ → Prop} {K : MapSearch → Prop}
  {M : MapSearch}

/-- What is known of a search goes on from seed to seed: the map can be put to the backend,
and a set that is met may be refused. -/
structure Carries (issued : Issued σ) (A : Arena) (dom : Ranges) (T : AtomTable)
    (sat : SatBackend σ) (I : σ → Prop) (Err : Failure → σ → Prop) (K : MapSearch → Prop) :
    Prop where
  framed : ∀ M, K M → M.Framed A
  assigns : ∀ M t, K M → I t → T.Assigns issued t M.bias
  solve : ∀ M t, K M → I t → (sat.solveStore M.map).Leads t
    (fun r t' => I t' ∧ M.map.Answered r) (fun f t' => I t' ∧ Err f t')
  refuse : ∀ M t m s d, K M → I t → M.map.Answered (some m) →
    s ⊆ ofList (m.filter M.bias.contains) → Minimal (M.base.Admits A dom) M.bias s →
    Refuses T s d → K { M with map := M.map.adding d, muses := M.muses ++ [s] }

/-- Two ways to know of a search go on side by side. -/
theorem Carries.or {K' : MapSearch → Prop} (h : Carries issued A dom T sat I Err K)
    (h' : Carries issued A dom T sat I Err K') :
    Carries issued A dom T sat I Err fun M => K M ∨ K' M where
  framed := fun M hM => hM.elim (h.framed M) (h'.framed M)
  assigns := fun M t hM hI => hM.elim (h.assigns M t · hI) (h'.assigns M t · hI)
  solve := fun M t hM hI => hM.elim (h.solve M t · hI) (h'.solve M t · hI)
  refuse := fun M t m s d hM hI hm hs hmin hd =>
    hM.imp (h.refuse M t m s d · hI hm hs hmin hd) (h'.refuse M t m s d · hI hm hs hmin hd)

/-- What a search comes to: its map has no model, or a seed grew to a maximal subset with a
witness, which the map rules out from then on. -/
inductive Reaches (A : Arena) (dom : Ranges) (T : AtomTable) (K : MapSearch → Prop) :
    Option MaximalSubset → MapSearch → Prop
  | ended {M : MapSearch} : K M → M.map.Answered none → Reaches A dom T K none
      { M with exhausted := true }
  | found {M : MapSearch} {m : Model} {F : MaximalSubset} {d : Clause} :
      K M → M.map.Answered (some m) → ofList (m.filter M.bias.contains) ⊆ F.subset →
      Maximal (M.base.Admits A dom) M.bias F.subset → M.base.Supports A dom F.witness F.subset →
      Offers T (M.bias.diff F.subset) d →
      Reaches A dom T K (some F) { M with map := M.map.adding d }

/-- A search takes seeds up to the first that has a witness. -/
theorem leads_seeds (hK : Carries issued A dom T sat I Err K) (hA : A.Built)
    (hcp : cp.Answers I dom Err) (fuel : Nat) (h : K M) (hI : I st) :
    (explore A T sat cp fuel).Leads (M, st)
      (fun r p => I p.2 ∧ Reaches A dom T K r p.1)
      (fun f p => I p.2 ∧ K p.1 ∧ (p.1.Fails A dom I Err f p.2 ∨
        (f = .outOfFuel ∧ p.1.muses.length = M.muses.length + fuel))) := by
  induction fuel generalizing M st with
  | zero => exact ⟨hI, h, .inr ⟨rfl, rfl⟩⟩
  | succ fuel ih =>
    simp only [explore, Action.leads_bind, Procedure.leads_callWith, Limit.leads_poll]
    refine ⟨fun _ => ?_, fun hpassed => ⟨hI, h, .inl ⟨hI, .inl ⟨rfl, hpassed⟩⟩⟩⟩
    refine (hK.solve M st h hI).mono (fun r t hsolved => ?_)
      fun f t hf => ⟨hf.1, h, .inl ⟨hf.1, .inr (.inl hf.2)⟩⟩
    obtain ⟨hI, hr⟩ := hsolved
    cases r with
    | none =>
      simp only [Action.leads_bind, Procedure.leads_update, Action.leads_pure]
      exact ⟨hI, .ended h hr⟩
    | some m =>
      have hM := hK.framed M h
      have hseed : ofList (m.filter M.bias.contains) ⊆ M.bias := fun c hc =>
        (List.mem_filter.1 (mem_ofList.1 hc)).2
      simp only [Action.leads_bind, Procedure.leads_own, Procedure.leads_call]
      have hwit := Network.leads_witness hcp hA hM.closed (hM.spans.mono hseed) hI
      rw [Action.leads_bind] at hwit
      refine hwit.mono (fun N t' hN => hN.mono (fun r t hfound => ?_)
        fun f t hf => ⟨hf.1, h, .inl ⟨hf.1, .inr (.inl hf.2)⟩⟩)
        fun f t hf => ⟨hf.1, h, .inl ⟨hf.1, .inr (.inl hf.2)⟩⟩
      obtain ⟨hI, hanswer⟩ := hfound
      cases r with
      | some q =>
        simp only [Action.leads_bind, Procedure.leads_call]
        refine (leads_grow hcp hA hM hseed hanswer hI).mono (fun F t hgrown => ?_)
          fun f t hf => ⟨hf.1, h, .inl hf⟩
        obtain ⟨hI, hmax, hsub, hsup⟩ := hgrown
        obtain ⟨d, hd, hoff⟩ := blockDown_spec (hK.assigns M t h hI) F.subset
        simp only [hd, Action.leads_ofForeseen, Procedure.leads_update, Action.leads_pure]
        refine ⟨fun M' hM' => ?_, by simp⟩
        cases hM'
        exact ⟨hI, .found h hr hsub hmax hsup hoff⟩
      | none =>
        simp only [Action.leads_bind, Procedure.leads_call]
        refine (leads_shrink hcp hA hM hseed hanswer hI).mono (fun s t hshrunk => ?_)
          fun f t hf => ⟨hf.1, h, .inl hf⟩
        obtain ⟨hI, hsub, hun, hall⟩ := hshrunk
        have hsb := Subset.trans hsub hseed
        obtain ⟨d, hd, href⟩ := blockUp_spec (hK.assigns M t h hI) hsb
        simp only [hd, Action.leads_ofForeseen, Procedure.leads_update]
        refine ⟨fun M' hM' => ?_, by simp⟩
        cases hM'
        have hmin : Minimal (M.base.Admits A dom) M.bias s :=
          .of_erase (Network.hereditary_admits _) hsb hun fun c hc =>
            hall c (mem_toList'.2 (hsub c hc)) hc
        apply (ih (hK.refuse M t m s d h hI hr hsub hmin href) hI).mono fun _ _ h => h
        rintro f p ⟨hI, hKp, hf⟩
        refine ⟨hI, hKp, hf.imp id ?_⟩
        rintro ⟨hout, hlength⟩
        simp only [List.length_append, List.length_singleton] at hlength
        exact ⟨hout, by omega⟩

/-- The first call of a search looks into its base, and it ends there if the base is
inconsistent. -/
theorem leads_next_seeds (hK : Carries issued A dom T sat I Err K) (hA : A.Built)
    (hcp : cp.Answers I dom Err) (fuel : Nat) (h : K M) (hstarted : K { M with started := true })
    (hex : M.exhausted = false) (hI : I st) :
    (next? A T sat cp fuel).Leads (M, st)
      (fun r p => I p.2 ∧ (Reaches A dom T K r p.1 ∨
        (r = none ∧ ¬ M.base.Satisfiable A dom ∧
          p.1 = { M with started := true, exhausted := true })))
      (fun f p => I p.2 ∧ K p.1 ∧ (p.1.Fails A dom I Err f p.2 ∨
        (f = .outOfFuel ∧ p.1.muses.length = M.muses.length + fuel))) := by
  have hexplore : ∀ t M', K M' → M'.muses = M.muses → I t →
      (explore A T sat cp fuel).Leads (M', t)
      (fun r p => I p.2 ∧ (Reaches A dom T K r p.1 ∨
        (r = none ∧ ¬ M.base.Satisfiable A dom ∧
          p.1 = { M with started := true, exhausted := true })))
      (fun f p => I p.2 ∧ K p.1 ∧ (p.1.Fails A dom I Err f p.2 ∨
        (f = .outOfFuel ∧ p.1.muses.length = M.muses.length + fuel))) :=
    fun t M' hM' hmuses ht => hmuses ▸ (leads_seeds hK hA hcp fuel hM' ht).mono
      (fun _ _ hr => ⟨hr.1, .inl hr.2⟩) fun _ _ hf => hf
  cases hst : M.started with
  | true =>
    simp only [next?, consistentBase, Action.leads_bind, Procedure.leads_own, hex, hst,
      Bool.false_eq_true, if_false, if_true, Action.leads_pure]
    exact hexplore st M h rfl hI
  | false =>
    simp only [next?, consistentBase, Action.leads_bind, Procedure.leads_own, hex, hst,
      Bool.false_eq_true, if_false, Procedure.leads_update, Procedure.leads_callWith]
    apply (hcp.satisfiable hA (hK.framed M h).closed hI).mono
    · rintro consistent t ⟨hI, hr⟩
      cases consistent with
      | true =>
        simp only [if_true, Action.leads_pure]
        have hbegun := hexplore t _ hstarted rfl hI
        rwa [hex] at hbegun
      | false =>
        have hno : ¬ M.base.Satisfiable A dom := fun h => Bool.noConfusion (hr.2 h)
        exact ⟨hI, .inr ⟨rfl, hno, rfl⟩⟩
    · rintro f t ⟨hI, hf⟩
      have hbegun : K { M with started := true } := hstarted
      rw [hex] at hbegun
      exact ⟨hI, hbegun, .inl ⟨hI, .inr (.inl hf)⟩⟩

end MapSearch

end Acquisition
