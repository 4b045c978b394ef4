import Acquisition.Proofs.Knowledge

/-!
# The start of an acquisition

Each constraint of the bias and each known constraint is given an atom, and so is its
negation, unless it has one. What comes out is well formed, knows nothing, and has atoms
for nothing else.
-/
namespace Acquisition

open Checked IndexSet ClauseStore

variable {σ : Type} {issued : Issued σ} {s : σ} {Err : Failure → σ → Prop} {A : Arena}

/-- An entry that is added to a table is found after those that are there. -/
theorem AtomTable.literal_append {T : AtomTable} {c d : ConstraintId} {l : Literal}
    (hc : T.contains c = false) :
    AtomTable.literal ⟨T.entries ++ [(c, l)]⟩ d = if d = c then .ok l else T.literal d := by
  have hnone : T.entries.lookup c = none := by
    simpa [AtomTable.contains] using hc
  rw [AtomTable.literal, AtomTable.literal, List.lookup_append]
  by_cases hd : d = c
  · subst hd
    rw [hnone, if_pos rfl]
    simp
  · have hlast : List.lookup d [(c, l)] = none := by
      rw [List.lookup_cons, beq_false_of_ne hd]
      rfl
    rw [if_neg hd, hlast, Option.or_none]

namespace Learner

/-- A table whose constraints were handed out by the arena and whose atoms were handed out
for them. -/
structure Tabled (issued : Issued σ) (s : σ) (A : Arena) (T : AtomTable) : Prop where
  names : T.Names issued s
  registered : ∀ c l, T.literal c = .ok l → A.Registered c

theorem tabled_empty (issued : Issued σ) (s : σ) (A : Arena) : Tabled issued s A {} :=
  ⟨⟨nofun, nofun⟩, nofun⟩

/-- A table that keeps its entries and gains those of some constraints. -/
structure Gains (T T' : AtomTable) (cs : List ConstraintId) : Prop where
  keeps : ∀ d l, T.literal d = .ok l → T'.literal d = .ok l
  has : ∀ c ∈ cs, ∃ l, T'.literal c = .ok l
  only : ∀ d l, T'.literal d = .ok l → d ∈ cs ∨ T.literal d = .ok l

theorem leads_register {sat : SatBackend σ} (hsat : sat.Lawful issued Err) {T : AtomTable}
    (hT : Tabled issued s A T) {c : ConstraintId} (hc : A.Registered c) :
    (register sat A T c).Leads s
      (fun T' t => issued.Grows s t ∧ Tabled issued t A T' ∧ Gains T T' [c])
      (fun f t => issued.Grows s t ∧ Err f t) := by
  rw [register]
  split
  · next hin =>
    refine ⟨.refl issued s, hT, fun _ _ h => h, fun d hd => ?_, fun _ _ => .inr⟩
    rw [List.mem_singleton.1 hd, AtomTable.literal]
    obtain ⟨l, hl⟩ := Option.isSome_iff_exists.1 hin
    exact ⟨l, by rw [hl]⟩
  · next hout =>
    have hnot : T.contains c = false := Bool.eq_false_iff.2 hout
    obtain ⟨r, hr⟩ := hc
    have hname : A.name c = .ok r.term.name := by
      rw [Arena.name, Arena.term_eq_ok.2 ⟨r, hr, rfl⟩]
      rfl
    rw [Action.leads_bind, Action.leads_ofChecked, hname]
    refine ⟨fun n _ => ?_, nofun⟩
    rw [Action.leads_bind]
    refine (hsat.allocate c n s).mono (fun l t ⟨ht, hlc, hpos, hissued, hnew⟩ => ?_)
      fun _ _ h => h
    have hadd : T.add c l = .ok ⟨T.entries ++ [(c, l)]⟩ := by
      simp [AtomTable.add, hpos, hlc, hnot]
    have hfind := fun d => AtomTable.literal_append (d := d) (l := l) hnot
    rw [Action.leads_ofExcept, hadd]
    refine ⟨fun T' e => ?_, nofun⟩
    cases e
    have hmiss : ∀ m, T.literal c ≠ .ok m := fun m hm => by
      rw [AtomTable.literal] at hm
      split at hm
      · next m' hm' => rw [AtomTable.contains, hm'] at hnot; cases hnot
      · cases hm
    refine ⟨ht, ⟨⟨fun d m hm => ?_, fun d e m n hm hn ha => ?_⟩, fun d m hm => ?_⟩,
      fun d m hm => ?_, fun d hd => ?_, fun d m hm => ?_⟩
    · rw [hfind] at hm
      split at hm
      · next hd =>
        cases hm
        exact ⟨hpos, hlc.trans hd.symm, hd ▸ hissued⟩
      · exact (hT.names.grows ht).entry d m hm
    · rw [hfind] at hm hn
      split at hm
      · next hd =>
        cases hm
        split at hn
        · next he => exact hd.trans he.symm
        · exact absurd ha.symm (hnew _ _ (hT.names.entry e n hn).2.2)
      · split at hn
        · cases hn
          exact absurd ha (hnew _ _ (hT.names.entry d m hm).2.2)
        · exact hT.names.apart d e m n hm hn ha
    · rw [hfind] at hm
      split at hm
      · next hd => exact hd ▸ ⟨r, hr⟩
      · exact hT.registered d m hm
    · rw [hfind, if_neg]
      · exact hm
      · rintro rfl
        exact hmiss m hm
    · rw [List.mem_singleton.1 hd, hfind, if_pos rfl]
      exact ⟨l, rfl⟩
    · rw [hfind] at hm
      split at hm
      · next hd => exact .inl (List.mem_singleton.2 hd)
      · exact .inr hm

theorem leads_registerAll {sat : SatBackend σ} (hsat : sat.Lawful issued Err) {T : AtomTable}
    (hT : Tabled issued s A T) {cs : List ConstraintId} (hcs : ∀ c ∈ cs, A.Registered c) :
    (registerAll sat A T cs).Leads s
      (fun T' t => issued.Grows s t ∧ Tabled issued t A T' ∧ Gains T T' cs)
      (fun f t => issued.Grows s t ∧ Err f t) := by
  induction cs generalizing T s with
  | nil => exact ⟨.refl issued s, hT, fun _ _ h => h, nofun, fun _ _ => .inr⟩
  | cons c cs ih =>
    rw [registerAll, List.foldlM_cons, Action.leads_bind]
    refine (leads_register hsat hT (hcs c List.mem_cons_self)).mono
      (fun T' t ⟨ht, hT', hg⟩ => ?_) fun _ _ h => h
    refine (ih hT' fun d hd => hcs d (List.mem_cons_of_mem c hd)).mono
      (fun T'' u ⟨hu, hT'', hg'⟩ => ⟨ht.trans hu, hT'', fun d l hl => ?_, fun d hd => ?_,
        fun d l hl => ?_⟩) fun f u ⟨hu, hf⟩ => ⟨ht.trans hu, hf⟩
    · exact hg'.keeps d l (hg.keeps d l hl)
    · rcases List.mem_cons.1 hd with rfl | hd
      · obtain ⟨l, hl⟩ := hg.has d (List.mem_singleton_self d)
        exact ⟨l, hg'.keeps d l hl⟩
      · exact hg'.has d hd
    · rcases hg'.only d l hl with hd | hd
      · exact .inl (List.mem_cons_of_mem c hd)
      · refine (hg.only d l hd).imp (fun h => ?_) id
        rw [List.mem_singleton.1 h]
        exact List.mem_cons_self

/-- A learner that knows nothing yet of a bias without its conjunctions. -/
structure Fresh (issued : Issued σ) (A : Arena) (bias : Bias) (given : Network) (L : Learner)
    (t : σ) : Prop where
  wf : L.Wf issued t
  arena : L.arena = A
  known : L.known = given
  scope : L.bias.scope = bias.scope
  bias : ∀ c, c ∈ L.bias.constraints ↔ c ∈ bias.constraints ∧ A.conjuncts? c = .ok none
  undecided : L.undecided = L.bias
  theory : L.theory = .empty
  background : L.background = .empty
  passive : L.passive = false
  strategies : L.strategies = []
  replay : L.replay = []
  answers : L.asked = [] ∧ L.collapsing = none
  table : ∀ c l, L.atoms.literal c = .ok l →
    ∃ d, (d ∈ L.bias.constraints ∨ d ∈ given.constraints) ∧ (c = d ∨ c = Arena.twin d)

/-- The bias without its conjunctions has the same variables. -/
theorem exists_withoutConjunctions {bias : Bias} (hb : bias.network.Closed A) :
    ∃ B, withoutConjunctions A bias = .ok B ∧ B.network.Closed A ∧ B.scope = bias.scope ∧
      ∀ c, c ∈ B.constraints ↔ c ∈ bias.constraints ∧ A.conjuncts? c = .ok none := by
  have hreg : ∀ c ∈ bias.toList, A.Registered c := fun c hc => (hb c (mem_toList'.1 hc)).1
  have hpart : ∀ c, A.Registered c → ∃ r, A.conjuncts? c = .ok r := fun c hc => by
    obtain ⟨r, hr⟩ := hc
    have he : A.entry c = .ok r.entry := by rw [Arena.entry, Arena.place_eq_ok.2 hr]; rfl
    cases hentry : r.entry <;> exact ⟨_, by rw [Arena.conjuncts?, he, hentry]; rfl⟩
  cases hkept : bias.toList.filterM fun c => return (← A.conjuncts? c).isNone with
  | error e =>
    obtain ⟨c, hc, he⟩ := filterM_eq_error hkept
    obtain ⟨r, hr⟩ := hpart c (hreg c hc)
    rw [hr] at he
    cases he
  | ok kept =>
    obtain ⟨-, -, hmem⟩ := filterM_eq_ok hkept
    have hin : ∀ c, c ∈ kept ↔ c ∈ bias.constraints ∧ A.conjuncts? c = .ok none := fun c => by
      rw [hmem]
      refine and_congr mem_toList' ?_
      cases A.conjuncts? c with
      | error e => exact iff_of_false (by simp) (by simp)
      | ok r =>
        cases r with
        | none => exact iff_of_true rfl rfl
        | some ms => exact iff_of_false (by simp) (by simp)
    obtain ⟨N, hN⟩ := Network.exists_ofList bias.scope fun c hc =>
      (hb c ((hin c).1 hc).1).1
    obtain ⟨-, hcons, hscope⟩ := Network.ofList_eq_ok hN
    refine ⟨.ofNetwork N, ?_, Network.closed_ofList hN, ext_mem fun v => (hscope v).trans ?_,
      fun c => (hcons c).trans (hin c)⟩
    · rw [withoutConjunctions, hkept]
      change Bias.ofList A bias.scope kept = _
      rw [Bias.ofList, hN]
      rfl
    · refine or_iff_left_of_imp ?_
      rintro ⟨c, hc, hv⟩
      exact (hb c ((hin c).1 hc).1).2 v hv

theorem leads_start {sat : SatBackend σ} (hsat : sat.Lawful issued Err) (settings : Settings)
    (hA : A.Built) {bias : Bias} (hb : bias.network.Closed A) {given : Network}
    (hg : given.Closed A) :
    (start sat settings A bias given).Leads s
      (fun L t => issued.Grows s t ∧ Fresh issued A bias given L t)
      (fun f t => issued.Grows s t ∧ Err f t) := by
  obtain ⟨B, hB, hclosed, hscope, hmem⟩ := exists_withoutConjunctions hb
  have hreg : ∀ c ∈ B.toList, A.Registered c := fun c hc => (hclosed c (mem_toList'.1 hc)).1
  have hone : ∀ c ∈ B.toList, atomsDue A B c =
      .ok (if B.contains (Arena.twin c) then [c] else [c, Arena.twin c]) := fun c hc => by
    rw [atomsDue, (hreg c hc).negation]
    rfl
  have htwo : ∀ c ∈ given.toList, bothSigns A c = .ok [c, Arena.twin c] := fun c hc => by
    rw [bothSigns, (hg c (mem_toList'.1 hc)).1.negation]
    rfl
  obtain ⟨due, hdue⟩ := exists_mapM (atomsDue A B) fun c hc => ⟨_, hone c hc⟩
  obtain ⟨more, hmore⟩ := exists_mapM (bothSigns A) fun c hc => ⟨_, htwo c hc⟩
  have hatoms : ∀ c, c ∈ due.flatten ++ more.flatten → ∃ d,
      (d ∈ B.constraints ∨ d ∈ given.constraints) ∧ (c = d ∨ c = Arena.twin d) := by
    intro c hc
    rcases List.mem_append.1 hc with hc | hc
    · obtain ⟨cs, hcs, hc⟩ := List.mem_flatten.1 hc
      obtain ⟨d, hd, hdc⟩ := (mem_of_mapM hdue).1 hcs
      rw [hone d hd] at hdc
      cases hdc
      refine ⟨d, .inl (mem_toList'.1 hd), ?_⟩
      split at hc
      · exact .inl (List.mem_singleton.1 hc)
      · exact List.mem_pair.1 hc
    · obtain ⟨cs, hcs, hc⟩ := List.mem_flatten.1 hc
      obtain ⟨d, hd, hdc⟩ := (mem_of_mapM hmore).1 hcs
      rw [htwo d hd] at hdc
      cases hdc
      exact ⟨d, .inr (mem_toList'.1 hd), List.mem_pair.1 hc⟩
  have hself : ∀ c ∈ B.constraints, c ∈ due.flatten := fun c hc => by
    refine List.mem_flatten.2 ⟨_, (mem_of_mapM hdue).2 ⟨c, mem_toList'.2 hc, hone c
      (mem_toList'.2 hc)⟩, ?_⟩
    split <;> exact List.mem_cons_self
  have htwin : ∀ c ∈ B.constraints, Arena.twin c ∈ due.flatten := fun c hc => by
    by_cases hin : B.contains (Arena.twin c) = true
    · exact hself _ hin
    · refine List.mem_flatten.2 ⟨_, (mem_of_mapM hdue).2 ⟨c, mem_toList'.2 hc, hone c
        (mem_toList'.2 hc)⟩, ?_⟩
      rw [if_neg hin]
      exact List.mem_cons_of_mem _ (List.mem_singleton_self _)
  have hall : ∀ c ∈ due.flatten ++ more.flatten, A.Registered c := fun c hc => by
    obtain ⟨d, hd, h⟩ := hatoms c hc
    have hd' : A.Registered d := hd.elim (fun h => (hclosed d h).1) fun h => (hg d h).1
    rcases h with rfl | rfl
    · exact hd'
    · exact hA.paired.registered_twin hd'
  rw [start, Action.leads_bind, Action.leads_ofChecked, hB]
  refine ⟨fun B' e => ?_, nofun⟩
  cases e
  rw [Action.leads_bind, Action.leads_ofChecked, hdue]
  refine ⟨fun due' e => ?_, nofun⟩
  cases e
  rw [Action.leads_bind, Action.leads_ofChecked, hmore]
  refine ⟨fun more' e => ?_, nofun⟩
  cases e
  rw [Action.leads_bind]
  refine (leads_registerAll hsat (tabled_empty issued s A) hall).mono
    (fun T t ⟨ht, hT, hgains⟩ => ⟨ht, ?_, rfl, rfl, hscope, hmem, rfl, rfl, rfl, rfl, rfl, rfl,
      ⟨rfl, rfl⟩, fun c l hl => ?_⟩) fun _ _ h => h
  · have hhas : ∀ c ∈ due.flatten, ∃ l, T.literal c = .ok l := fun c hc =>
      hgains.has c (List.mem_append_left _ hc)
    refine ⟨hA, hclosed, hg, hT.names, fun c hc => ⟨hhas c (hself c hc), hhas _ (htwin c hc)⟩,
      hT.registered, Subset.refl _, ⟨valid_empty, nofun, nofun, nofun⟩, nofun, valid_empty⟩
  · rcases hgains.only c l hl with hc | hc
    · exact hatoms c hc
    · cases hc

end Learner

end Acquisition
