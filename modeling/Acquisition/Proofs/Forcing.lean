import Acquisition.Sat.Search
import Acquisition.Proofs.Clauses
import Mathlib.Data.Finset.Card

/-!
# What an assignment forces

An assignment stands for the valuations that give each settled atom its value. A step of
propagation settles open atoms and loses no valuation that satisfies the problem, and it
reports a conflict only if there is none to lose. Rounds go on while they settle something,
so there are no more of them than atoms, and in the end nothing is forced any more.
-/
namespace Acquisition.Sat

namespace Assignment

variable {m : Assignment} {v : Atom → Bool} {l : Literal}

/-- The valuation gives each settled atom its value. -/
def Agrees (m : Assignment) (v : Atom → Bool) : Prop := ∀ a b, m.value a = some b → v a = b

/-- The valuation that makes the open atoms false. -/
def truth (m : Assignment) (a : Atom) : Bool := m.value a == some true

theorem agrees_truth (m : Assignment) : m.Agrees m.truth := by
  intro a b h
  rw [truth, h]
  cases b <;> rfl

theorem agrees_allOpen (n : Nat) (v : Atom → Bool) : (allOpen n).Agrees v := by
  intro a b h
  by_cases ha : a < n
  · simp [allOpen, value, Array.getD_eq_getD_getElem?, ha] at h
  · simp [allOpen, value, Array.getD_eq_getD_getElem?, ha] at h

theorem Agrees.holds (h : m.Agrees v) (hl : m.holds l = true) : l.Holds v := by
  unfold Assignment.holds at hl
  split at hl
  · next b hb =>
    rw [Literal.Holds, h _ b hb]
    cases b <;> cases hn : l.negated <;> simp_all
  · cases hl

theorem Agrees.fails (h : m.Agrees v) (hl : m.holds l = false) (hopen : m.isOpen l = false) :
    ¬ l.Holds v := by
  unfold Assignment.holds at hl
  unfold isOpen at hopen
  split at hl
  · next b hb =>
    rw [Literal.Holds, h _ b hb]
    cases b <;> cases hn : l.negated <;> simp_all
  · next hb =>
    rw [hb] at hopen
    cases hopen

/-- A literal whose atom is settled holds just if the valuation says so. -/
theorem Agrees.holds_iff (h : m.Agrees v) (hl : (m.value l.atom).isSome) :
    m.holds l = true ↔ l.Holds v := by
  constructor
  · exact h.holds
  · intro hv
    by_contra hno
    apply h.fails (Bool.eq_false_iff.2 hno) _ hv
    unfold isOpen
    cases hb : m.value l.atom with
    | none => simp [hb] at hl
    | some b => rfl

theorem agrees_assign (h : m.Agrees v) {a : Atom} (ha : a < m.values.size) {b : Bool}
    (hv : v a = b) : (m.assign a b).Agrees v := by
  intro a' b' h'
  rw [value_assign ha] at h'
  split at h'
  · next haa =>
    cases h'
    rw [← haa, hv]
  · exact h a' b' h'

theorem agrees_satisfy (h : m.Agrees v) (ha : l.atom < m.values.size) (hl : l.Holds v) :
    (m.satisfy l).Agrees v := agrees_assign h ha hl

@[simp] theorem size_assign (m : Assignment) (a : Atom) (b : Bool) :
    (m.assign a b).values.size = m.values.size := by
  simp [assign]

@[simp] theorem size_satisfy (m : Assignment) (l : Literal) :
    (m.satisfy l).values.size = m.values.size := size_assign ..

/-- The atoms that are open. -/
def openAtoms (m : Assignment) : Finset Nat :=
  (Finset.range m.values.size).filter fun a => m.value a = none

theorem mem_openAtoms {a : Atom} :
    a ∈ m.openAtoms ↔ a < m.values.size ∧ m.value a = none := by
  rw [openAtoms, Finset.mem_filter, Finset.mem_range]

/-- How many atoms are open. -/
def opens (m : Assignment) : Nat := m.openAtoms.card

theorem opens_le (m : Assignment) : m.opens ≤ m.values.size := by
  have h := Finset.card_filter_le (Finset.range m.values.size) fun a => m.value a = none
  rwa [Finset.card_range] at h

/-- The second assignment settles all that the first one does, of as many atoms. -/
structure Grows (m m' : Assignment) : Prop where
  size : m'.values.size = m.values.size
  value : ∀ a b, m.value a = some b → m'.value a = some b

theorem Grows.refl (m : Assignment) : m.Grows m := ⟨rfl, fun _ _ h => h⟩

theorem Grows.trans {m' m'' : Assignment} (h : m.Grows m') (h' : m'.Grows m'') : m.Grows m'' :=
  ⟨h'.size.trans h.size, fun a b hb => h'.value a b (h.value a b hb)⟩

theorem Grows.isSome {m' : Assignment} (h : m.Grows m') {a : Atom} (ha : (m.value a).isSome) :
    (m'.value a).isSome := by
  obtain ⟨b, hb⟩ := Option.isSome_iff_exists.1 ha
  rw [h.value a b hb]
  rfl

theorem Grows.agrees {m' : Assignment} (h : m.Grows m') (hv : m'.Agrees v) : m.Agrees v :=
  fun a b hb => hv a b (h.value a b hb)

theorem Grows.openAtoms_subset {m' : Assignment} (h : m.Grows m') :
    m'.openAtoms ⊆ m.openAtoms := by
  intro a ha
  rw [mem_openAtoms] at ha ⊢
  refine ⟨h.size ▸ ha.1, ?_⟩
  by_contra hsome
  have hsome' := h.isSome (Option.isSome_iff_ne_none.2 hsome)
  rw [ha.2] at hsome'
  cases hsome'

theorem Grows.opens_le {m' : Assignment} (h : m.Grows m') : m'.opens ≤ m.opens :=
  Finset.card_le_card h.openAtoms_subset

/-- An atom that is settled on the way is one open atom less. -/
theorem Grows.opens_lt {m' : Assignment} (h : m.Grows m') {a : Atom} (ha : a < m.values.size)
    (hopen : m.value a = none) (hsome : (m'.value a).isSome) : m'.opens < m.opens := by
  apply Finset.card_lt_card
  rw [Finset.ssubset_iff_of_subset h.openAtoms_subset]
  refine ⟨a, mem_openAtoms.2 ⟨ha, hopen⟩, ?_⟩
  intro ha'
  rw [(mem_openAtoms.1 ha').2] at hsome
  cases hsome

theorem grows_assign {a : Atom} (ha : a < m.values.size) (hopen : m.value a = none) (b : Bool) :
    m.Grows (m.assign a b) := by
  refine ⟨size_assign m a b, ?_⟩
  intro a' b' h
  rw [value_assign ha]
  split
  · next haa =>
    rw [← haa, hopen] at h
    cases h
  · exact h

/-! ### Several literals -/

@[simp] theorem size_foldl_satisfy (ls : List Literal) (m : Assignment) :
    (ls.foldl satisfy m).values.size = m.values.size := by
  induction ls generalizing m with
  | nil => rfl
  | cons l ls ih => rw [List.foldl_cons, ih, size_satisfy]

theorem agrees_foldl_satisfy {ls : List Literal} (h : m.Agrees v)
    (hls : ∀ l ∈ ls, l.atom < m.values.size ∧ l.Holds v) : (ls.foldl satisfy m).Agrees v := by
  induction ls generalizing m with
  | nil => exact h
  | cons l ls ih =>
    obtain ⟨⟨hl, hholds⟩, hrest⟩ := List.forall_mem_cons.1 hls
    apply ih (agrees_satisfy h hl hholds)
    simpa only [size_satisfy] using hrest

theorem value_foldl_satisfy_of_not_mem {ls : List Literal} {a : Atom}
    (hls : ∀ l ∈ ls, l.atom < m.values.size) (ha : ∀ l ∈ ls, l.atom ≠ a) :
    (ls.foldl satisfy m).value a = m.value a := by
  induction ls generalizing m with
  | nil => rfl
  | cons l ls ih =>
    obtain ⟨hl, hrest⟩ := List.forall_mem_cons.1 hls
    obtain ⟨hla, ha'⟩ := List.forall_mem_cons.1 ha
    rw [List.foldl_cons, ih (by simpa only [size_satisfy] using hrest) ha', satisfy,
      value_assign hl, if_neg hla]

theorem isSome_foldl_satisfy {ls : List Literal} {a : Atom}
    (hls : ∀ l ∈ ls, l.atom < m.values.size)
    (ha : (m.value a).isSome ∨ ∃ l ∈ ls, l.atom = a) : ((ls.foldl satisfy m).value a).isSome := by
  induction ls generalizing m with
  | nil => simpa using ha
  | cons l ls ih =>
    obtain ⟨hl, hrest⟩ := List.forall_mem_cons.1 hls
    apply ih (by simpa only [size_satisfy] using hrest)
    rw [satisfy, value_assign hl]
    by_cases hla : l.atom = a
    · rw [if_pos hla]
      exact .inl rfl
    · rw [if_neg hla]
      simpa [hla] using ha

theorem grows_foldl_satisfy {ls : List Literal}
    (hls : ∀ l ∈ ls, l.atom < m.values.size ∧ m.value l.atom = none) :
    m.Grows (ls.foldl satisfy m) := by
  refine ⟨size_foldl_satisfy ls m, ?_⟩
  intro a b h
  rw [value_foldl_satisfy_of_not_mem (fun l hl => (hls l hl).1), h]
  rintro l hl rfl
  rw [(hls l hl).2] at h
  cases h

end Assignment

namespace Problem

open Assignment

variable {P : Problem} {m : Assignment} {v : Atom → Bool}

/-- The valuation makes a literal of each clause true, and as many of the window's as it
asks for. -/
structure Satisfied (P : Problem) (v : Atom → Bool) : Prop where
  clauses : ∀ ls ∈ P.clauses, ∃ l ∈ ls, l.Holds v
  window : ∀ w, P.window = some w → w.Holds v

/-- An extension loses no valuation of `S` that agrees with the assignment, and settles an
open atom if it changes anything. -/
def Extension.Sound (S : (Atom → Bool) → Prop) (m : Assignment) : Extension → Prop
  | .conflict => ∀ v, S v → ¬ m.Agrees v
  | .reached m' changed => m.Grows m' ∧ (∀ v, S v → m.Agrees v → m'.Agrees v) ∧
      if changed = true then m'.opens < m.opens else m' = m

theorem Extension.sound_refl (S : (Atom → Bool) → Prop) (m : Assignment) :
    (Extension.reached m false).Sound S m := ⟨.refl m, fun _ _ h => h, rfl⟩

/-- An extension after another one. -/
def Extension.after (changed : Bool) : Extension → Extension
  | .conflict => .conflict
  | .reached m changed' => .reached m (changed || changed')

theorem Extension.Sound.after {S : (Atom → Bool) → Prop} {m' : Assignment} {changed : Bool}
    {e : Extension} (h : (Extension.reached m' changed).Sound S m) (he : e.Sound S m') :
    (e.after changed).Sound S m := by
  obtain ⟨hgrows, hagrees, hchanged⟩ := h
  cases e with
  | conflict => exact fun v hv hm => he v hv (hagrees v hv hm)
  | reached m'' changed' =>
    obtain ⟨hgrows', hagrees', hchanged'⟩ := he
    refine ⟨hgrows.trans hgrows', fun v hv hm => hagrees' v hv (hagrees v hv hm), ?_⟩
    cases changed with
    | true => exact Nat.lt_of_le_of_lt hgrows'.opens_le hchanged
    | false =>
      have hsame : m' = m := hchanged
      rw [hsame] at hchanged'
      exact hchanged'

/-- Literals with open atoms that hold on each valuation of `S` are made to hold. -/
theorem sound_foldl_satisfy {S : (Atom → Bool) → Prop} {ls : List Literal} (hne : ls ≠ [])
    (hls : ∀ l ∈ ls, l.atom < m.values.size ∧ m.value l.atom = none)
    (hS : ∀ v, S v → m.Agrees v → ∀ l ∈ ls, l.Holds v) :
    (Extension.reached (ls.foldl satisfy m) true).Sound S m := by
  have hgrows := grows_foldl_satisfy hls
  refine ⟨hgrows, ?_, ?_⟩
  · intro v hv hm
    exact agrees_foldl_satisfy hm fun l hl => ⟨(hls l hl).1, hS v hv hm l hl⟩
  · obtain ⟨l, hl⟩ := List.exists_mem_of_ne_nil ls hne
    obtain ⟨hlt, hopen⟩ := hls l hl
    rw [if_pos rfl]
    apply hgrows.opens_lt hlt hopen
    exact isSome_foldl_satisfy (fun l hl => (hls l hl).1) (.inr ⟨l, hl, rfl⟩)

theorem mem_filter_isOpen {ls : List Literal} {l : Literal} :
    l ∈ ls.filter m.isOpen ↔ l ∈ ls ∧ m.value l.atom = none := by
  rw [List.mem_filter, isOpen, Option.isNone_iff_eq_none]

/-- A clause forces its only open literal if the others fail. -/
theorem extendByClause_sound {ls : List Literal} (hls : ∀ l ∈ ls, l.atom < m.values.size) :
    (extendByClause m ls).Sound (fun v => ∃ l ∈ ls, l.Holds v) m := by
  unfold extendByClause
  split
  · exact Extension.sound_refl _ m
  · next hnone =>
    have hopen : ∀ v, m.Agrees v → ∀ l ∈ ls, l.Holds v → l ∈ ls.filter m.isOpen := by
      intro v hm l hl hholds
      rw [List.mem_filter]
      refine ⟨hl, ?_⟩
      by_contra hsettled
      have hfails : m.holds l = false := by
        by_contra htrue
        exact hnone (List.any_eq_true.2 ⟨l, hl, Bool.not_eq_false _ ▸ htrue⟩)
      exact hm.fails hfails (Bool.eq_false_iff.2 hsettled) hholds
    split
    · next hfilter =>
      rintro v ⟨l, hl, hholds⟩ hm
      have hmem := hopen v hm l hl hholds
      rw [hfilter] at hmem
      cases hmem
    · next l hfilter =>
      have hl : l ∈ ls ∧ m.value l.atom = none := by
        rw [← mem_filter_isOpen, hfilter]
        exact List.mem_singleton_self l
      apply sound_foldl_satisfy (List.cons_ne_nil l [])
      · rw [List.forall_mem_singleton]
        exact ⟨hls l hl.1, hl.2⟩
      · rintro v ⟨l', hl', hholds⟩ hm
        have hmem := hopen v hm l' hl' hholds
        rw [hfilter, List.mem_singleton] at hmem
        rw [List.forall_mem_singleton, ← hmem]
        exact hholds
    · exact Extension.sound_refl _ m

/-- Of some literals, those hold that hold already and some of the open ones. -/
theorem countP_holds (hm : m.Agrees v) (ls : List Literal) :
    ls.countP (fun l => decide (l.Holds v)) =
      (ls.filter m.holds).length + (ls.filter m.isOpen).countP fun l => decide (l.Holds v) := by
  induction ls with
  | nil => rfl
  | cons l ls ih =>
    rw [List.countP_cons, List.filter_cons, List.filter_cons, ih]
    by_cases hopen : m.isOpen l = true
    · have hno : ¬ m.holds l = true := by
        rw [holds_eq]
        rw [isOpen_eq] at hopen
        simp [beq_iff_eq.1 hopen]
      rw [if_neg hno, if_pos hopen, List.countP_cons]
      omega
    · rw [if_neg hopen]
      by_cases hholds : m.holds l = true
      · rw [if_pos hholds, if_pos (decide_eq_true (hm.holds hholds)), List.length_cons]
        omega
      · have hfails := hm.fails (Bool.eq_false_iff.2 hholds) (Bool.eq_false_iff.2 hopen)
        rw [if_neg hholds, if_neg (by simpa using hfails)]
        omega

/-- Open literals none of which can hold are made to fail. -/
theorem sound_refute {S : (Atom → Bool) → Prop} {free : List Literal} (hne : free ≠ [])
    (hfree : ∀ l ∈ free, l.atom < m.values.size ∧ m.value l.atom = none)
    (hzero : ∀ v, S v → m.Agrees v → free.countP (fun l => decide (l.Holds v)) = 0) :
    (Extension.reached (free.foldl (fun m l => m.satisfy l.negate) m) true).Sound S m := by
  rw [← List.foldl_map]
  apply sound_foldl_satisfy (by simpa using hne)
  · simpa [Literal.negate] using hfree
  · intro v hv hm
    have hnone := List.countP_eq_zero.1 (hzero v hv hm)
    rw [List.forall_mem_map]
    intro l hl
    rw [Literal.holds_negate]
    exact fun hholds => hnone l hl (decide_eq_true hholds)

/-- Open literals all of which have to hold are made to. -/
theorem sound_confirm {S : (Atom → Bool) → Prop} {free : List Literal} (hne : free ≠ [])
    (hfree : ∀ l ∈ free, l.atom < m.values.size ∧ m.value l.atom = none)
    (hall : ∀ v, S v → m.Agrees v → free.countP (fun l => decide (l.Holds v)) = free.length) :
    (Extension.reached (free.foldl Assignment.satisfy m) true).Sound S m := by
  apply sound_foldl_satisfy hne hfree
  intro v hv hm l hl
  exact of_decide_eq_true (List.countP_eq_length.1 (hall v hv hm) l hl)

/-- A window forces its open literals to fail once enough hold, and to hold once all of
them are needed. A literal may stand in it beside its complement: then both are forced, and
nothing is lost, for there was no valuation to lose. -/
theorem extendByWindow_sound {w : Window} (hw : ∀ l ∈ w.clause.literals, l.atom < m.values.size) :
    (extendByWindow w m).Sound (fun v => w.Holds v) m := by
  unfold extendByWindow
  dsimp only
  have hopen : ∀ l ∈ w.clause.literals.filter m.isOpen,
      l.atom < m.values.size ∧ m.value l.atom = none := by
    intro l hl
    obtain ⟨hmem, hnone⟩ := mem_filter_isOpen.1 hl
    exact ⟨hw l hmem, hnone⟩
  -- The count is that of the literals that hold already, and up to all open ones more.
  have hcount : ∀ v, w.Holds v → m.Agrees v →
      w.lower ≤ (w.clause.literals.filter m.holds).length +
          (w.clause.literals.filter m.isOpen).countP (fun l => decide (l.Holds v)) ∧
        (w.clause.literals.filter m.holds).length +
          (w.clause.literals.filter m.isOpen).countP (fun l => decide (l.Holds v)) ≤ w.upper := by
    intro v hholds hm
    rwa [Window.Holds, countP_holds hm] at hholds
  generalize w.clause.literals.filter m.isOpen = free at hopen hcount ⊢
  generalize (w.clause.literals.filter m.holds).length = holding at hcount ⊢
  have hmost : ∀ v, free.countP (fun l => decide (l.Holds v)) ≤ free.length :=
    fun v => List.countP_le_length
  split
  · intro v hv hm
    have hbounds := hcount v hv hm
    have := hmost v
    omega
  · split
    · exact Extension.sound_refl _ m
    · next hne =>
      have hfree : free ≠ [] := by simpa using hne
      split
      · apply sound_refute hfree hopen
        intro v hv hm
        have hbounds := hcount v hv hm
        omega
      · split
        · apply sound_confirm hfree hopen
          intro v hv hm
          have hbounds := hcount v hv hm
          have := hmost v
          omega
        · exact Extension.sound_refl _ m

/-! ### Rounds -/

/-- The literal stands in a clause, in the window, or in the objective. -/
def Mentions (P : Problem) (l : Literal) : Prop :=
  (∃ ls ∈ P.clauses, l ∈ ls) ∨ (∃ w, P.window = some w ∧ l ∈ w.clause.literals) ∨
    ∃ t ∈ P.objective, t.1 = l

/-- The atoms of the problem are listed in increasing order, and are among the first `n`. -/
structure Listed (P : Problem) (n : Nat) : Prop where
  mem : ∀ l, P.Mentions l → l.atom ∈ P.atoms
  lt : ∀ a ∈ P.atoms, a < n
  increasing : P.atoms.Pairwise (· < ·)

theorem Listed.atom_lt {n : Nat} (hP : P.Listed n) {l : Literal} (hl : P.Mentions l) :
    l.atom < n := hP.lt _ (hP.mem l hl)

theorem Extension.Sound.mono {S S' : (Atom → Bool) → Prop} {e : Extension} (h : e.Sound S m)
    (hS : ∀ v, S' v → S v) : e.Sound S' m := by
  cases e with
  | conflict => exact fun v hv => h v (hS v hv)
  | reached m' changed =>
    obtain ⟨hgrows, hagrees, hchanged⟩ := h
    exact ⟨hgrows, fun v hv => hagrees v (hS v hv), hchanged⟩

theorem extendByClauses_sound {S : (Atom → Bool) → Prop} {cs : List (List Literal)}
    {m' : Assignment} {changed : Bool} (hS : ∀ v, S v → ∀ ls ∈ cs, ∃ l ∈ ls, l.Holds v)
    (hcs : ∀ ls ∈ cs, ∀ l ∈ ls, l.atom < m.values.size)
    (h : (Extension.reached m' changed).Sound S m) :
    (extendByClauses cs m' changed).Sound S m := by
  induction cs generalizing m' changed with
  | nil => exact h
  | cons ls cs ih =>
    have hsize : m'.values.size = m.values.size := h.1.size
    have hclause : (extendByClause m' ls).Sound S m' := by
      apply Extension.Sound.mono (extendByClause_sound _)
      · exact fun v hv => hS v hv ls List.mem_cons_self
      · rw [hsize]
        exact hcs ls List.mem_cons_self
    have hboth := h.after hclause
    unfold extendByClauses
    split
    · next hconflict =>
      rw [hconflict] at hboth
      exact hboth
    · next m'' changed' hreached =>
      rw [hreached] at hboth
      apply ih _ _ hboth
      · exact fun v hv ls hls => hS v hv ls (List.mem_cons_of_mem _ hls)
      · exact fun ls hls => hcs ls (List.mem_cons_of_mem _ hls)

/-- A round loses no valuation that satisfies the problem. -/
theorem extend_sound (hP : P.Listed m.values.size) : (P.extend m).Sound P.Satisfied m := by
  have hclauses : (extendByClauses P.clauses m false).Sound P.Satisfied m := by
    apply extendByClauses_sound _ _ (Extension.sound_refl _ m)
    · exact fun v hv => hv.clauses
    · exact fun ls hls l hl => hP.atom_lt (.inl ⟨ls, hls, hl⟩)
  unfold extend
  split
  · next hconflict =>
    rw [hconflict] at hclauses
    exact hclauses
  · next hreached hwindow =>
    rw [hreached] at hclauses
    exact hclauses
  · next m' changed w hreached hwindow =>
    rw [hreached] at hclauses
    have hw : (extendByWindow w m').Sound P.Satisfied m' := by
      apply Extension.Sound.mono (extendByWindow_sound _)
      · exact fun v hv => hv.window w hwindow
      · intro l hl
        rw [hclauses.1.size]
        exact hP.atom_lt (.inr (.inl ⟨w, hwindow, hl⟩))
    have hboth := hclauses.after hw
    split
    · next hconflict =>
      rw [hconflict] at hboth
      exact hboth
    · next m'' changed' hchanged =>
      rw [hchanged] at hboth
      exact hboth

theorem close_eq_none {fuel : Nat} (hP : P.Listed m.values.size) (h : P.close fuel m = none)
    (hv : P.Satisfied v) : ¬ m.Agrees v := by
  induction fuel generalizing m with
  | zero => cases h
  | succ fuel ih =>
    have hsound := extend_sound hP
    unfold close at h
    split at h
    · next hconflict =>
      rw [hconflict] at hsound
      exact hsound v hv
    · next m' hreached =>
      rw [hreached] at hsound
      intro hm
      exact ih (hsound.1.size ▸ hP) h (hsound.2.1 v hv hm)
    · cases h

/-- With fuel for more rounds than there are open atoms, the last round changes nothing. -/
theorem close_eq_some {fuel : Nat} {m' : Assignment} (hP : P.Listed m.values.size)
    (hfuel : m.opens < fuel) (h : P.close fuel m = some m') :
    m.Grows m' ∧ (∀ v, P.Satisfied v → m.Agrees v → m'.Agrees v) ∧
      P.extend m' = .reached m' false := by
  induction fuel generalizing m with
  | zero => omega
  | succ fuel ih =>
    have hsound := extend_sound hP
    unfold close at h
    split at h
    · cases h
    · next m'' hreached =>
      rw [hreached] at hsound
      obtain ⟨hgrows, hagrees, hopens⟩ := hsound
      rw [if_pos rfl] at hopens
      obtain ⟨hgrows', hagrees', hlast⟩ := ih (hgrows.size ▸ hP) (by omega) h
      exact ⟨hgrows.trans hgrows', fun v hv hm => hagrees' v hv (hagrees v hv hm), hlast⟩
    · next m'' hreached =>
      rw [hreached] at hsound
      obtain ⟨-, -, hsame⟩ := hsound
      cases h
      have hsame' : m' = m := hsame
      subst hsame'
      exact ⟨.refl _, fun _ _ hm => hm, hreached⟩

theorem propagate_eq_none (hP : P.Listed m.values.size) (h : P.propagate m = none)
    (hv : P.Satisfied v) : ¬ m.Agrees v := close_eq_none hP h hv

theorem propagate_eq_some {m' : Assignment} (hP : P.Listed m.values.size)
    (h : P.propagate m = some m') :
    m.Grows m' ∧ (∀ v, P.Satisfied v → m.Agrees v → m'.Agrees v) ∧
      P.extend m' = .reached m' false :=
  close_eq_some hP (Nat.lt_succ_of_le m.opens_le) h

/-! ### Settled assignments -/

theorem extendByClause_unchanged {ls : List Literal} {m' : Assignment}
    (h : extendByClause m ls = .reached m' false) : m' = m := by
  unfold extendByClause at h
  split at h
  · cases h
    rfl
  · split at h
    · cases h
    · cases h
    · cases h
      rfl

theorem extendByClauses_unchanged {cs : List (List Literal)} {m' : Assignment} {changed : Bool}
    (h : extendByClauses cs m changed = .reached m' false) :
    changed = false ∧ m' = m ∧ ∀ ls ∈ cs, extendByClause m ls = .reached m false := by
  induction cs generalizing m changed with
  | nil =>
    cases h
    exact ⟨rfl, rfl, nofun⟩
  | cons ls cs ih =>
    unfold extendByClauses at h
    split at h
    · cases h
    · next m'' changed' hreached =>
      obtain ⟨hchanged, hsame, hall⟩ := ih h
      obtain ⟨rfl, rfl⟩ := Bool.or_eq_false_iff.1 hchanged
      have hsame' := extendByClause_unchanged hreached
      rw [hsame'] at hsame hall hreached
      exact ⟨rfl, hsame, List.forall_mem_cons.2 ⟨hreached, hall⟩⟩

theorem filter_isOpen_eq_nil {ls : List Literal} (hls : ∀ l ∈ ls, (m.value l.atom).isSome) :
    ls.filter m.isOpen = [] := by
  rw [List.filter_eq_nil_iff]
  intro l hl hopen
  rw [isOpen, Option.isNone_iff_eq_none] at hopen
  have hsome := hls l hl
  rw [hopen] at hsome
  cases hsome

/-- A clause whose atoms are settled forces nothing only if one of its literals holds. -/
theorem holds_of_extendByClause {ls : List Literal} {m' : Assignment}
    (h : extendByClause m ls = .reached m' false) (hls : ∀ l ∈ ls, (m.value l.atom).isSome) :
    ∃ l ∈ ls, m.holds l = true := by
  unfold extendByClause at h
  rw [filter_isOpen_eq_nil hls] at h
  split at h
  · next hany => exact List.any_eq_true.1 hany
  · cases h

/-- A window whose atoms are settled forces nothing only if its count is within bounds. -/
theorem holds_of_extendByWindow {w : Window} {m' : Assignment}
    (h : extendByWindow w m = .reached m' false)
    (hw : ∀ l ∈ w.clause.literals, (m.value l.atom).isSome) : w.Holds m.truth := by
  unfold extendByWindow at h
  rw [filter_isOpen_eq_nil hw] at h
  rw [Window.Holds, countP_holds (agrees_truth m), filter_isOpen_eq_nil hw]
  dsimp only at h
  split at h
  · cases h
  · next hroom =>
    simp only [List.length_nil, List.countP_nil] at hroom ⊢
    omega

/-- A settled assignment that forces nothing satisfies the problem. -/
theorem satisfied_truth {m' : Assignment} (h : P.extend m = .reached m' false)
    (hall : ∀ l, P.Mentions l → (m.value l.atom).isSome) : P.Satisfied m.truth := by
  have hclause : ∀ r changed, extendByClauses P.clauses m false = .reached r changed →
      changed = false → r = m ∧ ∀ ls ∈ P.clauses, ∃ l ∈ ls, l.Holds m.truth := by
    rintro r changed hreached rfl
    obtain ⟨-, hsame, hcs⟩ := extendByClauses_unchanged hreached
    refine ⟨hsame, ?_⟩
    intro ls hls
    obtain ⟨l, hl, hholds⟩ := holds_of_extendByClause (hcs ls hls)
      fun l hl => hall l (.inl ⟨ls, hls, hl⟩)
    exact ⟨l, hl, (agrees_truth m).holds hholds⟩
  unfold extend at h
  split at h
  · cases h
  · next hreached hwindow =>
    cases h
    obtain ⟨-, hclauses⟩ := hclause _ _ hreached rfl
    refine ⟨hclauses, ?_⟩
    intro w hw
    rw [hwindow] at hw
    cases hw
  · next r changed w hreached hwindow =>
    split at h
    · cases h
    · next r' changed' hlast =>
      obtain ⟨rfl, hchanged⟩ := Extension.reached.inj h
      obtain ⟨rfl, rfl⟩ := Bool.or_eq_false_iff.1 hchanged
      obtain ⟨rfl, hclauses⟩ := hclause _ _ hreached rfl
      refine ⟨hclauses, ?_⟩
      intro w' hw'
      rw [hwindow] at hw'
      cases hw'
      exact holds_of_extendByWindow hlast fun l hl => hall l (.inr (.inl ⟨w, hwindow, hl⟩))

end Problem

end Acquisition.Sat
