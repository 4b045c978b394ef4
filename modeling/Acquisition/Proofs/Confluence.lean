import Mathlib.Data.Finset.Dedup
import Acquisition.Proofs.Fixpoint

/-!
# Propagation in any order

Literals may be propagated one after the other in any order. What is propagated on the way is,
in the end, what unit propagation comes to through the clauses as they were at first, provided
that no two of these literals are complementary. What is left of a clause hangs on them alone.

All the same the order shows: a given literal that is forced before its turn comes to stand as
a clause of its own.
-/
namespace Acquisition

namespace Clause

variable {c d : Clause} {l m : Literal} {ls ms : List Literal}

/-- The literals of a clause that are not complements of some literals. -/
def remainder (c : Clause) (ls : List Literal) : List Literal :=
  c.literals.filter fun m => !ls.any m.isComplement

theorem mem_remainder : m ∈ c.remainder ls ↔
    m ∈ c.literals ∧ ∀ l ∈ ls, m.isComplement l = false := by
  rw [remainder, List.mem_filter, Bool.not_eq_true', List.any_eq_false]
  simp only [Bool.not_eq_true]

theorem remainder_nil (c : Clause) : c.remainder [] = c.literals := by simp [remainder]

theorem remainder_append (h : d.literals = c.remainder ls) (ms : List Literal) :
    d.remainder ms = c.remainder (ls ++ ms) := by
  rw [remainder, h, remainder, remainder, List.filter_filter]
  apply List.filter_congr
  intro m _
  rw [List.any_append, Bool.not_or, Bool.and_comm]

theorem remainder_congr (h : ∀ l, l ∈ ls ↔ l ∈ ms) (c : Clause) :
    c.remainder ls = c.remainder ms := by
  rw [remainder, remainder]
  apply List.filter_congr
  intro m _
  rw [Bool.eq_iff_iff, Bool.not_eq_true', Bool.not_eq_true', List.any_eq_false, List.any_eq_false]
  simp only [h]

end Clause

namespace ClauseStore

open Checked

/-! ### A pass, told by the clauses before it -/

namespace Wave

variable {l : Literal} {w w' : Wave} {k : ClauseKey} {c d : Clause}

theorem queue_noteShortened (w : Wave) (d : Clause) :
    (w.noteShortened d).queue = w.queue ++ if isLong d then [] else d.literals := by
  unfold noteShortened
  split
  · next m hm =>
    rw [isLong_of_single hm, hm]
    rfl
  · next hne =>
    cases hlong : isLong d with
    | true => simp
    | false =>
      have hnil : d.literals = [] := by
        by_contra hd
        obtain ⟨m, hm⟩ := exists_literal_of_not_isLong hd hlong
        exact hne m hm
      simp [hnil]

/-- What comes into the line with a visit is all that is left of the clause. -/
theorem visit_line (hc : w.store.get? k = some c) :
    ∃ ls, (visit l w k).queue = w.queue ++ ls ∧ ∀ m ∈ ls, c.remainder [l] = [m] := by
  have hshort : ∀ d, Remains [l] c d →
      ∀ m ∈ (if isLong d then [] else d.literals), c.remainder [l] = [m] := by
    intro d hd m hm
    cases hlong : isLong d with
    | true => simp [hlong] at hm
    | false =>
      rw [hlong] at hm
      obtain ⟨m', hm'⟩ := exists_literal_of_not_isLong (List.ne_nil_of_mem hm) hlong
      obtain rfl : m = m' := List.mem_singleton.1 (hm' ▸ hm)
      exact hd.literals.symm.trans hm'
  cases visit_cases l w k hc with
  | satisfied hl hw => exact ⟨[], by simp [hw], nofun⟩
  | untouched hl hfree hw => exact ⟨[], by simp [hw], nofun⟩
  | doubled d hl hd hother hw =>
    rw [hw]
    exact ⟨_, queue_noteShortened w d, hshort d hd⟩
  | shortened d hl hd hother hw =>
    rw [hw]
    exact ⟨_, queue_noteShortened w d, hshort d hd⟩

/-- A clause without the literal leaves its remainder, be it as another clause. -/
theorem visit_leaves (hc : w.store.get? k = some c) (hlong : isLong c = true) :
    l ∈ c.literals ∨ ∃ d ∈ (visit l w k).store.clauses, d.literals = c.remainder [l] ∧
      (isLong d = true ∨ ∀ m ∈ d.literals, m ∈ (visit l w k).queue) := by
  have hline : ∀ d e : Clause, e.literals = d.literals →
      isLong e = true ∨ ∀ m ∈ e.literals, m ∈ (w.noteShortened d).queue := by
    intro d e he
    rw [isLong_congr he, he, queue_noteShortened]
    cases hd : isLong d with
    | true => exact .inl rfl
    | false => exact .inr fun m hm => List.mem_append_right _ hm
  cases visit_cases l w k hc with
  | satisfied hl hw => exact .inl hl
  | untouched hl hfree hw =>
    refine .inr ⟨c, hw.symm ▸ get?_mem hc, ?_, .inl hlong⟩
    rw [Clause.remainder, eq_comm, List.filter_eq_self]
    intro m hm
    simp [hfree m hm]
  | doubled d hl hd hother hw =>
    obtain ⟨k', e, hne, he, hel⟩ := hasOther_eq_true hother
    rw [hw]
    refine .inr ⟨e, get?_mem (k := k') ?_, hel.trans hd.literals, hline d e hel⟩
    rw [get?_erase, if_neg hne, he]
  | shortened d hl hd hother hw =>
    rw [hw]
    refine .inr ⟨d, get?_mem (k := k) ?_, hd.literals, hline d d rfl⟩
    rw [get?_modify, if_pos rfl, hc]
    rfl

/-- What visits have made of the clauses of `w` when `l` is known to hold. -/
structure Narrows (l : Literal) (w w' : Wave) : Prop where
  /-- A literal comes into the line as all that is left of a clause. -/
  line : ∃ ls, w'.queue = w.queue ++ ls ∧
    ∀ m ∈ ls, ∃ c ∈ w.store.clauses, isLong c = true ∧ c.remainder [l] = [m]
  short : ∀ d ∈ w'.store.clauses, isLong d = false →
    d ∈ w.store.clauses ∨ ∀ m ∈ d.literals, m ∈ w'.queue
  long : ∀ d ∈ w'.store.clauses, isLong d = true →
    ∃ c ∈ w.store.clauses, isLong c = true ∧ d.remainder [l] = c.remainder [l]
  /-- A clause without the literal is still there, or its remainder is. -/
  left : ∀ c ∈ w.store.clauses, isLong c = true → l ∈ c.literals ∨ c ∈ w'.store.clauses ∨
    ∃ d ∈ w'.store.clauses, d.literals = c.remainder [l] ∧
      (isLong d = true ∨ ∀ m ∈ d.literals, m ∈ w'.queue)

theorem Narrows.refl (l : Literal) (w : Wave) : Narrows l w w where
  line := ⟨[], by simp, nofun⟩
  short _ hd _ := .inl hd
  long d hd hlong := ⟨d, hd, hlong, rfl⟩
  left _ hc _ := .inr (.inl hc)

/-- To take the complements of `l` away twice is to take them away once. -/
theorem remainder_remainder (h : d.literals = c.remainder [l]) :
    d.remainder [l] = c.remainder [l] := by
  rw [Clause.remainder_append h]
  exact Clause.remainder_congr (by simp) c

theorem Narrows.visit (h : Narrows l w w')
    (hk : ∀ c, w'.store.get? k = some c → isLong c = true) : Narrows l w (visit l w' k) := by
  cases hc : w'.store.get? k with
  | none => rwa [visit_of_none l w' k hc]
  | some c =>
    have hlong := hk c hc
    obtain ⟨c₀, hc₀, hlong₀, hsame⟩ := h.long c (get?_mem hc) hlong
    obtain ⟨ls, hqueue, hls⟩ := visit_line (l := l) hc
    have hleaves := visit_leaves (l := l) hc hlong
    have hgrow : ∀ m ∈ w'.queue, m ∈ (Wave.visit l w' k).queue := by
      intro m hm
      rw [hqueue]
      exact List.mem_append_left ls hm
    have hstay : ∀ d ∈ w'.store.clauses, d = c ∨ d ∈ (Wave.visit l w' k).store.clauses := by
      intro d hd
      obtain ⟨k', hk'⟩ := mem_clauses.1 hd
      by_cases hkk : k' = k
      · rw [hkk, hc] at hk'
        exact .inl (Option.some.inj hk').symm
      · exact .inr (get?_mem (k := k') (by rw [get?_visit_of_ne l w' k hkk, hk']))
    -- A clause that was not there before is what is left of the one visited.
    have hnew : ∀ d ∈ (Wave.visit l w' k).store.clauses, d ∈ w'.store.clauses ∨
        l ∉ c.literals ∧ d.literals = c.remainder [l] := by
      intro d hd
      obtain ⟨k', hk'⟩ := mem_clauses.1 hd
      by_cases hkk : k' = k
      · obtain ⟨c', hc', hnot, hrem⟩ := visit_remains l w' k (hkk ▸ hk')
        rw [hc] at hc'
        cases hc'
        exact .inr ⟨hnot, hrem.literals⟩
      · rw [get?_visit_of_ne l w' k hkk] at hk'
        exact .inl (get?_mem hk')
    constructor
    case line =>
      obtain ⟨ms, hmqueue, hms⟩ := h.line
      refine ⟨ms ++ ls, by rw [hqueue, hmqueue, List.append_assoc], ?_⟩
      intro m hm
      rcases List.mem_append.1 hm with hm | hm
      · exact hms m hm
      · exact ⟨c₀, hc₀, hlong₀, hsame ▸ hls m hm⟩
    case short =>
      intro d hd hshort
      rcases hnew d hd with hd | ⟨hnot, hrem⟩
      · exact (h.short d hd hshort).imp_right fun hline m hm => hgrow m (hline m hm)
      · obtain ⟨e, -, he, hline⟩ := hleaves.resolve_left hnot
        have hed : e.literals = d.literals := he.trans hrem.symm
        rw [isLong_congr hed, hshort, hed] at hline
        exact .inr (hline.resolve_left Bool.false_ne_true)
    case long =>
      intro d hd hlong
      rcases hnew d hd with hd | ⟨-, hrem⟩
      · exact h.long d hd hlong
      · exact ⟨c₀, hc₀, hlong₀, (remainder_remainder hrem).trans hsame⟩
    case left =>
      intro b hb hblong
      rcases h.left b hb hblong with hl | hmem | ⟨d, hd, hrem, hline⟩
      · exact .inl hl
      · rcases hstay b hmem with rfl | hmem
        · exact hleaves.imp_right .inr
        · exact .inr (.inl hmem)
      · rcases hstay d hd with rfl | hd
        · rcases hleaves with hl | ⟨e, he, herem, heline⟩
          · exact .inl (Clause.mem_remainder.1 (hrem ▸ hl)).1
          · exact .inr (.inr ⟨e, he, herem.trans (remainder_remainder hrem), heline⟩)
        · exact .inr (.inr ⟨d, hd, hrem, hline.imp_right fun h m hm => hgrow m (h m hm)⟩)

theorem narrows_pass (l : Literal) (w : Wave) : Narrows l w (w.pass l) :=
  pass_induction l (.refl l w) fun _ _ h hk => h.visit hk

/-- After a pass each clause without the literal has left its remainder. -/
theorem pass_leaves (hc : c ∈ w.store.clauses) (hlong : isLong c = true) :
    l ∈ c.literals ∨ ∃ d ∈ (w.pass l).store.clauses, d.literals = c.remainder [l] ∧
      (isLong d = true ∨ ∀ m ∈ d.literals, m ∈ (w.pass l).queue) := by
  rcases (narrows_pass l w).left c hc hlong with hl | hmem | hleft
  · exact .inl hl
  · -- A clause that stays as it was has no complement of the literal.
    refine .inr ⟨c, hmem, ?_, .inl hlong⟩
    obtain ⟨k, hk⟩ := mem_clauses.1 hmem
    obtain ⟨b, -, ⟨hshort, rfl⟩ | ⟨-, -, hrem⟩⟩ := pass_get? l w k hk
    · rw [hlong] at hshort
      cases hshort
    · exact hrem.literals.trans (remainder_remainder hrem.literals).symm
  · exact .inr hleft

end Wave

/-! ### The literals that follow -/

/-- Propagates literals one after the other. -/
def propagateEach (S : ClauseStore) (us : List Literal) : Checked ClauseStore :=
  us.foldlM (fun S u => (·.2) <$> S.propagate u) S

/-- What unit propagation comes to from the literals of `F`, through the clauses of several
literals. -/
inductive Follows (S : ClauseStore) (F : Finset Literal) : Literal → Prop
  | given {u : Literal} : u ∈ F → Follows S F u
  | forced {c : Clause} {m : Literal} : c ∈ S.clauses → isLong c = true → m ∈ c.literals →
      (∀ n ∈ c.literals, n ≠ m → Follows S F n.negate) → Follows S F m

/-- The literals of `F` and those of the clauses. -/
def vocabulary (S : ClauseStore) (F : Finset Literal) : Finset Literal :=
  F ∪ (S.clauses.flatMap (·.literals)).toFinset

/-- Each constraint has one atom, in all the clauses and in `F`. -/
def OneAtomEach (S : ClauseStore) (F : Finset Literal) : Prop :=
  ∀ l ∈ S.vocabulary F, ∀ m ∈ S.vocabulary F, l.constraint = m.constraint → l.atom = m.atom

variable {S T T' : ClauseStore} {F : Finset Literal} {c d : Clause} {l m u : Literal}
  {us us' done done' line rest gs : List Literal}

theorem mem_vocabulary : l ∈ S.vocabulary F ↔ l ∈ F ∨ ∃ c ∈ S.clauses, l ∈ c.literals := by
  rw [vocabulary, Finset.mem_union, List.mem_toFinset, List.mem_flatMap]

theorem Follows.mem_vocabulary (h : S.Follows F l) : l ∈ S.vocabulary F := by
  rw [ClauseStore.mem_vocabulary]
  cases h with
  | given hu => exact .inl hu
  | forced hc _ hm _ => exact .inr ⟨_, hc, hm⟩

/-- What holds of the given literals, and of a literal of a clause whenever it holds of the
negations of all others, holds of the literals that follow. -/
theorem Follows.mem_of_closed {ls : List Literal} (h : S.Follows F l) (hF : ∀ u ∈ F, u ∈ ls)
    (hclosed : ∀ c ∈ S.clauses, isLong c = true → ∀ m ∈ c.literals,
      (∀ n ∈ c.literals, n ≠ m → n.negate ∈ ls) → m ∈ ls) : l ∈ ls := by
  induction h with
  | given hu => exact hF _ hu
  | forced hc hlong hm _ ih => exact hclosed _ hc hlong _ hm ih

theorem isComplement_negate (l : Literal) : l.isComplement l.negate = true :=
  isComplement_eq_true.2 ⟨rfl, by simp [Literal.negate]⟩

theorem OneAtomEach.negate_eq (h : S.OneAtomEach F) (hl : l ∈ S.vocabulary F)
    (hm : m ∈ S.vocabulary F) (hcomp : l.isComplement m = true) : l.negate = m := by
  obtain ⟨hconst, hsign⟩ := isComplement_eq_true.1 hcomp
  have hatom := h l hl m hm hconst
  cases l
  cases m
  simp_all [Literal.negate]

/-- All that is left of a clause when complements of what follows are taken away follows. -/
theorem Follows.of_remainder (hone : S.OneAtomEach F) (hc : c ∈ S.clauses)
    (hlong : isLong c = true) (hgs : ∀ g ∈ gs, S.Follows F g) (hm : c.remainder gs = [m]) :
    S.Follows F m := by
  have hmem : ∀ n, n ∈ c.remainder gs ↔ n = m := fun n => by rw [hm, List.mem_singleton]
  refine .forced hc hlong (Clause.mem_remainder.1 ((hmem m).2 rfl)).1 ?_
  intro n hn hne
  have hgone : n ∉ c.remainder gs := fun h => hne ((hmem n).1 h)
  simp only [Clause.mem_remainder, not_and, not_forall, Bool.not_eq_false] at hgone
  obtain ⟨g, hg, hcomp⟩ := hgone hn
  have hn' : n ∈ S.vocabulary F := ClauseStore.mem_vocabulary.2 (.inr ⟨c, hc, hn⟩)
  rw [hone.negate_eq hn' (hgs g hg).mem_vocabulary hcomp]
  exact hgs g hg

/-! ### What a line of passes comes to -/

/-- What has become of `S` when the literals `done` were propagated and those of `line` are
still to be. -/
structure Reduces (S : ClauseStore) (F : Finset Literal) (done line : List Literal)
    (T : ClauseStore) : Prop where
  valid : T.Valid
  nonEmpty : T.NonEmpty
  distinct : T.Distinct
  follows : ∀ l ∈ done ++ line, S.Follows F l
  /-- A literal that was not given stands as a clause. -/
  stands : ∀ l ∈ done ++ line, l ∈ F ∨ ∃ d ∈ T.clauses, d.literals = [l]
  literals : ∀ d ∈ T.clauses, ∀ m ∈ d.literals, ∃ c ∈ S.clauses, m ∈ c.literals
  kept : ∀ c ∈ S.clauses, isLong c = false → c ∈ T.clauses
  short : ∀ d ∈ T.clauses, isLong d = false →
    d ∈ S.clauses ∨ ∀ m ∈ d.literals, m ∈ done ++ line
  long : ∀ d ∈ T.clauses, isLong d = true → ∃ c ∈ S.clauses, isLong c = true ∧
    d.literals = c.remainder done ∧ ∀ l ∈ done, l ∉ d.literals
  /-- A clause that none of the literals satisfies leaves its remainder. -/
  left : ∀ c ∈ S.clauses, isLong c = true → (∃ l ∈ done ++ line, l ∈ c.literals) ∨
    ∃ d ∈ T.clauses, isLong d = true ∧ d.literals = c.remainder done

theorem Reduces.refl (hS : S.Valid) (hne : S.NonEmpty) (hd : S.Distinct) :
    Reduces S F [] [] S where
  valid := hS
  nonEmpty := hne
  distinct := hd
  follows := nofun
  stands := nofun
  literals d hd _ hm := ⟨d, hd, hm⟩
  kept _ hc _ := hc
  short _ hd _ := .inl hd
  long d hd hlong := ⟨d, hd, hlong, (Clause.remainder_nil d).symm, nofun⟩
  left c hc hlong := .inr ⟨c, hc, hlong, (Clause.remainder_nil c).symm⟩

/-- A given literal may be put in line. -/
theorem Reduces.push (h : Reduces S F done [] T) (hu : u ∈ F) : Reduces S F done [u] T := by
  have hsub : ∀ l ∈ done ++ [], l ∈ done ++ [u] := by simp +contextual
  have hadd : ∀ {P : Literal → Prop}, (∀ l ∈ done ++ [], P l) → P u → ∀ l ∈ done ++ [u], P l := by
    intro P hdone hu
    rw [List.append_nil] at hdone
    rw [List.forall_mem_append, List.forall_mem_singleton]
    exact ⟨hdone, hu⟩
  constructor
  case valid => exact h.valid
  case nonEmpty => exact h.nonEmpty
  case distinct => exact h.distinct
  case follows => exact hadd h.follows (.given hu)
  case stands => exact hadd h.stands (.inl hu)
  case literals => exact h.literals
  case kept => exact h.kept
  case short =>
    intro d hd hshort
    exact (h.short d hd hshort).imp_right fun hmem m hm => hsub m (hmem m hm)
  case long => exact h.long
  case left =>
    intro c hc hlong
    exact (h.left c hc hlong).imp_left fun ⟨l, hl, hlc⟩ => ⟨l, hsub l hl, hlc⟩

theorem Reduces.pass {w : Wave} (h : Reduces S F done (l :: w.queue) w.store)
    (hone : S.OneAtomEach F) :
    Reduces S F (done ++ [l]) (w.pass l).queue (w.pass l).store := by
  have hnarrows := Wave.narrows_pass l w
  have hvis := Wave.visited_pass l w h.valid
  obtain ⟨ls, hqueue, hls⟩ := hnarrows.line
  have hline : done ++ [l] ++ (w.pass l).queue = done ++ l :: w.queue ++ ls := by
    rw [hqueue]
    simp
  have hl : l ∈ done ++ l :: w.queue := by simp
  have hnonEmpty : (w.pass l).store.NonEmpty := by
    intro d hd
    obtain ⟨k, hk⟩ := mem_clauses.1 hd
    obtain ⟨c, hc, ⟨-, rfl⟩ | ⟨hlong, -, hrem⟩⟩ := Wave.pass_get? l w k hk
    · exact h.nonEmpty d (get?_mem hc)
    · have hmem : ∀ m ∈ c.literals, m ∈ S.vocabulary F :=
        fun m hm => mem_vocabulary.2 (.inr (h.literals c (get?_mem hc) m hm))
      exact hrem.ne_nil hlong fun m hm n hn => hone m (hmem m hm) n (hmem n hn)
  constructor
  case valid => exact hvis.simplifies.valid
  case nonEmpty => exact hnonEmpty
  case distinct => exact Wave.pass_distinct l w h.distinct
  case follows =>
    rw [hline, List.forall_mem_append]
    refine ⟨h.follows, fun m hm => ?_⟩
    obtain ⟨c, hc, hlong, hrem⟩ := hls m hm
    obtain ⟨b, hb, hblong, hbrem, -⟩ := h.long c hc hlong
    rw [Clause.remainder_append hbrem] at hrem
    refine Follows.of_remainder hone hb hblong (fun g hg => ?_) hrem
    apply h.follows
    simp only [List.mem_append, List.mem_cons, List.not_mem_nil, or_false] at hg ⊢
    exact hg.imp_right .inl
  case stands =>
    rw [hline, List.forall_mem_append]
    constructor
    · exact fun m hm => (h.stands m hm).imp_right hvis.simplifies.single
    · obtain ⟨ms, hms, hnew⟩ := hvis.line
      obtain rfl := List.append_cancel_left (hqueue.symm.trans hms)
      exact fun m hm => .inr (hnew m hm)
  case literals =>
    intro d hd m hm
    obtain ⟨k, hk⟩ := mem_clauses.1 hd
    obtain ⟨c, hc, hsub⟩ := hvis.simplifies.shrinks k d hk
    exact h.literals c (get?_mem hc) m (hsub.subset hm)
  case kept =>
    intro c hc hshort
    obtain ⟨k, hk⟩ := mem_clauses.1 (h.kept c hc hshort)
    exact get?_mem (hvis.simplifies.short k c hk hshort)
  case short =>
    intro d hd hshort
    rw [hline]
    rcases hnarrows.short d hd hshort with hd | hqueue'
    · refine (h.short d hd hshort).imp_right fun hmem m hm => ?_
      exact List.mem_append_left ls (hmem m hm)
    · refine .inr fun m hm => hline ▸ List.mem_append_right _ (hqueue' m hm)
  case long =>
    intro d hd hlong
    obtain ⟨k, hk⟩ := mem_clauses.1 hd
    obtain ⟨c, hc, ⟨hshort, rfl⟩ | ⟨hclong, hnot, hrem⟩⟩ := Wave.pass_get? l w k hk
    · rw [hlong] at hshort
      cases hshort
    · obtain ⟨b, hb, hblong, hbrem, hbnot⟩ := h.long c (get?_mem hc) hclong
      refine ⟨b, hb, hblong, hrem.literals.trans (Clause.remainder_append hbrem [l]), ?_⟩
      intro m hm hmem
      have hmem := hrem.sublist.subset hmem
      rcases List.mem_append.1 hm with hm | hm
      · exact hbnot m hm hmem
      · exact hnot (List.mem_singleton.1 hm ▸ hmem)
  case left =>
    intro c hc hlong
    rw [hline]
    rcases h.left c hc hlong with ⟨m, hm, hmc⟩ | ⟨d, hd, hdlong, hdrem⟩
    · exact .inl ⟨m, List.mem_append_left ls hm, hmc⟩
    · have hsub : ∀ m ∈ d.literals, m ∈ c.literals := fun m hm =>
        (Clause.mem_remainder.1 (hdrem ▸ hm)).1
      rcases Wave.pass_leaves hd hdlong with hld | ⟨e, he, herem, helong | heline⟩
      · exact .inl ⟨l, List.mem_append_left ls hl, hsub l hld⟩
      · exact .inr ⟨e, he, helong, herem.trans (Clause.remainder_append hdrem [l])⟩
      · -- The remainder is one literal, which has come into the line.
        obtain ⟨m, hm⟩ := List.exists_mem_of_ne_nil _ (hnonEmpty e he)
        refine .inl ⟨m, hline ▸ List.mem_append_right _ (heline m hm), ?_⟩
        exact hsub m (Clause.mem_remainder.1 (herem ▸ hm)).1

theorem Reduces.run {w : Wave} (h : Reduces S F done w.queue w.store) (hone : S.OneAtomEach F)
    (fuel : Nat) : Reduces S F (done ++ Wave.taken fuel w) (Wave.run fuel w).queue
      (Wave.run fuel w).store := by
  induction fuel generalizing done w with
  | zero =>
    rw [Wave.taken, Wave.run, List.append_nil]
    exact h
  | succ fuel ih =>
    cases hq : w.queue with
    | nil =>
      rw [Wave.run_of_queue_nil hq, Wave.taken, hq, List.append_nil]
      exact hq ▸ h
    | cons l rest =>
      rw [Wave.taken, Wave.run, hq, List.append_cons]
      rw [hq] at h
      exact ih (Reduces.pass (w := { w with queue := rest }) h hone)

theorem Reduces.propagate (h : Reduces S F done [] T) (hone : S.OneAtomEach F) (hu : u ∈ F) :
    ∃ report ls T', T.propagate u = .ok (report, T') ∧ Reduces S F (done ++ u :: ls) [] T' := by
  have hlong := card_longKeys_le T
  have hdry : (Wave.run (T.size + 1) { store := T, queue := [u] }).queue = [] := by
    apply Wave.queue_run
    dsimp only
    rw [List.length_singleton]
    omega
  have hrun := (h.push hu).run (w := { store := T, queue := [u] }) hone (T.size + 1)
  rw [hdry] at hrun
  exact ⟨_, T.forced u, _, propagate_eq_run h.nonEmpty, hrun⟩

theorem Reduces.propagateEach (h : Reduces S F done [] T) (hone : S.OneAtomEach F)
    (hus : ∀ u ∈ us, u ∈ F) : ∃ ls T', T.propagateEach us = .ok T' ∧
      Reduces S F (done ++ ls) [] T' ∧ ∀ u ∈ us, u ∈ ls := by
  induction us generalizing done T with
  | nil => exact ⟨[], T, rfl, (List.append_nil done).symm ▸ h, nofun⟩
  | cons u us ih =>
    obtain ⟨hu, hus⟩ := List.forall_mem_cons.1 hus
    obtain ⟨report, ls, T₁, hfirst, h₁⟩ := h.propagate hone hu
    obtain ⟨ms, T₂, hrest, h₂, hmem⟩ := ih h₁ hus
    refine ⟨u :: ls ++ ms, T₂, ?_, by rwa [← List.append_assoc], ?_⟩
    · rw [ClauseStore.propagateEach, List.foldlM_cons, hfirst]
      exact hrest
    · exact List.forall_mem_cons.2 ⟨by simp, fun v hv => List.mem_append_right _ (hmem v hv)⟩

/-! ### The order does not matter -/

/-- What was propagated in the end is what follows. -/
theorem Reduces.mem_iff (h : Reduces S F done [] T) (hF : ∀ u ∈ F, u ∈ done)
    (hcons : Consistent (S.Follows F)) : l ∈ done ↔ S.Follows F l := by
  have hfollows : ∀ g ∈ done, S.Follows F g := fun g hg => h.follows g (by simpa using hg)
  refine ⟨hfollows l, fun hl => hl.mem_of_closed hF ?_⟩
  intro c hc hlong m hm hothers
  rcases h.left c hc hlong with ⟨g, hg, hgc⟩ | ⟨d, hd, hdlong, hdrem⟩
  · -- A literal that satisfies the clause is complementary to one that was propagated.
    rw [List.append_nil] at hg
    by_cases hgm : g = m
    · exact hgm ▸ hg
    · have hcomp := hcons g g.negate (hfollows g hg) (hfollows _ (hothers g hgc hgm))
      rw [isComplement_negate] at hcomp
      cases hcomp
  · have honly : ∀ n ∈ d.literals, n = m := by
      intro n hn
      obtain ⟨hnc, hfree⟩ := Clause.mem_remainder.1 (hdrem ▸ hn)
      by_contra hne
      have hcomp := hfree _ (hothers n hnc hne)
      rw [isComplement_negate] at hcomp
      cases hcomp
    have hsub : d.literals ⊆ [m] := fun n hn => List.mem_singleton.2 (honly n hn)
    have hlength : d.literals.length ≤ 1 := d.nodup.length_le_of_subset hsub
    have := isLong_eq_true.1 hdlong
    omega

/-- A clause that is left in one order is left in the other, unless it is of one given literal. -/
theorem Reduces.exists_clause (h : Reduces S F done [] T) (h' : Reduces S F done' [] T')
    (hdone : ∀ l, l ∈ done ↔ l ∈ done') (hcons : Consistent (S.Follows F))
    (hd : d ∈ T.clauses) :
    (∃ u ∈ F, d.literals = [u]) ∨ ∃ d' ∈ T'.clauses, d'.literals = d.literals := by
  cases hlong : isLong d with
  | false =>
    rcases h.short d hd hlong with hdS | hmem
    · exact .inr ⟨d, h'.kept d hdS hlong, rfl⟩
    · obtain ⟨m, hm⟩ := exists_literal_of_not_isLong (h.nonEmpty d hd) hlong
      rw [hm, List.forall_mem_singleton, List.append_nil, hdone] at hmem
      rcases h'.stands m (by simpa using hmem) with hF | ⟨d', hd', hl⟩
      · exact .inl ⟨m, hF, hm⟩
      · exact .inr ⟨d', hd', hl.trans hm.symm⟩
  | true =>
    obtain ⟨c, hc, hclong, hrem, hnot⟩ := h.long d hd hlong
    rcases h'.left c hc hclong with ⟨g, hg, hgc⟩ | ⟨d', hd', -, hrem'⟩
    · -- The clause would have lost this literal as a complement of another one.
      rw [List.append_nil, ← hdone] at hg
      have hgone : g ∉ c.remainder done := fun hmem => hnot g hg (hrem ▸ hmem)
      simp only [Clause.mem_remainder, not_and, not_forall, Bool.not_eq_false] at hgone
      obtain ⟨g', hg', hcomp⟩ := hgone hgc
      rw [hcons g g' (h.follows g (by simpa using hg)) (h.follows g' (by simpa using hg'))] at hcomp
      cases hcomp
    · exact .inr ⟨d', hd', by rw [hrem', hrem, Clause.remainder_congr hdone]⟩

/-- The clauses as lists of literals, but for those of one literal of `F`. -/
def beside (F : Finset Literal) (T : ClauseStore) : List (List Literal) :=
  (T.clauses.map (·.literals)).filter fun ls => decide (∀ u ∈ F, ls ≠ [u])

theorem mem_beside {ls : List Literal} : ls ∈ T.beside F ↔
    (∃ d ∈ T.clauses, d.literals = ls) ∧ ∀ u ∈ F, ls ≠ [u] := by
  rw [beside, List.mem_filter, decide_eq_true_iff, List.mem_map]

theorem Reduces.beside_perm (h : Reduces S F done [] T) (h' : Reduces S F done' [] T')
    (hdone : ∀ l, l ∈ done ↔ l ∈ done') (hcons : Consistent (S.Follows F)) :
    (T.beside F).Perm (T'.beside F) := by
  have hsub : ∀ {T T' : ClauseStore} {done done' : List Literal}, Reduces S F done [] T →
      Reduces S F done' [] T' → (∀ l, l ∈ done ↔ l ∈ done') → T.beside F ⊆ T'.beside F := by
    intro T T' done done' h h' hdone ls hls
    obtain ⟨⟨d, hd, rfl⟩, hother⟩ := mem_beside.1 hls
    rcases h.exists_clause h' hdone hcons hd with ⟨u, hu, hdu⟩ | hd'
    · exact absurd hdu (hother u hu)
    · exact mem_beside.2 ⟨hd', hother⟩
  refine (List.perm_ext_iff_of_nodup (h.distinct.filter _) (h'.distinct.filter _)).2 fun ls => ?_
  exact ⟨@hsub _ _ _ _ h h' hdone ls, @hsub _ _ _ _ h' h (fun l => (hdone l).symm) ls⟩

/-- Where clauses have positive literals and `F` has negated ones, no clause is of a literal
of `F` alone. -/
theorem Reduces.beside_eq (h : Reduces S F done [] T)
    (hpositive : ∀ c ∈ S.clauses, ∀ m ∈ c.literals, m.negated = false)
    (hF : ∀ u ∈ F, u.negated = true) : T.beside F = T.clauses.map (·.literals) := by
  rw [beside, List.filter_eq_self]
  intro ls hls
  obtain ⟨d, hd, rfl⟩ := List.mem_map.1 hls
  rw [decide_eq_true_iff]
  intro u hu hdu
  obtain ⟨c, hc, hmem⟩ := h.literals d hd u (by simp [hdu])
  have hsign := hpositive c hc u hmem
  rw [hF u hu] at hsign
  cases hsign

/-- Literals may be propagated in any order. The clauses that come of it are the same, but for
those of one literal that was given, and these too are the same if clauses are positive and the
given literals are negated. -/
theorem propagateEach_confluent (hS : S.Valid) (hne : S.NonEmpty) (hd : S.Distinct)
    (hone : S.OneAtomEach F) (hcons : Consistent (S.Follows F)) (hus : us.toFinset = F)
    (hus' : us'.toFinset = F) :
    ∃ T T', S.propagateEach us = .ok T ∧ S.propagateEach us' = .ok T' ∧
      (T.beside F).Perm (T'.beside F) ∧
      ((∀ c ∈ S.clauses, ∀ m ∈ c.literals, m.negated = false) → (∀ u ∈ F, u.negated = true) →
        (T.clauses.map (·.literals)).Perm (T'.clauses.map (·.literals))) := by
  have hmem : ∀ u, u ∈ us ↔ u ∈ F := fun u => by rw [← hus, List.mem_toFinset]
  have hmem' : ∀ u, u ∈ us' ↔ u ∈ F := fun u => by rw [← hus', List.mem_toFinset]
  have hstart : Reduces S F [] [] S := .refl hS hne hd
  obtain ⟨done, T, hT, h, hdone⟩ := hstart.propagateEach hone fun u hu => (hmem u).1 hu
  obtain ⟨done', T', hT', h', hdone'⟩ := hstart.propagateEach hone fun u hu => (hmem' u).1 hu
  have hsame : ∀ l, l ∈ [] ++ done ↔ l ∈ [] ++ done' := by
    intro l
    rw [h.mem_iff (fun u hu => hdone u ((hmem u).2 hu)) hcons,
      h'.mem_iff (fun u hu => hdone' u ((hmem' u).2 hu)) hcons]
  have hperm := h.beside_perm h' hsame hcons
  refine ⟨T, T', hT, hT', hperm, fun hpositive hF => ?_⟩
  rwa [h.beside_eq hpositive hF, h'.beside_eq hpositive hF] at hperm

/-- Positive clauses, two of which come down to the same one when `3` and `4` are ruled out. -/
def alike : ClauseStore :=
  let positive (i : Nat) : Literal := ⟨i, i, false⟩
  [Clause.ofList [positive 1, positive 2, positive 3],
    Clause.ofList [positive 1, positive 2, positive 4], Clause.ofList [positive 3, positive 5],
    Clause.ofList [positive 4, positive 5, positive 6]].foldl adding empty

/-- `3` and `4` may be ruled out in either order. -/
theorem propagateEach_alike :
    let us : List Literal := [⟨3, 3, true⟩, ⟨4, 4, true⟩]
    alike.Valid ∧ alike.NonEmpty ∧ alike.Distinct ∧ alike.OneAtomEach us.toFinset ∧
      Consistent (alike.Follows us.toFinset) ∧ us.reverse.toFinset = us.toFinset ∧
      ∃ T T', alike.propagateEach us = .ok T ∧ alike.propagateEach us.reverse = .ok T' ∧
        (T.clauses.map (·.literals)).Perm (T'.clauses.map (·.literals)) := by
  intro us
  have hvalid : alike.Valid := valid_empty.foldl_adding _
  have hne : alike.NonEmpty := by unfold NonEmpty; decide +kernel
  have hd : alike.Distinct := by unfold Distinct; decide +kernel
  have hone : alike.OneAtomEach us.toFinset := by unfold OneAtomEach; decide +kernel
  have hfollows : ∀ l, alike.Follows us.toFinset l → l ∈ ⟨5, 5, false⟩ :: us := by
    intro l hl
    apply hl.mem_of_closed
    · decide +kernel
    · decide +kernel
  have hcons : Consistent (alike.Follows us.toFinset) := by
    have hall : ∀ l ∈ ⟨5, 5, false⟩ :: us, ∀ m ∈ ⟨5, 5, false⟩ :: us, l.isComplement m = false := by
      decide +kernel
    exact fun l m hl hm => hall l (hfollows l hl) m (hfollows m hm)
  have hreverse : us.reverse.toFinset = us.toFinset := List.toFinset_reverse
  obtain ⟨T, T', hT, hT', -, hperm⟩ := propagateEach_confluent hvalid hne hd hone hcons rfl hreverse
  refine ⟨hvalid, hne, hd, hone, hcons, hreverse, T, T', hT, hT', hperm ?_ ?_⟩
  · decide +kernel
  · decide +kernel

end ClauseStore

end Acquisition
