import Acquisition.Propositional.Propagation
import Acquisition.Proofs.Selection

/-!
# What propagation keeps

Propagation of a literal only shortens clauses and removes some. What is said here
of a whole propagation is shown of one visit, and carried over to a pass and to
the line of passes.

A literal that was put in line is there as a clause of its own, and such clauses
are never touched. So a clause that is removed is one with the propagated literal,
or it is covered by one that stays.
-/
namespace Acquisition.ClauseStore

open Checked

/-- The predicate holds of no two complementary literals. -/
def Consistent (P : Literal → Prop) : Prop := ∀ m n, P m → P n → m.isComplement n = false

/-- The literals of a clause are of different constraints. -/
def Separate (S : ClauseStore) : Prop :=
  ∀ c ∈ S.clauses, (c.literals.map (·.constraint)).Nodup

/-- What becomes of a store when `l` is known to hold. -/
structure Simplifies (l : Literal) (S T : ClauseStore) : Prop where
  valid : T.Valid
  /-- Clauses only lose literals. -/
  shrinks : ∀ k d, T.get? k = some d → ∃ c, S.get? k = some c ∧ d.literals.Sublist c.literals
  /-- Clauses of one literal stay as they are. -/
  short : ∀ k c, S.get? k = some c → isLong c = false → T.get? k = some c
  /-- A clause without `l` is covered by one that stays. -/
  covered : ∀ c ∈ S.clauses, l ∈ c.literals ∨
    ∃ d ∈ T.clauses, ∀ m ∈ d.literals, m ∈ c.literals
  /-- What is true beside `l` stays true. -/
  kept : ∀ P, Consistent P → P l → (∀ c ∈ S.clauses, ∃ m ∈ c.literals, P m) →
    ∀ d ∈ T.clauses, ∃ m ∈ d.literals, P m
  /-- A clause that is not of one literal keeps another one. -/
  nonEmpty : S.Separate → S.NonEmpty → T.NonEmpty

theorem Simplifies.separate {l : Literal} {S T : ClauseStore} (h : Simplifies l S T)
    (hS : S.Separate) : T.Separate := fun d hd => by
  obtain ⟨k, hk⟩ := mem_clauses.1 hd
  obtain ⟨c, hc, hsub⟩ := h.shrinks k d hk
  exact (hS c (get?_mem hc)).sublist (hsub.map _)

theorem Simplifies.refl {l : Literal} {S : ClauseStore} (hS : S.Valid) : Simplifies l S S where
  valid := hS
  shrinks := fun _ d hd => ⟨d, hd, .refl _⟩
  short := fun _ _ h _ => h
  covered := fun c hc => .inr ⟨c, hc, fun _ h => h⟩
  kept := fun _ _ _ h => h
  nonEmpty := fun _ h => h

/-- A clause of `m` alone stays. -/
theorem Simplifies.single {l m : Literal} {S T : ClauseStore} (h : Simplifies l S T)
    (hm : ∃ c ∈ S.clauses, c.literals = [m]) : ∃ c ∈ T.clauses, c.literals = [m] := by
  obtain ⟨c, hc, hl⟩ := hm
  obtain ⟨k, hk⟩ := mem_clauses.1 hc
  exact ⟨c, get?_mem (h.short k c hk (isLong_of_single hl)), hl⟩

/-- A later step may be about a literal that the first one left as a clause. -/
theorem Simplifies.trans {l m : Literal} {S T U : ClauseStore} (h : Simplifies l S T)
    (h' : Simplifies m T U) (hm : m = l ∨ ∃ c ∈ T.clauses, c.literals = [m]) :
    Simplifies l S U where
  valid := h'.valid
  shrinks := fun k e he => by
    obtain ⟨d, hd, hde⟩ := h'.shrinks k e he
    obtain ⟨c, hc, hcd⟩ := h.shrinks k d hd
    exact ⟨c, hc, hde.trans hcd⟩
  short := fun k c hc hs => h'.short k c (h.short k c hc hs) hs
  covered := fun c hc => by
    rcases h.covered c hc with hl | ⟨d, hd, hdc⟩
    · exact .inl hl
    · rcases h'.covered d hd with hmd | ⟨e, he, hed⟩
      · rcases hm with rfl | hm
        · exact .inl (hdc _ hmd)
        · -- The clause of `m` alone covers what was removed for having `m`.
          obtain ⟨u, hu, hul⟩ := h'.single hm
          refine .inr ⟨u, hu, fun n hn => ?_⟩
          rw [hul, List.mem_singleton] at hn
          exact hn ▸ hdc m hmd
      · exact .inr ⟨e, he, fun n hn => hdc n (hed n hn)⟩
  kept := fun P hP hl hS => by
    have hT := h.kept P hP hl hS
    refine h'.kept P hP ?_ hT
    rcases hm with rfl | ⟨u, hu, hul⟩
    · exact hl
    · obtain ⟨n, hn, hPn⟩ := hT u hu
      rw [hul, List.mem_singleton] at hn
      exact hn ▸ hPn
  nonEmpty := fun hsep hne => h'.nonEmpty (h.separate hsep) (h.nonEmpty hsep hne)

theorem isLong_of_sublist {c d : Clause} (h : d.literals.Sublist c.literals)
    (hd : isLong d = true) : isLong c = true :=
  isLong_eq_true.2 (Nat.lt_of_lt_of_le (isLong_eq_true.1 hd) h.length_le)

theorem exists_ne_of_isLong {c : Clause} (hlong : isLong c = true)
    (hsep : (c.literals.map (·.constraint)).Nodup) (d : ConstraintId) :
    ∃ m ∈ c.literals, m.constraint ≠ d := by
  have hlong' := isLong_eq_true.1 hlong
  match hc : c.literals with
  | [] => simp [hc] at hlong'
  | [a] => simp [hc] at hlong'
  | a :: b :: ls =>
    rw [hc] at hsep
    have hne : a.constraint ≠ b.constraint := fun e => by simp [e] at hsep
    by_cases ha : a.constraint = d
    · exact ⟨b, by simp, fun hb => hne (ha.trans hb.symm)⟩
    · exact ⟨a, by simp, ha⟩

theorem exists_not_isComplement {c : Clause} (hlong : isLong c = true)
    (hsep : (c.literals.map (·.constraint)).Nodup) (l : Literal) :
    ∃ m ∈ c.literals, m.isComplement l = false := by
  obtain ⟨m, hm, hne⟩ := exists_ne_of_isLong hlong hsep l.constraint
  exact ⟨m, hm, by simp [Literal.isComplement, Literal.sameConstraint, hne]⟩

/-- `d` is what is left of `c` without the complements of `ls`: a clause that lost a
literal has no mark, and any other is as it was. -/
structure Remains (ls : List Literal) (c d : Clause) : Prop where
  literals : d.literals = c.literals.filter fun m => !ls.any m.isComplement
  origin : d.origin = c.origin
  unmarked : d.literals ≠ c.literals → d.marked = false
  unchanged : d.literals = c.literals → d = c

section

variable {l m : Literal} {c d e : Clause} {ls ms : List Literal}

theorem Remains.refl : Remains [] c c where
  literals := by simp
  origin := rfl
  unmarked h := absurd rfl h
  unchanged _ := rfl

theorem Remains.sublist (h : Remains ls c d) : d.literals.Sublist c.literals := by
  rw [h.literals]
  exact List.filter_sublist

theorem Remains.trans (h : Remains ls c d) (h' : Remains ms d e) : Remains (ls ++ ms) c e where
  literals := by
    rw [h'.literals, h.literals, List.filter_filter]
    congr 1
    funext m
    rw [List.any_append, Bool.not_or, Bool.and_comm]
  origin := h'.origin.trans h.origin
  unmarked hne := by
    by_cases he : e.literals = d.literals
    · rw [h'.unchanged he] at hne ⊢
      exact h.unmarked hne
    · exact h'.unmarked he
  unchanged heq := by
    have hd : d.literals = c.literals := by
      apply h.sublist.eq_of_length_le
      rw [← heq]
      exact h'.sublist.length_le
    rw [h'.unchanged (heq.trans hd.symm), h.unchanged hd]

theorem Remains.not_complement (h : Remains ls c d) (hm : m ∈ d.literals) (hl : l ∈ ls) :
    m.isComplement l = false := by
  rw [h.literals, List.mem_filter, Bool.not_eq_true', List.any_eq_false] at hm
  exact Bool.eq_false_iff.2 (hm.2 l hl)

theorem Remains.filter (h : Remains [l] c d) :
    d.literals = c.literals.filter (!·.isComplement l) := by
  rw [h.literals]
  simp only [List.any_cons, List.any_nil, Bool.or_false]

end

namespace Wave

theorem hasOther_eq_true {S : ClauseStore} {k : ClauseKey} {c : Clause}
    (h : hasOther S k c = true) :
    ∃ k' d, k' ≠ k ∧ S.get? k' = some d ∧ d.literals = c.literals := by
  obtain ⟨⟨k', d⟩, hd, h⟩ := List.any_eq_true.1 h
  rw [Bool.and_eq_true, bne_iff_ne] at h
  exact ⟨k', d, h.1, mem_entries.1 hd, Clause.ext_literals.1 h.2⟩

/-- What one visit does to the store and to the line. -/
structure Visited (l : Literal) (w w' : Wave) : Prop where
  simplifies : Simplifies l w.store w'.store
  /-- The literals put in line are there as clauses. -/
  line : ∃ ls, w'.queue = w.queue ++ ls ∧ ∀ m ∈ ls, ∃ c ∈ w'.store.clauses, c.literals = [m]

theorem Visited.refl {l : Literal} {w : Wave} (hw : w.store.Valid) : Visited l w w :=
  ⟨.refl hw, [], by simp, nofun⟩

theorem Visited.trans {l : Literal} {w w' w'' : Wave} (h : Visited l w w')
    (h' : Visited l w' w'') : Visited l w w'' := by
  obtain ⟨ls, hq, hls⟩ := h.line
  obtain ⟨ls', hq', hls'⟩ := h'.line
  refine ⟨h.simplifies.trans h'.simplifies (.inl rfl), ls ++ ls', ?_, fun m hm => ?_⟩
  · rw [hq', hq, List.append_assoc]
  · rcases List.mem_append.1 hm with hm | hm
    · exact h'.simplifies.single (hls m hm)
    · exact hls' m hm

theorem simplifies_erase {l : Literal} {S : ClauseStore} (hS : S.Valid) {k : ClauseKey}
    {c : Clause} (hk : S.get? k = some c) (hlong : isLong c = true)
    (hc : l ∈ c.literals ∨
      ∃ k' d, k' ≠ k ∧ S.get? k' = some d ∧ ∀ m ∈ d.literals, m ∈ c.literals) :
    Simplifies l S (S.erase k) where
  valid := hS.erase k
  shrinks := fun k' d hd => by
    rw [get?_erase] at hd
    split at hd
    · cases hd
    · exact ⟨d, hd, .refl _⟩
  short := fun k' d hd hs => by
    rw [get?_erase, if_neg, hd]
    rintro rfl
    rw [hk] at hd
    cases hd
    rw [hlong] at hs
    cases hs
  covered := fun d hd => by
    obtain ⟨k', hk'⟩ := mem_clauses.1 hd
    by_cases hkk : k' = k
    · rw [hkk, hk] at hk'
      cases hk'
      refine hc.imp id fun ⟨k'', e, hne, he, hsub⟩ => ⟨e, get?_mem (k := k'') ?_, hsub⟩
      rw [get?_erase, if_neg hne, he]
    · exact .inr ⟨d, get?_mem (k := k') (by rw [get?_erase, if_neg hkk, hk']), fun _ h => h⟩
  kept := fun P _ _ h d hd => by
    obtain ⟨k', hk'⟩ := mem_clauses.1 hd
    rw [get?_erase] at hk'
    split at hk'
    · cases hk'
    · exact h d (get?_mem hk')
  nonEmpty := fun _ h d hd => by
    obtain ⟨k', hk'⟩ := mem_clauses.1 hd
    rw [get?_erase] at hk'
    split at hk'
    · cases hk'
    · exact h d (get?_mem hk')

theorem simplifies_modify {l : Literal} {S : ClauseStore} (hS : S.Valid) {k : ClauseKey}
    {c d : Clause} (hk : S.get? k = some c) (hlong : isLong c = true)
    (hd : d.literals = c.literals.filter (!·.isComplement l)) :
    Simplifies l S (S.modify k fun _ => d) := by
  have hget : ∀ k', (S.modify k fun _ => d).get? k' = if k' = k then some d else S.get? k' :=
    fun k' => by rw [get?_modify, hk]; rfl
  have hsub : d.literals.Sublist c.literals := hd ▸ List.filter_sublist
  refine ⟨hS.modify k _, fun k' e he => ?_, fun k' e he hs => ?_, fun e he => ?_,
    fun P hP hl h e he => ?_, fun hsep hne e he => ?_⟩
  · rw [hget] at he
    split at he
    · next hkk =>
      cases he
      exact ⟨c, hkk ▸ hk, hsub⟩
    · exact ⟨e, he, .refl _⟩
  · rw [hget, if_neg, he]
    rintro rfl
    rw [hk] at he
    cases he
    rw [hlong] at hs
    cases hs
  · obtain ⟨k', hk'⟩ := mem_clauses.1 he
    by_cases hkk : k' = k
    · rw [hkk, hk] at hk'
      cases hk'
      exact .inr ⟨d, get?_mem (k := k) (by rw [hget, if_pos rfl]), fun m hm => hsub.subset hm⟩
    · exact .inr ⟨e, get?_mem (k := k') (by rw [hget, if_neg hkk, hk']), fun _ h => h⟩
  · obtain ⟨k', hk'⟩ := mem_clauses.1 he
    rw [hget] at hk'
    split at hk'
    · cases hk'
      obtain ⟨m, hm, hPm⟩ := h c (get?_mem hk)
      refine ⟨m, ?_, hPm⟩
      rw [hd, List.mem_filter, hP m l hPm hl]
      exact ⟨hm, rfl⟩
    · exact h e (get?_mem hk')
  · obtain ⟨k', hk'⟩ := mem_clauses.1 he
    rw [hget] at hk'
    split at hk'
    · cases hk'
      -- Of two literals of different constraints only one is a complement.
      obtain ⟨m, hm, hcomp⟩ := exists_not_isComplement hlong (hsep c (get?_mem hk)) l
      rw [hd]
      exact List.ne_nil_of_mem (List.mem_filter.2 ⟨hm, by rw [hcomp]; rfl⟩)
    · exact hne e (get?_mem hk')

section

variable (l : Literal) (w : Wave) (k : ClauseKey)

@[simp] theorem store_noteShortened (d : Clause) : (w.noteShortened d).store = w.store := by
  unfold noteShortened
  split <;> rfl

/-- The literal of a clause of one literal comes into the line. -/
theorem noteShortened_cases (d : Clause) : ∃ ls,
    (w.noteShortened d).queue = w.queue ++ ls ∧
      (w.noteShortened d).report.forced = w.report.forced + ls.length ∧
      (w.noteShortened d).report.learnedPositive =
        (w.report.learnedPositive || ls.any (!·.negated)) ∧
      (ls = [] ∨ ∃ m, ls = [m] ∧ d.literals = [m]) := by
  unfold noteShortened
  split
  · next m hm => exact ⟨[m], rfl, rfl, by simp, .inr ⟨m, rfl, hm⟩⟩
  · exact ⟨[], by simp⟩

/-- What a visit can do when the clause of its key is `c`. -/
inductive Visit (l : Literal) (w : Wave) (k : ClauseKey) (c : Clause) (w' : Wave) : Prop
  | satisfied (hl : l ∈ c.literals) (hw : w' = { w with
      store := w.store.erase k, report := { w.report with satisfied := w.report.satisfied + 1 } })
  | untouched (hl : l ∉ c.literals) (hc : ∀ m ∈ c.literals, m.isComplement l = false) (hw : w' = w)
  | doubled (d : Clause) (hl : l ∉ c.literals) (hd : Remains [l] c d)
      (hother : hasOther w.store k d = true)
      (hw : w' = { w.noteShortened d with store := w.store.erase k })
  | shortened (d : Clause) (hl : l ∉ c.literals) (hd : Remains [l] c d)
      (hother : hasOther w.store k d = false)
      (hw : w' = { w.noteShortened d with store := w.store.modify k fun _ => d })

theorem visit_cases {c : Clause} (hc : w.store.get? k = some c) : Visit l w k c (visit l w k) := by
  have hcontains : c.contains l = true ↔ l ∈ c.literals := by simp [Clause.contains]
  rw [visit, hc]
  dsimp only
  by_cases hl : l ∈ c.literals
  · rw [if_pos (hcontains.2 hl)]
    exact .satisfied hl rfl
  · rw [if_neg (mt hcontains.1 hl)]
    by_cases hany : c.literals.any (·.isComplement l) = true
    · obtain ⟨m, hm, hcomp⟩ := List.any_eq_true.1 hany
      have hne : (c.without (·.isComplement l)).unmark.literals ≠ c.literals := by
        intro heq
        rw [← heq, Clause.literals_unmark, Clause.literals_without, List.mem_filter, hcomp] at hm
        exact Bool.false_ne_true hm.2
      have hd : Remains [l] c (c.without (·.isComplement l)).unmark :=
        ⟨by simp, rfl, fun _ => rfl, fun heq => absurd heq hne⟩
      rw [if_pos hany, store_noteShortened]
      cases hother : hasOther w.store k (c.without (·.isComplement l)).unmark with
      | true => exact .doubled _ hl hd hother rfl
      | false => exact .shortened _ hl hd hother rfl
    · rw [if_neg hany]
      rw [List.any_eq_true] at hany
      exact .untouched hl (fun m hm => Bool.eq_false_iff.2 fun hcomp => hany ⟨m, hm, hcomp⟩) rfl

theorem visit_of_none (hk : w.store.get? k = none) : visit l w k = w := by rw [visit, hk]

theorem get?_visit_of_ne {k' : ClauseKey} (hne : k' ≠ k) :
    (visit l w k).store.get? k' = w.store.get? k' := by
  cases hc : w.store.get? k with
  | none => rw [visit_of_none l w k hc]
  | some c =>
    cases visit_cases l w k hc with
    | satisfied hl hw => rw [hw, get?_erase, if_neg hne]
    | untouched hl hc hw => rw [hw]
    | doubled d hl hd hother hw => rw [hw, get?_erase, if_neg hne]
    | shortened d hl hd hother hw => rw [hw, get?_modify, if_neg hne]

/-- A clause that is there after a visit to it is what is left of the one before,
which did not have the literal. -/
theorem visit_remains {d : Clause} (hd : (visit l w k).store.get? k = some d) :
    ∃ c, w.store.get? k = some c ∧ l ∉ c.literals ∧ Remains [l] c d := by
  cases hc : w.store.get? k with
  | none =>
    rw [visit_of_none l w k hc, hc] at hd
    cases hd
  | some c =>
    refine ⟨c, rfl, ?_⟩
    cases visit_cases l w k hc with
    | satisfied hl hw =>
      rw [hw, get?_erase, if_pos rfl] at hd
      cases hd
    | untouched hl hfree hw =>
      rw [hw, hc] at hd
      cases hd
      refine ⟨hl, ?_, rfl, fun h => absurd rfl h, fun _ => rfl⟩
      rw [List.filter_eq_self.2]
      intro m hm
      simp [hfree m hm]
    | doubled e hl he hother hw =>
      rw [hw, get?_erase, if_pos rfl] at hd
      cases hd
    | shortened e hl he hother hw =>
      rw [hw, get?_modify, if_pos rfl, hc] at hd
      cases hd
      exact ⟨hl, he⟩

/-- A visit to a clause of several literals. -/
theorem visited_visit (hw : w.store.Valid)
    (hk : ∀ c, w.store.get? k = some c → isLong c = true) : Visited l w (visit l w k) := by
  cases hc : w.store.get? k with
  | none =>
    rw [visit_of_none l w k hc]
    exact .refl hw
  | some c =>
    cases visit_cases l w k hc with
    | satisfied hl hv =>
      rw [hv]
      exact ⟨simplifies_erase hw hc (hk c hc) (.inl hl), [], by simp, nofun⟩
    | untouched hl hfree hv =>
      rw [hv]
      exact .refl hw
    | doubled d hl hd hother hv =>
      -- What is left of the clause is there already.
      obtain ⟨k', e, hne, he, hel⟩ := hasOther_eq_true hother
      obtain ⟨ls, hqueue, -, -, hls⟩ := noteShortened_cases w d
      rw [hv]
      refine ⟨simplifies_erase hw hc (hk c hc) (.inr ⟨k', e, hne, he, fun m hm => ?_⟩), ls, hqueue, ?_⟩
      · exact hd.sublist.subset (hel ▸ hm)
      · have he' : (w.store.erase k).get? k' = some e := by rw [get?_erase, if_neg hne, he]
        rcases hls with rfl | ⟨m, rfl, hm⟩
        · exact nofun
        · exact fun n hn => ⟨e, get?_mem he', by rw [hel, hm, List.mem_singleton.1 hn]⟩
    | shortened d hl hd hother hv =>
      obtain ⟨ls, hqueue, -, -, hls⟩ := noteShortened_cases w d
      rw [hv]
      refine ⟨simplifies_modify hw hc (hk c hc) hd.filter, ls, hqueue, ?_⟩
      have hnew : (w.store.modify k fun _ => d).get? k = some d := by
        rw [get?_modify, if_pos rfl, hc]
        rfl
      rcases hls with rfl | ⟨m, rfl, hm⟩
      · exact nofun
      · exact fun n hn => ⟨d, get?_mem hnew, by rw [hm, List.mem_singleton.1 hn]⟩

theorem mem_long_keys {S : ClauseStore} : k ∈ (S.entries.filter fun e => isLong e.2).map (·.1) ↔
    ∃ c, S.get? k = some c ∧ isLong c = true := by
  simp only [List.mem_map, List.mem_filter, Prod.exists, exists_and_right, exists_eq_right,
    mem_entries]

theorem nodup_long_keys (S : ClauseStore) :
    ((S.entries.filter fun e => isLong e.2).map (·.1)).Nodup :=
  S.nodup_keys.sublist (List.filter_sublist.map _)

/-- Visits to different clauses, at the keys visited and elsewhere. -/
theorem foldl_visit_get? {ks : List ClauseKey} (hks : ks.Nodup) :
    (∀ k ∉ ks, (ks.foldl (visit l) w).store.get? k = w.store.get? k) ∧
      ∀ k ∈ ks, ∀ d, (ks.foldl (visit l) w).store.get? k = some d →
        ∃ c, w.store.get? k = some c ∧ l ∉ c.literals ∧ Remains [l] c d := by
  induction ks generalizing w with
  | nil => exact ⟨fun _ _ => rfl, nofun⟩
  | cons k ks ih =>
    obtain ⟨hnot, hnd⟩ := List.nodup_cons.1 hks
    obtain ⟨hsame, hrest⟩ := ih (visit l w k) hnd
    rw [List.foldl_cons]
    constructor
    · intro k' hk'
      rw [List.mem_cons, not_or] at hk'
      rw [hsame k' hk'.2, get?_visit_of_ne l w k hk'.1]
    · intro k' hk' d hd
      rcases List.mem_cons.1 hk' with rfl | hk'
      · rw [hsame k' hnot] at hd
        exact visit_remains l w k' hd
      · have hne : k' ≠ k := fun e => hnot (e ▸ hk')
        rw [← get?_visit_of_ne l w k hne]
        exact hrest k' hk' d hd

/-- What a pass leaves at each key: a clause of one literal as it was, and what is left
of a clause of several literals. -/
theorem pass_get? {d : Clause} (hd : (w.pass l).store.get? k = some d) :
    ∃ c, w.store.get? k = some c ∧
      ((isLong c = false ∧ d = c) ∨ (isLong c = true ∧ l ∉ c.literals ∧ Remains [l] c d)) := by
  obtain ⟨hsame, hvisited⟩ := foldl_visit_get? l w (nodup_long_keys w.store)
  by_cases hk : k ∈ (w.store.entries.filter fun e => isLong e.2).map (·.1)
  · obtain ⟨c, hc, hl, hrem⟩ := hvisited k hk d hd
    obtain ⟨c', hc', hlong⟩ := (mem_long_keys k).1 hk
    rw [hc] at hc'
    cases hc'
    exact ⟨c, hc, .inr ⟨hlong, hl, hrem⟩⟩
  · rw [pass, hsame k hk] at hd
    refine ⟨d, hd, .inl ⟨?_, rfl⟩⟩
    cases hlong : isLong d with
    | false => rfl
    | true => exact absurd ((mem_long_keys k).2 ⟨d, hd, hlong⟩) hk

variable {w} in
/-- What visits to clauses of several literals keep true is kept true by a pass. -/
theorem pass_induction {P : Wave → Prop} (hw : P w)
    (hvisit : ∀ w k, P w → (∀ c, w.store.get? k = some c → isLong c = true) →
      P (visit l w k)) : P (w.pass l) := by
  have hfold : ∀ ks : List ClauseKey, ks.Nodup → ∀ w, P w →
      (∀ k ∈ ks, ∀ c, w.store.get? k = some c → isLong c = true) → P (ks.foldl (visit l) w) := by
    intro ks hks
    induction ks with
    | nil => exact fun w hw _ => hw
    | cons k ks ih =>
      intro w hw hlong
      obtain ⟨hnot, hnd⟩ := List.nodup_cons.1 hks
      apply ih hnd (visit l w k) (hvisit w k hw (hlong k List.mem_cons_self))
      intro k' hk' c hc
      rw [get?_visit_of_ne l w k fun e => hnot (e ▸ hk')] at hc
      exact hlong k' (List.mem_cons_of_mem _ hk') c hc
  apply hfold _ (nodup_long_keys w.store) w hw
  intro k hk c hc
  obtain ⟨c', hc', hlong⟩ := (mem_long_keys k).1 hk
  rw [hc] at hc'
  cases hc'
  exact hlong

theorem visited_pass (hw : w.store.Valid) : Visited l w (w.pass l) := by
  apply pass_induction l (.refl hw)
  intro w' k h hlong
  exact h.trans (visited_visit l w' k h.simplifies.valid hlong)

end

/-- A line of passes, in which each literal is there as a clause, goes on from what
`l` has simplified. -/
theorem run_spec {l : Literal} {S : ClauseStore} (fuel : Nat) {w : Wave}
    (h : Simplifies l S w.store)
    (hq : ∀ m ∈ w.queue, m = l ∨ ∃ c ∈ w.store.clauses, c.literals = [m]) :
    Simplifies l S (run fuel w).store := by
  induction fuel generalizing w with
  | zero => exact h
  | succ fuel ih =>
    rw [run]
    split
    · exact h
    · next m rest hm =>
      rw [hm] at hq
      have hvis := visited_pass m { w with queue := rest } h.valid
      refine ih (h.trans hvis.simplifies (hq m List.mem_cons_self)) fun n hn => ?_
      obtain ⟨ls, hline, hls⟩ := hvis.line
      rw [hline] at hn
      rcases List.mem_append.1 hn with hn | hn
      · exact (hq n (List.mem_cons_of_mem _ hn)).imp id hvis.simplifies.single
      · exact .inr (hls n hn)

end Wave

/-- Propagation simplifies the store, and no clause of more than one literal is
left with the complement. -/
theorem propagate_eq_ok {S T : ClauseStore} {l : Literal} {report : Report} (hS : S.Valid)
    (h : S.propagate l = .ok (report, T)) :
    Simplifies l S T ∧
      ∀ c ∈ T.clauses, isLong c = true → ∀ m ∈ c.literals, m.isComplement l = false := by
  rw [propagate, bind_eq_ok] at h
  obtain ⟨b, hb, h⟩ := h
  cases b with
  | true =>
    cases h
    refine ⟨.refl hS, fun c hc hlong => ?_⟩
    obtain ⟨m, hm⟩ := (isMonomial_eq_ok hb).1 rfl c hc
    rw [isLong_of_single hm] at hlong
    cases hlong
  | false =>
    cases h
    -- The first pass is the one of `l`, and those after it only shorten clauses.
    have hvis := Wave.visited_pass l { store := S, queue := [] } hS
    have hrun : Simplifies l ((Wave.pass { store := S, queue := [] } l)).store
        (Wave.run S.size (Wave.pass { store := S, queue := [] } l)).store := by
      refine Wave.run_spec _ (.refl hvis.simplifies.valid) fun m hm => ?_
      obtain ⟨ls, hq, hls⟩ := hvis.line
      rw [hq] at hm
      exact .inr (hls m hm)
    refine ⟨hvis.simplifies.trans hrun (.inl rfl), fun c hc hlong m hm => ?_⟩
    obtain ⟨k, hk⟩ := mem_clauses.1 hc
    obtain ⟨d, hd, hsub⟩ := hrun.shrinks k c hk
    obtain ⟨e, -, ⟨hshort, rfl⟩ | ⟨-, -, hrem⟩⟩ := Wave.pass_get? l _ k hd
    · rw [isLong_of_sublist hsub hlong] at hshort
      cases hshort
    · exact hrem.not_complement (hsub.subset hm) (List.mem_singleton_self l)

theorem exists_propagate {S : ClauseStore} (h : S.NonEmpty) (l : Literal) :
    ∃ r, S.propagate l = .ok r := by
  obtain ⟨b, hb⟩ := exists_isMonomial h
  cases b <;> exact ⟨_, by rw [propagate, hb]; rfl⟩

end Acquisition.ClauseStore
