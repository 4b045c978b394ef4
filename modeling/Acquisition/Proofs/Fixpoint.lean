import Acquisition.Proofs.Tally

/-!
# Propagation to a fixpoint

A pass of a literal leaves of each clause of several literals what the complement
is not, or nothing if the clause has the literal or if what is left of it is there
already. What the passes so far have done is kept as an invariant of the wave, with
the literals that were taken off the line and those that are still in it. The line
runs dry, since a literal comes into it only with a clause that is no longer one of
several literals.
-/
namespace Acquisition

theorem Literal.eq_of {l m : Literal} (hatom : l.atom = m.atom)
    (hc : l.constraint = m.constraint) (hsign : l.negated = m.negated) : l = m := by
  cases l
  cases m
  simp_all

namespace ClauseStore

open Checked

/-- No two clauses have the same literals. -/
def Distinct (S : ClauseStore) : Prop := (S.clauses.map (·.literals)).Nodup

/-- `u` and the literals of the clauses. -/
def literalsWith (S : ClauseStore) (u : Literal) : List Literal :=
  u :: S.clauses.flatMap (·.literals)

/-- Each constraint has one atom, in all the clauses and in `u`. -/
def OneAtom (S : ClauseStore) (u : Literal) : Prop :=
  ∀ l ∈ S.literalsWith u, ∀ m ∈ S.literalsWith u, l.constraint = m.constraint → l.atom = m.atom

section

variable {S : ClauseStore} {u l m : Literal} {c d e : Clause} {ls ms : List Literal}

theorem distinct_iff : S.Distinct ↔ ∀ k k' c d, S.get? k = some c → S.get? k' = some d →
    c.literals = d.literals → k = k' := by
  have hnd : S.entries.Nodup := List.Nodup.of_map _ S.nodup_keys
  rw [Distinct, ← map_snd_entries, List.map_map, List.nodup_map_iff_inj_on hnd]
  constructor
  · intro h k k' c d hc hd hl
    exact congrArg Prod.fst (h (k, c) (mem_entries.2 hc) (k', d) (mem_entries.2 hd) hl)
  · intro h a ha b hb hl
    have hk := h a.1 b.1 a.2 b.2 (mem_entries.1 ha) (mem_entries.1 hb) hl
    exact List.inj_on_of_nodup_map S.nodup_keys ha hb hk

theorem Distinct.erase (h : S.Distinct) (k : ClauseKey) : (S.erase k).Distinct := by
  rw [distinct_iff] at h ⊢
  intro k₁ k₂ c d hc hd hl
  rw [get?_erase] at hc hd
  split at hc
  · cases hc
  · split at hd
    · cases hd
    · exact h k₁ k₂ c d hc hd hl

/-- Whether some other clause has the literals of `d` is found out before `d` is stored. -/
theorem Distinct.modify {k : ClauseKey} (h : S.Distinct) (hother : Wave.hasOther S k d = false) :
    (S.modify k fun _ => d).Distinct := by
  have hnone : ∀ k' c, k' ≠ k → S.get? k' = some c → c.literals ≠ d.literals := by
    intro k' c hne hc hl
    rw [Wave.hasOther, List.any_eq_false] at hother
    apply hother (k', c) (mem_entries.2 hc)
    rw [Clause.ext_literals.2 hl, Bool.and_true, bne_iff_ne]
    exact hne
  have hnew : ∀ k' c, (S.modify k fun _ => d).get? k' = some c →
      (k' = k ∧ c = d) ∨ (k' ≠ k ∧ S.get? k' = some c) := by
    intro k' c hc
    rw [get?_modify] at hc
    split at hc
    · next hk =>
      obtain ⟨_, -, rfl⟩ := Option.map_eq_some_iff.1 hc
      exact .inl ⟨hk, rfl⟩
    · next hk => exact .inr ⟨hk, hc⟩
  rw [distinct_iff] at h ⊢
  intro k₁ k₂ c₁ c₂ h₁ h₂ hl
  rcases hnew k₁ c₁ h₁ with ⟨hk₁, hc₁⟩ | ⟨hk₁, h₁⟩
  · rcases hnew k₂ c₂ h₂ with ⟨hk₂, -⟩ | ⟨hk₂, h₂⟩
    · rw [hk₁, hk₂]
    · exact absurd (hc₁ ▸ hl.symm) (hnone k₂ c₂ hk₂ h₂)
  · rcases hnew k₂ c₂ h₂ with ⟨-, hc₂⟩ | ⟨-, h₂⟩
    · exact absurd (hc₂ ▸ hl) (hnone k₁ c₁ hk₁ h₁)
    · exact h k₁ k₂ c₁ c₂ h₁ h₂ hl

theorem mem_literalsWith : l ∈ S.literalsWith u ↔ l = u ∨ ∃ c ∈ S.clauses, l ∈ c.literals := by
  rw [literalsWith, List.mem_cons, List.mem_flatMap]

theorem isComplement_eq_true : l.isComplement m = true ↔
    l.constraint = m.constraint ∧ l.negated = !m.negated := by
  rw [Literal.isComplement, Literal.sameConstraint, Bool.and_eq_true, beq_iff_eq, bne_iff_ne,
    Bool.eq_not]

/-- The literals of a constraint are two: with a sign and without. -/
theorem OneAtom.eq (h : S.OneAtom u) (hl : l ∈ S.literalsWith u) (hm : m ∈ S.literalsWith u)
    (hc : l.constraint = m.constraint) (hsign : l.negated = m.negated) : l = m :=
  Literal.eq_of (h l hl m hm hc) hc hsign

/-- Of the literals of a clause only one is the complement of `l`. -/
theorem Remains.ne_nil (h : Remains [l] c d) (hlong : isLong c = true)
    (hc : ∀ m ∈ c.literals, ∀ n ∈ c.literals, m.constraint = n.constraint → m.atom = n.atom) :
    d.literals ≠ [] := by
  intro hnil
  have hall : ∀ m ∈ c.literals, m.isComplement l = true := by
    intro m hm
    by_contra hcomp
    have hmem : m ∈ d.literals := by
      rw [h.literals, List.mem_filter]
      simpa [hm] using hcomp
    rw [hnil] at hmem
    cases hmem
  have hlength := isLong_eq_true.1 hlong
  have hnd := c.nodup
  cases hl : c.literals with
  | nil => simp [hl] at hlength
  | cons a rest =>
    cases rest with
    | nil => simp [hl] at hlength
    | cons b rest =>
      have ha : a ∈ c.literals := by simp [hl]
      have hb : b ∈ c.literals := by simp [hl]
      obtain ⟨hca, hsa⟩ := isComplement_eq_true.1 (hall a ha)
      obtain ⟨hcb, hsb⟩ := isComplement_eq_true.1 (hall b hb)
      have hconst : a.constraint = b.constraint := hca.trans hcb.symm
      have hab : a = b := Literal.eq_of (hc a ha b hb hconst) hconst (hsa.trans hsb.symm)
      rw [hl, hab] at hnd
      exact (List.nodup_cons.1 hnd).1 List.mem_cons_self

end

namespace Wave

variable (l : Literal) (w : Wave) (k : ClauseKey)

theorem visit_distinct (h : w.store.Distinct) : (visit l w k).store.Distinct := by
  cases hc : w.store.get? k with
  | none => rwa [visit_of_none l w k hc]
  | some c =>
    cases visit_cases l w k hc with
    | satisfied hl hw =>
      rw [hw]
      exact h.erase k
    | untouched hl hfree hw => rwa [hw]
    | doubled d hl hd hother hw =>
      rw [hw]
      exact h.erase k
    | shortened d hl hd hother hw =>
      rw [hw]
      exact h.modify hother

theorem pass_distinct (h : w.store.Distinct) : (w.pass l).store.Distinct :=
  pass_induction l h fun w k h _ => visit_distinct l w k h

/-- Between two waves the literals `ls` have come into the line, each with a clause
that is no longer one of several literals. -/
structure Pushes (ls : List Literal) (w w' : Wave) : Prop where
  queue : w'.queue = w.queue ++ ls
  forced : w'.report.forced = w.report.forced + ls.length
  learnedPositive : w'.report.learnedPositive = (w.report.learnedPositive || ls.any (!·.negated))
  long : w'.store.longKeys.card + ls.length ≤ w.store.longKeys.card

theorem Pushes.refl : Pushes [] w w := ⟨by simp, rfl, by simp, by simp⟩

variable {w} in
theorem Pushes.trans {ls ms : List Literal} {w' w'' : Wave} (h : Pushes ls w w')
    (h' : Pushes ms w' w'') : Pushes (ls ++ ms) w w'' where
  queue := by rw [h'.queue, h.queue, List.append_assoc]
  forced := by rw [h'.forced, h.forced, List.length_append, Nat.add_assoc]
  learnedPositive := by
    rw [h'.learnedPositive, h.learnedPositive, List.any_append, Bool.or_assoc]
  long := by
    have := h.long
    have := h'.long
    rw [List.length_append]
    omega

theorem visit_pushes (hk : ∀ c, w.store.get? k = some c → isLong c = true) :
    ∃ ls, Pushes ls w (visit l w k) := by
  cases hc : w.store.get? k with
  | none =>
    rw [visit_of_none l w k hc]
    exact ⟨[], .refl w⟩
  | some c =>
    have hmem : k ∈ w.store.longKeys := mem_longKeys.2 ⟨c, hc, hk c hc⟩
    have herase : (w.store.erase k).longKeys.card + 1 = w.store.longKeys.card := by
      rw [longKeys_erase, Finset.card_erase_add_one hmem]
    cases visit_cases l w k hc with
    | satisfied hl hw =>
      rw [hw]
      refine ⟨[], by simp, rfl, by simp, ?_⟩
      dsimp only [List.length_nil]
      omega
    | untouched hl hfree hw =>
      rw [hw]
      exact ⟨[], .refl w⟩
    | doubled d hl hd hother hw =>
      obtain ⟨ls, hqueue, hforced, hpositive, hls⟩ := noteShortened_cases w d
      rw [hw]
      refine ⟨ls, hqueue, hforced, hpositive, ?_⟩
      dsimp only
      have hlength : ls.length ≤ 1 := by
        rcases hls with rfl | ⟨m, rfl, -⟩
        · exact Nat.zero_le 1
        · exact Nat.le_refl 1
      omega
    | shortened d hl hd hother hw =>
      obtain ⟨ls, hqueue, hforced, hpositive, hls⟩ := noteShortened_cases w d
      have hsub := longKeys_modify_subset (d := d) hc (hk c hc)
      rw [hw]
      refine ⟨ls, hqueue, hforced, hpositive, ?_⟩
      dsimp only
      rcases hls with rfl | ⟨m, rfl, hm⟩
      · exact Finset.card_le_card hsub
      · -- The key is that of a clause of several literals no longer.
        apply Finset.card_lt_card
        rw [Finset.ssubset_iff_of_subset hsub]
        exact ⟨k, hmem, not_mem_longKeys_modify hc (isLong_of_single hm)⟩

theorem pass_pushes : ∃ ls, Pushes ls w (w.pass l) := by
  apply pass_induction (P := fun w' => ∃ ls, Pushes ls w w') l ⟨[], .refl w⟩
  intro w' k h hlong
  obtain ⟨ls, hls⟩ := h
  obtain ⟨ms, hms⟩ := visit_pushes l w' k hlong
  exact ⟨ls ++ ms, hls.trans hms⟩

/-- The literals that are taken off the line, in order. -/
def taken : Nat → Wave → List Literal
  | 0, _ => []
  | fuel + 1, w => match w.queue with
    | [] => []
    | l :: rest => l :: taken fuel ({ w with queue := rest }.pass l)

theorem run_of_queue_nil {w : Wave} (hq : w.queue = []) (fuel : Nat) : run fuel w = w := by
  cases fuel with
  | zero => rfl
  | succ fuel => rw [run, hq]

/-- Each pass takes one literal off the line, and for each that comes into it there is
a clause of several literals less. -/
theorem queue_run {fuel : Nat} {w : Wave} (h : w.queue.length + w.store.longKeys.card ≤ fuel) :
    (run fuel w).queue = [] := by
  induction fuel generalizing w with
  | zero =>
    rw [run]
    exact List.eq_nil_of_length_eq_zero (by omega)
  | succ fuel ih =>
    rw [run]
    split
    · next hq => exact hq
    · next l rest hq =>
      obtain ⟨ls, hls⟩ := pass_pushes l { w with queue := rest }
      apply ih
      have hlong := hls.long
      rw [hls.queue, List.length_append]
      rw [hq, List.length_cons] at h
      dsimp only at hlong ⊢
      omega

/-- What a wave has made of `S` when the literals `done` were taken off its line. -/
structure Progress (S : ClauseStore) (u : Literal) (done : List Literal) (w : Wave) : Prop where
  simplifies : Simplifies u S w.store
  nonEmpty : w.store.NonEmpty
  distinct : w.store.Distinct
  remains : ∀ k d, w.store.get? k = some d → isLong d = true →
    ∃ c, S.get? k = some c ∧ Remains done c d ∧ ∀ l ∈ done, l ∉ d.literals
  /-- Beside `u` the line was of forced literals, which stand as clauses. -/
  line : ∃ fs, done ++ w.queue = u :: fs ∧ w.report.forced = fs.length ∧
    w.report.learnedPositive = fs.any (!·.negated) ∧
    ∀ f ∈ fs, ∃ c ∈ w.store.clauses, c.literals = [f]

section

variable {S : ClauseStore} {u : Literal} {done : List Literal} {w}

theorem Progress.start (hS : S.Valid) (hne : S.NonEmpty) (hd : S.Distinct) (u : Literal) :
    Progress S u [] { store := S, queue := [u] } where
  simplifies := .refl hS
  nonEmpty := hne
  distinct := hd
  remains k d hk _ := ⟨d, hk, .refl, nofun⟩
  line := ⟨[], by simp⟩

/-- The literals of the line and of the clauses are literals of `S` or `u`. -/
theorem Progress.mem_literalsWith (h : Progress S u done w) {m : Literal}
    (hm : m ∈ done ++ w.queue ∨ ∃ c ∈ w.store.clauses, m ∈ c.literals) : m ∈ S.literalsWith u := by
  rw [ClauseStore.mem_literalsWith]
  have hclause : (∃ c ∈ w.store.clauses, m ∈ c.literals) → ∃ c ∈ S.clauses, m ∈ c.literals := by
    rintro ⟨d, hd, hm⟩
    obtain ⟨k, hk⟩ := mem_clauses.1 hd
    obtain ⟨c, hc, hsub⟩ := h.simplifies.shrinks k d hk
    exact ⟨c, get?_mem hc, hsub.subset hm⟩
  rcases hm with hm | hm
  · obtain ⟨fs, hfs, -, -, hstand⟩ := h.line
    rw [hfs, List.mem_cons] at hm
    rcases hm with rfl | hm
    · exact .inl rfl
    · obtain ⟨c, hc, hl⟩ := hstand m hm
      exact .inr (hclause ⟨c, hc, by simp [hl]⟩)
  · exact .inr (hclause hm)

theorem Progress.pass (h : Progress S u done w) (hS : S.OneAtom u) {l : Literal}
    {rest : List Literal} (hq : w.queue = l :: rest) :
    Progress S u (done ++ [l]) ({ w with queue := rest }.pass l) := by
  obtain ⟨fs, hfs, hforced, hpositive, hstand⟩ := h.line
  have hvis := visited_pass l { w with queue := rest } h.simplifies.valid
  obtain ⟨ls, hls⟩ := pass_pushes l { w with queue := rest }
  have hl : l ∈ done ++ w.queue := by simp [hq]
  constructor
  case simplifies =>
    apply h.simplifies.trans hvis.simplifies
    rw [hfs, List.mem_cons] at hl
    exact hl.imp id (hstand l)
  case nonEmpty =>
    intro d hd
    obtain ⟨k, hk⟩ := mem_clauses.1 hd
    obtain ⟨c, hc, ⟨-, rfl⟩ | ⟨hlong, -, hrem⟩⟩ := pass_get? l { w with queue := rest } k hk
    · exact h.nonEmpty d (get?_mem hc)
    · have hmem : ∀ m ∈ c.literals, m ∈ S.literalsWith u :=
        fun m hm => h.mem_literalsWith (.inr ⟨c, get?_mem hc, hm⟩)
      exact hrem.ne_nil hlong fun m hm n hn => hS m (hmem m hm) n (hmem n hn)
  case distinct => exact pass_distinct l { w with queue := rest } h.distinct
  case remains =>
    intro k e he hlong
    obtain ⟨d, hd, ⟨hshort, rfl⟩ | ⟨hlong', hnot, hrem⟩⟩ := pass_get? l { w with queue := rest } k he
    · rw [hlong] at hshort
      cases hshort
    · obtain ⟨c, hc, hrem', hnot'⟩ := h.remains k d hd hlong'
      refine ⟨c, hc, hrem'.trans hrem, ?_⟩
      intro m hm hmem
      have hmem := hrem.sublist.subset hmem
      rcases List.mem_append.1 hm with hm | hm
      · exact hnot' m hm hmem
      · exact hnot (List.mem_singleton.1 hm ▸ hmem)
  case line =>
    have hline : done ++ [l] ++ (rest ++ ls) = u :: (fs ++ ls) := by
      rw [← List.cons_append, ← hfs, hq]
      simp
    refine ⟨fs ++ ls, by rw [hls.queue, hline], ?_, ?_, ?_⟩
    · rw [hls.forced, List.length_append, ← hforced]
    · rw [hls.learnedPositive, List.any_append, ← hpositive]
    · intro f hf
      rcases List.mem_append.1 hf with hf | hf
      · exact hvis.simplifies.single (hstand f hf)
      · obtain ⟨ms, hms, hnew⟩ := hvis.line
        rw [hls.queue] at hms
        exact hnew f (List.append_cancel_left hms ▸ hf)

theorem Progress.run (h : Progress S u done w) (hS : S.OneAtom u) (fuel : Nat) :
    Progress S u (done ++ taken fuel w) (run fuel w) := by
  induction fuel generalizing done w with
  | zero =>
    rw [taken, Wave.run, List.append_nil]
    exact h
  | succ fuel ih =>
    cases hq : w.queue with
    | nil =>
      rw [Wave.run_of_queue_nil hq, taken, hq, List.append_nil]
      exact h
    | cons l rest =>
      rw [taken, Wave.run, hq, List.append_cons]
      exact ih (h.pass hS hq)

end

end Wave

/-- The literals forced when `u` is propagated, in the order in which they are propagated. -/
def forced (S : ClauseStore) (u : Literal) : List Literal :=
  (Wave.taken (S.size + 1) { store := S, queue := [u] }).tail

section

variable {S T : ClauseStore} {u : Literal}

/-- Where no clause is of several literals, to propagate is to do nothing. -/
theorem run_of_monomial (h : ∀ c ∈ S.clauses, isLong c = false) :
    Wave.run (S.size + 1) { store := S, queue := [u] } = { store := S, queue := [] } := by
  have hkeys : S.entries.filter (fun e => isLong e.2) = [] := by
    rw [List.filter_eq_nil_iff]
    intro e he
    rw [h e.2 (get?_mem (mem_entries.1 he))]
    exact Bool.false_ne_true
  have hpass : Wave.pass { store := S, queue := [] } u = { store := S, queue := [] } := by
    rw [Wave.pass, hkeys]
    rfl
  rw [Wave.run]
  dsimp only
  rw [hpass]
  exact Wave.run_of_queue_nil rfl _

theorem propagate_eq_run (h : S.NonEmpty) : S.propagate u =
    .ok ((Wave.run (S.size + 1) { store := S, queue := [u] }).report,
      (Wave.run (S.size + 1) { store := S, queue := [u] }).store) := by
  obtain ⟨b, hb⟩ := exists_isMonomial h
  rw [propagate, hb]
  cases b with
  | true =>
    rw [run_of_monomial fun c hc => ?_]
    · rfl
    · obtain ⟨l, hl⟩ := (isMonomial_eq_ok hb).1 rfl c hc
      exact isLong_of_single hl
  | false => rfl

theorem Simplifies.models (h : Simplifies u S T) (hS : S.OneAtom u) (v : Atom → Bool) :
    (u.Holds v ∧ T.Holds v) ↔ (u.Holds v ∧ S.Holds v) := by
  apply and_congr_right
  intro hu
  constructor
  · intro hT c hc
    rcases h.covered c hc with hmem | ⟨d, hd, hsub⟩
    · exact ⟨u, hmem, hu⟩
    · obtain ⟨l, hl, hv⟩ := hT d hd
      exact ⟨l, hsub l hl, hv⟩
  · intro hSv d hd
    have hcons : Consistent fun l => l.Holds v ∧ l ∈ S.literalsWith u := by
      rintro l m ⟨hl, hlm⟩ ⟨hm, hmm⟩
      apply Bool.eq_false_iff.2
      intro hcomp
      obtain ⟨hconst, hsign⟩ := isComplement_eq_true.1 hcomp
      have hatom := hS l hlm m hmm hconst
      rw [Literal.Holds, hatom, hsign, hm] at hl
      cases hs : m.negated <;> simp [hs] at hl
    obtain ⟨l, hl, hv, -⟩ := h.kept _ hcons ⟨hu, mem_literalsWith.2 (.inl rfl)⟩ (fun c hc => by
      obtain ⟨l, hl, hv⟩ := hSv c hc
      exact ⟨l, hl, hv, mem_literalsWith.2 (.inr ⟨c, hc, hl⟩)⟩) d hd
    exact ⟨l, hl, hv⟩

/-- A clause that is left mentions a propagated literal in neither sign. -/
theorem Remains.settled {c d : Clause} {ls : List Literal} {f m : Literal} (h : Remains ls c d)
    (hone : S.OneAtom u) (hf : f ∈ ls) (hfd : f ∉ d.literals) (hm : m ∈ d.literals)
    (hfS : f ∈ S.literalsWith u) (hmS : m ∈ S.literalsWith u) : m.constraint ≠ f.constraint := by
  intro hconst
  have hcomp := h.not_complement hm hf
  have hsign : m.negated = f.negated := by
    by_contra hne
    rw [isComplement_eq_true.2 ⟨hconst, Bool.eq_not.2 hne⟩] at hcomp
    cases hcomp
  exact hfd (hone.eq hmS hfS hconst hsign ▸ hm)

end

end ClauseStore

end Acquisition
