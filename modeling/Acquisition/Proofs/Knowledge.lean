import Acquisition.Learner.Answer
import Acquisition.Proofs.Contracts
import Acquisition.Proofs.Propagation

/-!
# What a learner knows

Two things are kept apart here. Whatever the answers are, the state of a learner stays
well formed: the theory has clauses of positive literals of the bias, and a long clause
mentions a constraint that was ruled out only where the negation of the constraint was
learnt. And whatever is true in the end stays true: if the constraints that hold satisfy
every clause and are all undecided, they still do so after the next step.

The second is about a set of constraints that is told from outside. Each step says under
which condition on that set it loses nothing.
-/
namespace Acquisition

open Checked IndexSet ClauseStore

variable {σ : Type} {issued : Issued σ} {s t : σ}

/-- Each entry of the table is a positive literal of its constraint, with an atom that was
handed out for it and for no other constraint of the table. -/
structure AtomTable.Names (issued : Issued σ) (s : σ) (T : AtomTable) : Prop where
  entry : ∀ c l, T.literal c = .ok l →
    l.negated = false ∧ l.constraint = c ∧ issued s l.atom c
  apart : ∀ c d l m, T.literal c = .ok l → T.literal d = .ok m → l.atom = m.atom → c = d

theorem AtomTable.Names.grows {T : AtomTable} (h : T.Names issued s) (hg : issued.Grows s t) :
    T.Names issued t where
  entry := fun c l hl => by
    obtain ⟨hn, hc, hi⟩ := h.entry c l hl
    exact ⟨hn, hc, hg _ _ hi⟩
  apart := h.apart

/-- Whether the literal is the one that the table has for its constraint. -/
def AtomTable.Lists (T : AtomTable) (l : Literal) : Prop := T.literal l.constraint = .ok l

theorem AtomTable.Lists.eq {T : AtomTable} {l m : Literal} (hl : T.Lists l) (hm : T.Lists m)
    (h : l.constraint = m.constraint) : l = m := by
  rw [Lists, h] at hl
  exact Except.ok.inj (hl.symm.trans hm)

theorem AtomTable.Names.lists {T : AtomTable} (h : T.Names issued s) {c : ConstraintId}
    {l : Literal} (hl : T.literal c = .ok l) : T.Lists l := by
  rw [Lists, (h.entry c l hl).2.1]
  exact hl

theorem AtomTable.Names.positive {T : AtomTable} (h : T.Names issued s) {l : Literal}
    (hl : T.Lists l) : l.negated = false := (h.entry _ _ hl).1

/-- A store over the literals of some constraints, where a clause of more than one literal
names a constraint that is no longer open only if the negation of the constraint is
learnt, or is about to be. -/
structure AtomTable.Formed (T : AtomTable) (bias opens : IndexSet) (due : Literal → Prop)
    (S : ClauseStore) : Prop where
  valid : S.Valid
  nonEmpty : S.NonEmpty
  listed : ∀ c ∈ S.clauses, ∀ l ∈ c.literals, l.constraint ∈ bias ∧ T.Lists l
  stale : ∀ c ∈ S.clauses, isLong c = true → ∀ l ∈ c.literals, l.constraint ∈ opens ∨
    ∃ m, T.literal (Arena.twin l.constraint) = .ok m ∧ (due m ∨ ∃ d ∈ S.clauses, d.literals = [m])

namespace AtomTable.Formed

variable {T : AtomTable} {bias opens : IndexSet} {due : Literal → Prop} {S : ClauseStore}

theorem separate (h : T.Formed bias opens due S) : S.Separate := fun c hc => by
  refine List.Nodup.map_on (fun l hl m hm e => ?_) c.nodup
  exact (h.listed c hc l hl).2.eq (h.listed c hc m hm).2 e

theorem simplifies (h : T.Formed bias opens due S) {l : Literal} {S' : ClauseStore}
    (hS : Simplifies l S S') : T.Formed bias opens due S' where
  valid := hS.valid
  nonEmpty := hS.nonEmpty h.separate h.nonEmpty
  listed := fun d hd m hm => by
    obtain ⟨k, hk⟩ := mem_clauses.1 hd
    obtain ⟨c, hc, hsub⟩ := hS.shrinks k d hk
    exact h.listed c (get?_mem hc) m (hsub.subset hm)
  stale := fun d hd hlong m hm => by
    obtain ⟨k, hk⟩ := mem_clauses.1 hd
    obtain ⟨c, hc, hsub⟩ := hS.shrinks k d hk
    refine (h.stale c (get?_mem hc) (isLong_of_sublist hsub hlong) m (hsub.subset hm)).imp id ?_
    rintro ⟨n, hn, hdue⟩
    exact ⟨n, hn, hdue.imp id hS.single⟩

/-- Clauses may be exchanged for others as long as the short ones stay. -/
theorem exchange (h : T.Formed bias opens due S) {S' : ClauseStore} {due' : Literal → Prop}
    (hv : S'.Valid)
    (hfrom : ∀ d ∈ S'.clauses, (∃ c ∈ S.clauses, c.literals = d.literals) ∨
      (d.literals ≠ [] ∧ (∀ l ∈ d.literals, l.constraint ∈ bias ∧ T.Lists l) ∧
        (isLong d = true → ∀ l ∈ d.literals, l.constraint ∈ opens)))
    (hdue : ∀ m, due m → due' m ∨ ∃ d ∈ S'.clauses, d.literals = [m])
    (hshort : ∀ c ∈ S.clauses, ∀ m, c.literals = [m] →
      due' m ∨ ∃ d ∈ S'.clauses, d.literals = [m]) :
    T.Formed bias opens due' S' where
  valid := hv
  nonEmpty := fun d hd => by
    rcases hfrom d hd with ⟨c, hc, e⟩ | ⟨hne, -⟩
    · exact e ▸ h.nonEmpty c hc
    · exact hne
  listed := fun d hd l hl => by
    rcases hfrom d hd with ⟨c, hc, e⟩ | ⟨-, hlist, -⟩
    · exact h.listed c hc l (e ▸ hl)
    · exact hlist l hl
  stale := fun d hd hlong l hl => by
    rcases hfrom d hd with ⟨c, hc, e⟩ | ⟨-, -, hopen⟩
    · refine (h.stale c hc (isLong_congr e ▸ hlong) l (e ▸ hl)).imp id ?_
      rintro ⟨n, hn, hn' | ⟨u, hu, hul⟩⟩
      · exact ⟨n, hn, hdue n hn'⟩
      · exact ⟨n, hn, hshort u hu n hul⟩
    · exact .inl (hopen hlong l hl)

theorem adding (h : T.Formed bias opens due S) {due' : Literal → Prop} {c : Clause}
    (hne : c.literals ≠ []) (hlist : ∀ l ∈ c.literals, l.constraint ∈ bias ∧ T.Lists l)
    (hopen : isLong c = true → ∀ l ∈ c.literals, l.constraint ∈ opens)
    (hdue : ∀ m, due m → due' m ∨ c.literals = [m]) : T.Formed bias opens due' (S.adding c) := by
  obtain ⟨d, hd, hl⟩ := exists_adding h.valid c
  refine h.exchange (h.valid.adding c) (fun e he => ?_) (fun m hm => ?_) fun e he m hm => ?_
  · rcases mem_of_mem_adding h.valid he with rfl | he
    · exact .inr ⟨hne, hlist, hopen⟩
    · exact .inl ⟨e, he, rfl⟩
  · exact (hdue m hm).imp id fun hc => ⟨d, hd, hl.trans hc⟩
  · exact .inr ⟨e, mem_adding_of_mem h.valid c he, hm⟩

theorem addReduced (h : T.Formed bias opens due S) {c : Clause}
    (hne : c.literals ≠ []) (hlist : ∀ l ∈ c.literals, l.constraint ∈ bias ∧ T.Lists l)
    (hopen : isLong c = true → ∀ l ∈ c.literals, l.constraint ∈ opens) :
    T.Formed bias opens due (S.addReduced c).2 := by
  have hmem : ∀ d ∈ (S.addReduced c).2.clauses, d.literals ≠ [] := fun d hd => by
    rcases mem_of_mem_addReduced h.valid hd with rfl | hd
    · exact hne
    · exact h.nonEmpty d hd
  refine h.exchange (h.valid.addReduced c) (fun e he => ?_) (fun m hm => .inl hm)
    fun e he m hm => .inr ?_
  · rcases mem_of_mem_addReduced h.valid he with rfl | he
    · exact .inr ⟨hne, hlist, hopen⟩
    · exact .inl ⟨e, he, rfl⟩
  · obtain ⟨d, hd, hsub⟩ := exists_addReduced h.valid (c := c) (.inl he)
    refine ⟨d, hd, ?_⟩
    -- What covers a single literal is that literal.
    rw [hm] at hsub
    match hdl : d.literals with
    | [] => exact absurd hdl (hmem d hd)
    | [l] => rw [List.mem_singleton.1 (hsub l (by simp [hdl]))]
    | l :: l' :: ls =>
      have hl := List.mem_singleton.1 (hsub l (by simp [hdl]))
      have hl' := List.mem_singleton.1 (hsub l' (by simp [hdl]))
      have hnd := d.nodup
      simp [hdl, hl, hl'] at hnd

/-- A constraint is no longer open where no long clause names it, or where its negation
is learnt. -/
theorem reduce (h : T.Formed bias opens due S) {opens' : IndexSet}
    (hopen : ∀ c ∈ S.clauses, isLong c = true → ∀ l ∈ c.literals, l.constraint ∈ opens →
      l.constraint ∈ opens' ∨ ∃ m, T.literal (Arena.twin l.constraint) = .ok m ∧
        (due m ∨ ∃ d ∈ S.clauses, d.literals = [m])) :
    T.Formed bias opens' due S where
  valid := h.valid
  nonEmpty := h.nonEmpty
  listed := h.listed
  stale := fun c hc hlong l hl => (h.stale c hc hlong l hl).elim (hopen c hc hlong l hl) .inr

/-- Marks have no bearing on what a store says. -/
theorem sameLiterals (h : T.Formed bias opens due S) {S' : ClauseStore} (hv : S'.Valid)
    (hS : S.SameLiterals S') : T.Formed bias opens due S' := by
  refine h.exchange hv (fun d hd => ?_) (fun m hm => .inl hm) fun c hc m hm => .inr ?_
  · obtain ⟨c, hc, e⟩ := hS.mem hd
    exact .inl ⟨c, hc, e⟩
  · obtain ⟨d, hd, e⟩ := hS.symm.mem hc
    exact ⟨d, hd, e.trans hm⟩

end AtomTable.Formed

namespace Learner

/-- The state of a learner is well formed, whatever it was told. -/
structure Wf (issued : Issued σ) (s : σ) (L : Learner) : Prop where
  built : L.arena.Built
  closed : L.bias.network.Closed L.arena
  known : L.known.Closed L.arena
  names : L.atoms.Names issued s
  atoms : ∀ c ∈ L.bias.constraints, (∃ l, L.atoms.literal c = .ok l) ∧
    ∃ l, L.atoms.literal (Arena.twin c) = .ok l
  registered : ∀ c l, L.atoms.literal c = .ok l → L.arena.Registered c
  undecided : L.undecided.constraints ⊆ L.bias.constraints
  theory : L.atoms.Formed L.bias.constraints L.undecided.constraints (fun _ => False) L.theory
  background : ∀ c ∈ L.background.clauses, ∀ l ∈ c.literals, L.atoms.Lists l.negate
  kept : L.background.Valid

/-- What is known never gets lost: each clause is covered by one that is there later, and
no constraint becomes undecided again. -/
structure Evolves (L L' : Learner) : Prop where
  arena : L'.arena = L.arena
  atoms : L'.atoms = L.atoms
  bias : L'.bias = L.bias
  known : L'.known = L.known
  passive : L'.passive = L.passive
  strategies : ∀ N ∈ L'.strategies, N ∈ L.strategies
  undecided : L'.undecided.constraints ⊆ L.undecided.constraints
  theory : ∀ c ∈ L.theory.clauses, ∃ d ∈ L'.theory.clauses, ∀ l ∈ d.literals, l ∈ c.literals

theorem Evolves.refl (L : Learner) : L.Evolves L :=
  ⟨rfl, rfl, rfl, rfl, rfl, fun _ => id, Subset.refl _, fun c hc => ⟨c, hc, fun _ h => h⟩⟩

theorem Evolves.trans {L L' L'' : Learner} (h : L.Evolves L') (h' : L'.Evolves L'') :
    L.Evolves L'' where
  arena := h'.arena.trans h.arena
  atoms := h'.atoms.trans h.atoms
  bias := h'.bias.trans h.bias
  known := h'.known.trans h.known
  passive := h'.passive.trans h.passive
  strategies := fun N hN => h.strategies N (h'.strategies N hN)
  undecided := Subset.trans h'.undecided h.undecided
  theory := fun c hc => by
    obtain ⟨d, hd, hdc⟩ := h.theory c hc
    obtain ⟨e, he, hed⟩ := h'.theory d hd
    exact ⟨e, he, fun l hl => hdc l (hed l hl)⟩

/-- The variables of the bias and of the constraints known from the start. -/
def span (L : Learner) : IndexSet := L.bias.scope.union L.known.scope

theorem bias_subset_span (L : Learner) : L.bias.scope ⊆ L.span := fun _ hv =>
  mem_union.2 (.inl hv)

theorem span_of_known {L : Learner} (h : L.known = {}) : L.span = L.bias.scope := ext_mem fun v => by
  rw [span, h, mem_union]
  exact or_iff_left (mem_empty v)

theorem Evolves.span {L L' : Learner} (h : L.Evolves L') : L'.span = L.span := by
  rw [Learner.span, Learner.span, h.bias, h.known]

/-- The constraints of `W` satisfy all that is known: each clause names one of them, they
are all undecided, none is the negation of another, and the contradictions are real. -/
structure Sound (dom : Ranges) (W : ConstraintId → Prop) (L : Learner) : Prop where
  theory : ∀ c ∈ L.theory.clauses, ∃ l ∈ c.literals, W l.constraint
  undecided : ∀ c, W c → c ∈ L.undecided.constraints
  apart : ∀ c, W c → ¬ W (Arena.twin c)
  background : ∀ c ∈ L.background.clauses, ∀ f : Valuation, f.Within dom L.span →
    ∃ l ∈ c.literals, ¬ L.arena.Holds f l.constraint

/-- Where a step may lead from `L`: the state is well formed, nothing known was lost, and
nothing true was lost if what is true is as `P` asks. -/
structure Continues (issued : Issued σ) (dom : Ranges) (L : Learner)
    (P : (ConstraintId → Prop) → Prop) (p : Learner × σ) : Prop where
  wf : p.1.Wf issued p.2
  evolves : L.Evolves p.1
  sound : ∀ W, P W → L.Sound dom W → p.1.Sound dom W

/-- Where a step may stop short. -/
structure Stops (issued : Issued σ) (L : Learner) (p : Learner × σ) : Prop where
  wf : p.1.Wf issued p.2
  evolves : L.Evolves p.1

/-- What is given to a learner makes sense: there is an assignment at all, and each
constraint of the table is about variables of the bias or of what is known. -/
structure Grounded (dom : Ranges) (L : Learner) : Prop where
  inhabited : ∃ f : Valuation, f.Within dom L.span
  confined : ∀ c l, L.atoms.literal c = .ok l → ∀ v, L.arena.Mentions c v → v ∈ L.span

/-- How a learner may fail if what it is given makes sense: its fuel or its time is up, a
sum leaves its word, or a backend fails. -/
def Spent (Err : Failure → σ → Prop) (f : Failure) (t : σ) : Prop :=
  f = .outOfFuel ∨ f = .error .timeout ∨ f = .fault .overflow ∨ Err f t

/-- A failure that leaves the learner well formed. -/
structure Lapses (issued : Issued σ) (dom : Ranges) (Err : Failure → σ → Prop) (L : Learner)
    (f : Failure) (p : Learner × σ) : Prop extends Stops issued L p where
  spent : L.Grounded dom → Spent Err f p.2

section

variable {dom : Ranges} {Err : Failure → σ → Prop} {f : Failure} {L L' : Learner}
  {P Q R : (ConstraintId → Prop) → Prop}
  {p q : Learner × σ}

theorem Wf.grows (h : L.Wf issued s) (hg : issued.Grows s t) : L.Wf issued t :=
  ⟨h.built, h.closed, h.known, h.names.grows hg, h.atoms, h.registered, h.undecided, h.theory,
    h.background, h.kept⟩

theorem Continues.refl (h : L.Wf issued s) : L.Continues issued dom P (L, s) :=
  ⟨h, .refl L, fun _ _ h => h⟩

theorem Continues.stops (h : L.Continues issued dom P p) : L.Stops issued p := ⟨h.wf, h.evolves⟩

theorem Continues.mono (h : L.Continues issued dom P p)
    (hPQ : ∀ W, L.Sound dom W → Q W → P W) : L.Continues issued dom Q p :=
  ⟨h.wf, h.evolves, fun W hQ hW => h.sound W (hPQ W hW hQ) hW⟩

theorem Continues.trans (h : L.Continues issued dom P p) (h' : p.1.Continues issued dom Q q)
    (hP : ∀ W, L.Sound dom W → R W → P W)
    (hQ : ∀ W, p.1.Sound dom W → R W → Q W) : L.Continues issued dom R q where
  wf := h'.wf
  evolves := h.evolves.trans h'.evolves
  sound := fun W hR hW => by
    have hW' := h.sound W (hP W hW hR) hW
    exact h'.sound W (hQ W hW' hR) hW'

theorem Stops.after (h : L.Continues issued dom P p) (h' : p.1.Stops issued q) :
    L.Stops issued q := ⟨h'.wf, h.evolves.trans h'.evolves⟩

theorem Evolves.grounded (h : L.Evolves L') (hL : L.Grounded dom) : L'.Grounded dom where
  inhabited := h.span ▸ hL.inhabited
  confined := by
    rw [h.atoms, h.arena, h.span]
    exact hL.confined

theorem Lapses.after (h : L.Continues issued dom P p) (h' : p.1.Lapses issued dom Err f q) :
    L.Lapses issued dom Err f q where
  toStops := .after h h'.toStops
  spent := fun hL => h'.spent (h.evolves.grounded hL)

/-- Learners that differ in what they have noted beside what they know. -/
structure Alike (L L' : Learner) : Prop where
  arena : L'.arena = L.arena
  atoms : L'.atoms = L.atoms
  bias : L'.bias = L.bias
  known : L'.known = L.known
  passive : L'.passive = L.passive
  strategies : ∀ N ∈ L'.strategies, N ∈ L.strategies
  undecided : L'.undecided = L.undecided
  theory : L'.theory = L.theory
  background : L'.background = L.background

theorem alike_counters (L : Learner) (k : Counters) : L.Alike { L with counters := k } :=
  ⟨rfl, rfl, rfl, rfl, rfl, fun _ => id, rfl, rfl, rfl⟩

theorem alike_asked (L : Learner) (qs : List Query) : L.Alike { L with asked := qs } :=
  ⟨rfl, rfl, rfl, rfl, rfl, fun _ => id, rfl, rfl, rfl⟩

theorem alike_limits (L : Learner) (l : Limit) (b : Bool) :
    L.Alike { L with deadline := l, timedOut := b } :=
  ⟨rfl, rfl, rfl, rfl, rfl, fun _ => id, rfl, rfl, rfl⟩

theorem Alike.trans {L'' : Learner} (h : L.Alike L') (h' : L'.Alike L'') : L.Alike L'' where
  arena := h'.arena.trans h.arena
  atoms := h'.atoms.trans h.atoms
  bias := h'.bias.trans h.bias
  known := h'.known.trans h.known
  passive := h'.passive.trans h.passive
  strategies := fun N hN => h.strategies N (h'.strategies N hN)
  undecided := h'.undecided.trans h.undecided
  theory := h'.theory.trans h.theory
  background := h'.background.trans h.background

theorem Alike.wf (h : L.Alike L') (hL : L.Wf issued s) : L'.Wf issued s := by
  obtain ⟨h₁, h₂, h₃, h₄, -, -, h₅, h₆, h₇⟩ := h
  refine ⟨h₁ ▸ hL.built, ?_, ?_, h₂ ▸ hL.names, ?_, ?_, ?_, ?_, ?_, h₇ ▸ hL.kept⟩
  · rw [h₁, h₃]
    exact hL.closed
  · rw [h₁, h₄]
    exact hL.known
  · rw [h₂, h₃]
    exact hL.atoms
  · rw [h₁, h₂]
    exact hL.registered
  · rw [h₃, h₅]
    exact hL.undecided
  · rw [h₂, h₃, h₅, h₆]
    exact hL.theory
  · rw [h₂, h₇]
    exact hL.background

theorem Alike.evolves (h : L.Alike L') : L.Evolves L' where
  arena := h.arena
  atoms := h.atoms
  bias := h.bias
  known := h.known
  passive := h.passive
  strategies := h.strategies
  undecided := h.undecided ▸ Subset.refl _
  theory := h.theory ▸ fun c hc => ⟨c, hc, fun _ h => h⟩

theorem Alike.sound {W : ConstraintId → Prop} (h : L.Alike L') (hL : L.Sound dom W) :
    L'.Sound dom W where
  theory := h.theory ▸ hL.theory
  undecided := h.undecided ▸ hL.undecided
  apart := hL.apart
  background := by
    rw [h.background, h.evolves.span, h.arena]
    exact hL.background

theorem Alike.continues (h : L.Alike L') (hL : L.Wf issued s) :
    L.Continues issued dom P (L', s) := ⟨h.wf hL, h.evolves, fun _ _ => h.sound⟩

theorem Alike.before (h : L.Alike L') (h' : L'.Continues issued dom P p) :
    L.Continues issued dom P p :=
  ⟨h'.wf, h.evolves.trans h'.evolves, fun W hP hW => h'.sound W hP (h.sound hW)⟩

theorem Alike.lapses (h : L.Alike L') (h' : L'.Lapses issued dom Err f p) :
    L.Lapses issued dom Err f p where
  wf := h'.wf
  evolves := h.evolves.trans h'.evolves
  spent := fun hL => h'.spent (h.evolves.grounded hL)

theorem Continues.alike (h : L.Continues issued dom P (L', s)) {L'' : Learner}
    (h' : L'.Alike L'') : L.Continues issued dom P (L'', s) :=
  ⟨h'.wf h.wf, h.evolves.trans h'.evolves, fun W hP hW => h'.sound (h.sound W hP hW)⟩

/-- Some clause of the theory is about the constraint alone. -/
def Decided (L : Learner) (c : ConstraintId) : Prop :=
  ∃ d ∈ L.theory.clauses, ∀ l ∈ d.literals, l.constraint = c

theorem Evolves.decided (h : L.Evolves L') {c : ConstraintId}
    (hc : L.Decided c) : L'.Decided c := by
  obtain ⟨d, hd, hdc⟩ := hc
  obtain ⟨e, he, hed⟩ := h.theory d hd
  exact ⟨e, he, fun l hl => hdc l (hed l hl)⟩

theorem Sound.decided {W : ConstraintId → Prop} (hW : L.Sound dom W) {c : ConstraintId}
    (hc : L.Decided c) : W c := by
  obtain ⟨d, hd, hdc⟩ := hc
  obtain ⟨l, hl, hWl⟩ := hW.theory d hd
  exact hdc l hl ▸ hWl

end

end Learner

end Acquisition
