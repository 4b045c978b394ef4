import Acquisition.Learner.Generate
import Acquisition.Proofs.Conflict
import Acquisition.Proofs.Splitting

/-!
# Attempts at a split

An attempt leaves the theory as it is, commits the constraints of a pivot, or adds a
contradiction to the background. That nothing true is lost by a commitment hangs on the
formula without a model: if some solution of the target violated a constraint of the
pivot, then the constraints that hold on it would be a model.

A query that comes out of an attempt is a solution that leaves open what the theory says:
the theory has a model in which every constraint that fails on the query is false.
-/
namespace Acquisition

open Checked IndexSet ClauseStore

/-- What is asked of the backends of an acquisition together. -/
structure Backends.Lawful {σ : Type} (B : Backends σ) (issued : Issued σ) (dom : Ranges)
    (Err : Failure → σ → Prop) : Prop where
  sat : B.sat.Lawful issued Err
  cp : B.cp.Lawful dom Err
  keeps : B.cp.Keeps issued
  setLimit : ∀ l s, (B.cp.setLimit l).Leads s (fun _ _ => True) Err

namespace Learner

variable {σ : Type} {issued : Issued σ} {s : σ} {dom : Ranges} {Err : Failure → σ → Prop}
  {L : Learner}

@[simp] theorem leads_poll (p : Learner × σ) (Q : Unit → Learner × σ → Prop)
    (E : Failure → Learner × σ → Prop) :
    Action.Leads (poll : Procedure Learner σ Unit) p Q E ↔
      (p.1.deadline = .unbounded → Q () p) ∧
        (p.1.deadline = .passed → E (.error .timeout) p) := by
  simp [poll]

/-- What is true of the target, told by some solutions of what is known: the constraints of
`W` hold on each of them, and among those that `D` is about `W` has each undecided constraint
that does. -/
def Confined (dom : Ranges) (D : ConstraintId → Prop) (L : Learner) (W : ConstraintId → Prop) :
    Prop :=
  ∃ X : Valuation → Prop, (∃ f, X f) ∧ (∀ f, X f → f.Within dom L.span) ∧
    (∀ c, W c ∨ c ∈ L.known.constraints → ∀ f, X f → L.arena.Holds f c) ∧
    ∀ c ∈ L.undecided.constraints, (∀ f, X f → L.arena.Holds f c) → D c → W c

theorem Confined.mono {D D' W : ConstraintId → Prop} (h : L.Confined dom D W)
    (hD : ∀ c, D' c → D c) : L.Confined dom D' W := by
  obtain ⟨X, hX, hwithin, hholds, hall⟩ := h
  exact ⟨X, hX, hwithin, hholds, fun c hc hf hc' => hall c hc hf (hD c hc')⟩

theorem Evolves.confined {L' : Learner} (h : L.Evolves L') {D W : ConstraintId → Prop}
    (hW : L.Confined dom D W) : L'.Confined dom D W := by
  obtain ⟨X, hX, hwithin, hholds, hall⟩ := hW
  refine ⟨X, hX, h.span ▸ hwithin, h.known ▸ h.arena ▸ hholds, fun c hc hf => ?_⟩
  rw [h.arena] at hf
  exact hall c (h.undecided c hc) hf

/-- A failure before which nothing was lost that is true of the target. -/
structure Breaks (issued : Issued σ) (dom : Ranges) (Err : Failure → σ → Prop) (L : Learner)
    (f : Failure) (p : Learner × σ) : Prop extends Lapses issued dom Err L f p where
  sound : ∀ W, L.Grounded dom → L.Confined dom p.1.Decided W → L.Sound dom W → p.1.Sound dom W

section

variable {L' : Learner} {f : Failure} {p p' : Learner × σ}

theorem Alike.breaks (h : L.Alike L') (hL : L.Wf issued s)
    (hspent : L.Grounded dom → Spent Err f s) : L.Breaks issued dom Err f (L', s) where
  wf := h.wf hL
  evolves := h.evolves
  spent := hspent
  sound := fun _ _ _ => h.sound

theorem Alike.before_breaks (h : L.Alike L') (h' : L'.Breaks issued dom Err f p) :
    L.Breaks issued dom Err f p where
  toLapses := h.lapses h'.toLapses
  sound := fun W hG hE hW =>
    h'.sound W (h.evolves.grounded hG) (h.evolves.confined hE) (h.sound hW)

theorem Breaks.after {P : (ConstraintId → Prop) → Prop} (h : L.Continues issued dom P p)
    (h' : p.1.Breaks issued dom Err f p')
    (hP : ∀ W, L.Sound dom W → L.Grounded dom → L.Confined dom p'.1.Decided W → P W) :
    L.Breaks issued dom Err f p' where
  toLapses := .after h h'.toLapses
  sound := fun W hG hE hW => h'.sound W (h.evolves.grounded hG) (h.evolves.confined hE)
    (h.sound W (hP W hW hG hE) hW)

theorem Breaks.continues (h : L.Breaks issued dom Err f p) :
    L.Continues issued dom (fun W => L.Grounded dom ∧ L.Confined dom p.1.Decided W) p :=
  ⟨h.wf, h.evolves, fun W hW => h.sound W hW.1 hW.2⟩

/-- A failure that left everything alone. -/
theorem Wf.breaks (hL : L.Wf issued s) (hspent : L.Grounded dom → Spent Err f s) :
    L.Breaks issued dom Err f (L, s) := (L.alike_counters L.counters).breaks hL hspent

end

/-- A witness of a network changes nothing but a count. -/
theorem leads_witness {cp : CpBackend σ} (hcp : cp.Lawful dom Err) (hk : cp.Keeps issued)
    (hL : L.Wf issued s) {N : Network} (hN : N.Closed L.arena) :
    Action.Leads (witness cp N) (L, s)
      (fun r p => (∃ k, p.1 = { L with counters := k }) ∧ issued.Grows s p.2 ∧
        N.Answered L.arena dom r)
      (L.Breaks issued dom Err) := by
  rw [witness, Action.leads_bind, leads_count, Procedure.leads_callWith]
  refine ((hcp.witness _ N s hL.built hN).and (hk.witness _ N s)).mono
    (fun r t ⟨hr, ht⟩ => ⟨⟨_, rfl⟩, ht, hr⟩) fun f t ⟨hf, ht⟩ => ?_
  exact (L.alike_counters _).breaks (hL.grows ht) fun _ => .inr (.inr (.inr hf))

/-- A query to put to an oracle: it has values for the bias, and the theory has a model in
which no constraint is true that fails on the query. -/
structure Poses (dom : Ranges) (L : Learner) (q : Query) : Prop where
  covers : L.bias.scope ⊆ q.scope
  within : q.valuation.Within dom L.bias.scope
  unclassified : q.verdict = none
  consistent : ∃ v, L.theory.Holds v ∧
    ∀ c, L.atoms.Affirms v c → L.arena.Holds q.valuation c

/-- The pivot has several literals and names a constraint that was ruled out since its
negation, which is in the bias too, was learnt. -/
def Stale (L : Learner) : Prop :=
  ∃ k c, L.pivot = some k ∧ L.theory.get? k = some c ∧ isLong c = true ∧ ∃ l ∈ c.literals,
    l.constraint ∉ L.undecided.constraints ∧
      Arena.twin l.constraint ∈ L.bias.constraints ∧ L.Decided (Arena.twin l.constraint)

/-- A change of marks and of what is noted about the pivot. -/
theorem continues_marked (dom : Ranges) (hL : L.Wf issued s) {S : ClauseStore} (hv : S.Valid)
    (hS : L.theory.SameLiterals S) (pivot : Option ClauseKey) (aim slack : Nat)
    (k : Counters) (P : (ConstraintId → Prop) → Prop) :
    L.Continues issued dom P
      ({ L with theory := S, pivot := pivot, aim := aim, slack := slack, counters := k }, s) where
  wf := ⟨hL.built, hL.closed, hL.known, hL.names, hL.atoms, hL.registered, hL.undecided,
    hL.theory.sameLiterals hv hS, hL.background, hL.kept⟩
  evolves := by
    refine ⟨rfl, rfl, rfl, rfl, rfl, fun _ => id, Subset.refl _, fun c hc => ?_⟩
    obtain ⟨d, hd, e⟩ := hS.symm.mem hc
    exact ⟨d, hd, fun l hl => e ▸ hl⟩
  sound := fun W _ hW => by
    refine ⟨fun d hd => ?_, hW.undecided, hW.apart, hW.background⟩
    obtain ⟨c, hc, e⟩ := hS.mem hd
    obtain ⟨l, hl, hWl⟩ := hW.theory c hc
    exact ⟨l, e ▸ hl, hWl⟩

/-- The pivot that is there is kept. If there is none, a long clause becomes the pivot. -/
inductive Chooses (L : Learner) (k : ClauseKey) (c : Clause) : Learner → Prop
  | kept : L.pivot = some k → L.theory.get? k = some c → Chooses L k c L
  | fresh {S : ClauseStore} : L.pivot.bind L.theory.get? = none → S.Valid →
      L.theory.SameLiterals S → S.get? k = some c → isLong c = true →
      Chooses L k c { L with theory := S, pivot := some k, aim := 1, slack := 0 }

/-- As long as there is a clause of several literals there is a pivot, unless weights are too
great. -/
theorem leads_choosePivot_or_overflow (hL : L.Wf issued s)
    (hlong : ∃ c ∈ L.theory.clauses, isLong c = true) :
    Action.Leads (choosePivot : Procedure Learner σ Unit) (L, s)
      (fun _ p => p.2 = s ∧ ∃ k c, L.Chooses k c p.1)
      (fun f p => f = .fault .overflow ∧ p = (L, s)) := by
  rw [choosePivot, Action.leads_bind, Procedure.leads_own]
  split
  · next hpivot =>
    obtain ⟨c, hc⟩ := Option.isSome_iff_exists.1 hpivot
    obtain ⟨k, hk, hc⟩ := Option.bind_eq_some_iff.1 hc
    exact ⟨rfl, k, c, .kept hk hc⟩
  · next hnone =>
    rw [Action.leads_bind, Procedure.leads_check]
    refine ⟨fun r hr => ⟨rfl, ?_⟩, fun e he => ⟨?_, rfl⟩⟩
    · obtain ⟨pivot, S⟩ := r
      obtain ⟨hv, hS, hsome, hno⟩ := select_eq_ok hL.theory.valid hr
      cases pivot with
      | some k =>
        obtain ⟨c, hc, hlong⟩ := hsome k rfl
        exact ⟨k, c, .fresh (Option.not_isSome_iff_eq_none.1 hnone) hv hS hc hlong⟩
      | none =>
        obtain ⟨c, hc, hlong⟩ := hlong
        rw [hno rfl c hc] at hlong
        cases hlong
    · obtain ⟨c, hc, hw⟩ := select_error he
      rw [Clause.weight_error (fun l hl => hL.registered _ l (hL.theory.listed c hc l hl).2) hw]

theorem leads_choosePivot (hL : L.Wf issued s)
    (hlong : ∃ c ∈ L.theory.clauses, isLong c = true) :
    Action.Leads (choosePivot : Procedure Learner σ Unit) (L, s)
      (fun _ p => ∃ S pivot aim slack,
        p = ({ L with theory := S, pivot := pivot, aim := aim, slack := slack }, s) ∧ S.Valid ∧
        L.theory.SameLiterals S ∧ ∃ k c, pivot = some k ∧ S.get? k = some c)
      (L.Breaks issued dom Err) := by
  apply (leads_choosePivot_or_overflow hL hlong).mono
  · rintro - ⟨L', t⟩ ⟨rfl, k, c, hchooses⟩
    cases hchooses with
    | kept hk hc => exact ⟨_, _, _, _, rfl, hL.theory.valid, .refl _, k, c, hk, hc⟩
    | fresh _ hv hS hc _ => exact ⟨_, some k, 1, 0, rfl, hv, hS, k, c, rfl, hc⟩
  · rintro f p ⟨rfl, rfl⟩
    exact hL.breaks fun _ => .inr (.inr (.inl rfl))

/-- What became of a theory when the given literals were committed. -/
structure Committed (L : Learner) (ls : List Literal) (S : ClauseStore) (U : Bias) : Prop where
  formed : L.atoms.Formed L.bias.constraints U.constraints (fun _ => False) S
  undecided : U.constraints ⊆ L.undecided.constraints
  kept : ∀ c ∈ L.undecided.constraints, (∀ l ∈ ls, c ≠ Arena.twin l.constraint) →
    c ∈ U.constraints
  covered : ∀ d ∈ L.theory.clauses, ∃ e ∈ S.clauses, ∀ l ∈ e.literals, l ∈ d.literals
  units : ∀ l ∈ ls, ∃ e ∈ S.clauses, e.literals = [l]
  sound : ∀ W : ConstraintId → Prop, (∀ l ∈ ls, W l.constraint) →
    (∀ c ∈ L.theory.clauses, ∃ l ∈ c.literals, W l.constraint) →
    ∀ d ∈ S.clauses, ∃ l ∈ d.literals, W l.constraint

theorem Committed.refl
    (hS : L.atoms.Formed L.bias.constraints L.undecided.constraints (· ∈ ([] : List Literal))
      L.theory) : L.Committed [] L.theory L.undecided where
  formed := by
    refine hS.exchange hS.valid (fun d hd => .inl ⟨d, hd, rfl⟩) (by simp) fun c hc m hm => ?_
    exact .inr ⟨c, hc, hm⟩
  undecided := Subset.refl _
  kept c hc _ := hc
  covered d hd := ⟨d, hd, fun _ h => h⟩
  units := nofun
  sound _ _ h := h

/-- The first literal committed is propagated, and its clause stays to the end. -/
theorem Committed.cons {origin : Option Query} {l : Literal} {ls : List Literal}
    {S S' : ClauseStore} {U : Bias} {k : Counters} (hT : L.atoms.Names issued s)
    (hl : L.atoms.Lists l) (hv : L.theory.Valid)
    (hadded : L.atoms.Formed L.bias.constraints L.undecided.constraints (· ∈ ls)
      (L.theory.adding ((Clause.ofLiteral l).withOrigin origin)))
    (hsimp : Simplifies l (L.theory.adding ((Clause.ofLiteral l).withOrigin origin)) S)
    (h : Committed
      { L with
        theory := S, undecided := L.undecided.reduce (Arena.twin l.constraint), counters := k }
      ls S' U) : L.Committed (l :: ls) S' U := by
  obtain ⟨u, hu, hul⟩ : ∃ u ∈ S.clauses, u.literals = [l] :=
    hsimp.single (exists_adding hv ((Clause.ofLiteral l).withOrigin origin))
  constructor
  case formed => exact h.formed
  case undecided => exact fun c hc => (Bias.mem_reduce.1 (h.undecided c hc)).1
  case kept =>
    intro c hc hne
    refine h.kept c (Bias.mem_reduce.2 ⟨hc, hne l List.mem_cons_self⟩) fun m hm => ?_
    exact hne m (List.mem_cons_of_mem l hm)
  case covered =>
    intro d hd
    obtain ⟨e, he, hed⟩ : ∃ e ∈ S.clauses, ∀ m ∈ e.literals, m ∈ d.literals := by
      rcases hsimp.covered d (mem_adding_of_mem hv _ hd) with hld | h
      · exact ⟨u, hu, by rwa [hul, List.forall_mem_singleton]⟩
      · exact h
    obtain ⟨e', he', hee⟩ := h.covered e he
    exact ⟨e', he', fun m hm => hed m (hee m hm)⟩
  case units =>
    rw [List.forall_mem_cons]
    refine ⟨?_, h.units⟩
    obtain ⟨e, he, hem⟩ := h.covered u hu
    rw [hul] at hem
    exact ⟨e, he, Clause.literals_eq_singleton (h.formed.nonEmpty e he) fun m hm =>
      List.mem_singleton.1 (hem m hm)⟩
  case sound =>
    intro W hW hΘ
    refine h.sound W (fun m hm => hW m (List.mem_cons_of_mem l hm)) ?_
    refine hsimp.sound hT hadded (iff_of_true (hW l List.mem_cons_self) (hT.positive hl))
      fun d hd => ?_
    rcases mem_of_mem_adding hv hd with rfl | hd
    · exact ⟨l, by simp, hW l List.mem_cons_self⟩
    · exact hΘ d hd

theorem leads_commitEach (origin : Option Query) {ls : List Literal}
    (hT : L.atoms.Names issued s) (hreg : ∀ l ∈ ls, L.arena.Registered l.constraint)
    (hls : ∀ l ∈ ls, l.constraint ∈ L.bias.constraints ∧ L.atoms.Lists l)
    (hS : L.atoms.Formed L.bias.constraints L.undecided.constraints (· ∈ ls) L.theory)
    {E : Failure → Learner × σ → Prop} :
    Action.Leads (commitEach origin ls) (L, s)
      (fun _ p => ∃ S U k, p = ({ L with theory := S, undecided := U, counters := k }, s) ∧
        L.Committed ls S U) E := by
  induction ls generalizing L with
  | nil => exact ⟨L.theory, L.undecided, L.counters, rfl, .refl hS⟩
  | cons l ls ih =>
    obtain ⟨hbias, hl⟩ := hls l List.mem_cons_self
    rw [commitEach, hT.positive hl]
    simp only [Bool.false_eq_true, if_false, Action.leads_bind, Procedure.leads_update]
    have hadded : L.atoms.Formed L.bias.constraints L.undecided.constraints (· ∈ ls)
        (L.theory.adding ((Clause.ofLiteral l).withOrigin origin)) := by
      refine hS.adding (by simp) (fun m hm => ?_) (fun hlong => by cases hlong) fun m hm => ?_
      · rw [Clause.literals_withOrigin, Clause.literals_ofLiteral, List.mem_singleton] at hm
        exact hm ▸ ⟨hbias, hl⟩
      · rcases List.mem_cons.1 hm with rfl | hm
        · exact .inr rfl
        · exact .inl hm
    refine leads_propagate (by exact hadded.valid) (by exact hadded.nonEmpty) _
      fun S k hsimp _ => ?_
    rw [leads_negation, (hreg l List.mem_cons_self).negation]
    refine ⟨fun n e => ?_, by simp⟩
    cases e
    have hformed : L.atoms.Formed L.bias.constraints
        (L.undecided.reduce (Arena.twin l.constraint)).constraints (· ∈ ls) S := by
      refine (hadded.simplifies hsimp).reduce fun d _ _ m hm hopen => ?_
      by_cases he : m.constraint = Arena.twin l.constraint
      · -- The clause of `l` alone stays.
        refine .inr ⟨l, ?_, .inr (hsimp.single (exists_adding hS.valid _))⟩
        rw [he, Arena.twin_twin]
        exact hl
      · exact .inl (Bias.mem_reduce.2 ⟨hopen, he⟩)
    refine (ih (L := { L with
        theory := S, undecided := L.undecided.reduce (Arena.twin l.constraint), counters := k }) hT
      (fun m hm => hreg m (List.mem_cons_of_mem l hm))
      (fun m hm => hls m (List.mem_cons_of_mem l hm)) hformed).mono
      (fun _ p h => ?_) fun _ _ h => h
    obtain ⟨S', U, k', hp, h⟩ := h
    exact ⟨S', U, k', hp, h.cons hT hl hS.valid hadded hsimp⟩

/-- To commit the constraints of a clause loses nothing if they all hold. -/
theorem leads_commit (dom : Ranges) (hL : L.Wf issued s) {k : ClauseKey} {c : Clause}
    (hk : L.theory.get? k = some c) {E : Failure → Learner × σ → Prop} :
    Action.Leads (commit k c) (L, s)
      (fun _ p => L.Continues issued dom (fun W => ∀ l ∈ c.literals, W l.constraint) p ∧
        ∀ l ∈ c.literals, p.1.Decided l.constraint) E := by
  have hlisted := hL.theory.listed c (get?_mem hk)
  have hsub : ∀ d ∈ (L.theory.erase k).clauses, d ∈ L.theory.clauses := fun d hd => by
    obtain ⟨k', hk'⟩ := mem_clauses.1 hd
    rw [get?_erase] at hk'
    split at hk'
    · cases hk'
    · exact get?_mem hk'
  have hrest : ∀ d ∈ L.theory.clauses, d = c ∨ d ∈ (L.theory.erase k).clauses := fun d hd => by
    obtain ⟨k', hk'⟩ := mem_clauses.1 hd
    by_cases he : k' = k
    · rw [he, hk] at hk'
      exact .inl (Option.some.inj hk'.symm)
    · exact .inr (get?_mem (k := k') (by rw [get?_erase, if_neg he, hk']))
  have hformed : L.atoms.Formed L.bias.constraints L.undecided.constraints (· ∈ c.literals)
      (L.theory.erase k) := by
    refine hL.theory.exchange (hL.theory.valid.erase k) (fun d hd => .inl ⟨d, hsub d hd, rfl⟩)
      nofun fun d hd m hm => ?_
    rcases hrest d hd with rfl | hd
    · exact .inl (hm ▸ List.mem_singleton_self m)
    · exact .inr ⟨d, hd, hm⟩
  rw [commit, Action.leads_bind, Procedure.leads_update]
  refine (leads_commitEach (L := { L with theory := L.theory.erase k }) c.origin hL.names
    (fun l hl => hL.registered _ l (hlisted l hl).2) hlisted hformed).mono
    (fun _ p ⟨S, U, k', hp, h⟩ => ?_) fun _ _ h => h
  subst hp
  refine ⟨⟨⟨hL.built, hL.closed, hL.known, hL.names, hL.atoms, hL.registered,
    Subset.trans h.undecided hL.undecided, h.formed, hL.background, hL.kept⟩,
    ⟨rfl, rfl, rfl, rfl, rfl, fun _ => id, h.undecided, fun d hd => ?_⟩, fun W hW hsound => ?_⟩,
    fun l hl => ?_⟩
  · rcases hrest d hd with rfl | hd
    · -- The clause was replaced by its literals, and has at least one.
      obtain ⟨l, hl⟩ := List.exists_mem_of_ne_nil _ (hL.theory.nonEmpty d (get?_mem hk))
      obtain ⟨e, he, hel⟩ := h.units l hl
      refine ⟨e, he, fun m hm => ?_⟩
      rw [hel, List.mem_singleton] at hm
      exact hm ▸ hl
    · exact h.covered d hd
  · refine ⟨h.sound W hW fun d hd => hsound.theory d (hsub d hd), fun d hd => ?_, hsound.apart,
      hsound.background⟩
    refine h.kept d (hsound.undecided d hd) fun l hl e => ?_
    exact hsound.apart l.constraint (hW l hl) (e ▸ hd)
  · obtain ⟨e, he, hel⟩ := h.units l hl
    refine ⟨e, he, fun m hm => ?_⟩
    rw [hel, List.mem_singleton] at hm
    rw [hm]

/-- If no query can split a clause of the theory, all constraints of the clause hold that are
to be decided. -/
theorem Splits.all_hold (hL : L.Wf issued s) {c : Clause} {F : Formula}
    (hF : L.Splits c false F) (hnone : L.SplitAnswered F none) (hc : c ∈ L.theory.clauses)
    {D W : ConstraintId → Prop} (hW : L.Sound dom W) (hE : L.Confined dom D W) :
    ∀ l ∈ c.literals, D l.constraint → W l.constraint := by
  intro l hl hD
  by_contra hno
  obtain ⟨X, hX, hwithin, hknown, hall⟩ := hE
  have hholds : ∀ c, W c → ∀ f, X f → L.arena.Holds f c := fun c hc => hknown c (.inl hc)
  have hlist : ∀ d ∈ L.theory.clauses, ∀ m ∈ d.literals, L.atoms.Lists m :=
    fun d hd m hm => (hL.theory.listed d hd m hm).2
  -- Some solution of the target violates the constraint.
  obtain ⟨f, hf, hviol⟩ : ∃ f, X f ∧ ¬ L.arena.Holds f l.constraint := by
    by_cases hopen : l.constraint ∈ L.undecided.constraints
    · by_contra h
      push Not at h
      exact hno (hall _ hopen h hD)
    · cases hlong : isLong c with
      | false =>
        obtain ⟨m, hm⟩ := exists_literal_of_not_isLong (hL.theory.nonEmpty c hc) hlong
        obtain ⟨n, hn, hWn⟩ := hW.theory c hc
        rw [hm, List.mem_singleton] at hl hn
        exact absurd (hl ▸ hn ▸ hWn) hno
      | true =>
        obtain ⟨m, hm, hdue | ⟨u, hu, hum⟩⟩ := (hL.theory.stale c hc hlong l hl).resolve_left hopen
        · exact hdue.elim
        · obtain ⟨n, hn, hWn⟩ := hW.theory u hu
          rw [hum, List.mem_singleton] at hn
          rw [hn, (hL.names.entry _ m hm).2.1] at hWn
          obtain ⟨f, hf⟩ := hX
          have hreg := hL.registered _ l (hlist c hc l hl)
          exact ⟨f, hf, (hL.built.paired.holds_twin hreg f).1 (hholds _ hWn f hf)⟩
  -- What holds on that solution is a model.
  obtain ⟨v, hv⟩ := hL.names.exists_affirming (L.arena.Holds f)
  have htrue : ∀ m, L.atoms.Lists m → (m.Holds v ↔ L.arena.Holds f m.constraint) := fun m hm =>
    (hL.names.holds_iff hm).trans (hv _ m hm)
  have htheory : L.theory.Holds v := fun d hd => by
    obtain ⟨m, hm, hWm⟩ := hW.theory d hd
    exact ⟨m, hm, (htrue m (hlist d hd m hm)).2 (hholds _ hWm f hf)⟩
  refine hnone v ((hF.holds_iff v).2 ⟨htheory, fun d hd => ⟨fun _ => ?_, nofun⟩, ?_⟩)
    fun d hd => ?_
  · obtain ⟨⟨m, hm⟩, n, hn⟩ := hL.atoms d (hL.undecided d hd)
    rw [hv d m hm, hv _ n hn, hL.built.paired.holds_twin (hL.registered d m hm)]
    exact Classical.em _
  · rw [bounds_wide]
    exact Window.holds_widest.2
      ⟨htheory c hc, l, hl, fun h => hviol ((htrue l (hlist c hc l hl)).1 h)⟩
  · obtain ⟨m, hm, hno⟩ := hW.background d hd f (hwithin f hf)
    have hneg := hL.background d hd m hm
    exact ⟨m, hm, (hL.names.holds_negated_iff hneg).2 fun h => hno ((hv _ _ hneg).1 h)⟩

/-- A solution of the constraints of a model is a query to ask. It violates an undecided
constraint, unless the pivot names one that was ruled out. -/
theorem Splits.poses (hL : L.Wf issued s) {k : ClauseKey} {c : Clause} {close : Bool}
    {F : Formula} (hF : L.Splits c close F) (hpivot : L.pivot = some k)
    (hk : L.theory.get? k = some c) {model : Model}
    (hmodel : L.SplitAnswered F (some model)) {N : Network}
    (hN : Network.ofList L.arena L.bias.scope model = .ok N) {q : Query}
    (hq : q.Solves L.arena dom N) : L.Poses dom q ∧ ((∃ d, L.Kappa q d) ∨ L.Stale) := by
  have hc := get?_mem hk
  obtain ⟨v, hv, hsound, hcomplete⟩ := hmodel
  obtain ⟨htheory, hdemanded, hwindow⟩ := (hF.holds_iff v).1 hv
  obtain ⟨-, hcons, hscope⟩ := Network.ofList_eq_ok hN
  have hbias : L.bias.scope ⊆ N.scope := fun w hw => (hscope w).2 (.inl hw)
  have hholds : ∀ d ∈ model, L.arena.Holds q.valuation d := fun d hd =>
    hq.holds d ((hcons d).2 hd)
  have hcovers : L.bias.scope ⊆ q.scope := Subset.trans hbias hq.covers
  refine ⟨⟨hcovers, hq.within.mono hbias, hq.unclassified, ?_⟩, ?_⟩
  · -- Only the atoms that the formula mentions are left true.
    obtain ⟨u, hu⟩ := hL.names.exists_affirming (· ∈ model)
    refine ⟨u, fun d hd => ?_, fun d hd => ?_⟩
    · obtain ⟨l, hl, hlv⟩ := htheory d hd
      have hlist := (hL.theory.listed d hd l hl).2
      refine ⟨l, hl, (hL.names.holds_iff hlist).2 ((hu _ l hlist).2 ?_)⟩
      refine hcomplete l (hF.theory d hd l hl) ?_
      exact (AtomTable.affirms_iff hlist).1 ((hL.names.holds_iff hlist).1 hlv)
    · obtain ⟨l, hl, hlu⟩ := hd
      exact hholds d ((hu d l hl).1 ⟨l, hl, hlu⟩)
  · obtain ⟨hlower, hupper⟩ := L.bounds_within close c.size
    obtain ⟨⟨m, hm, hmv⟩, l, hl, hlv⟩ := Window.holds_widest.1 (hwindow.widen hlower hupper)
    obtain ⟨hlbias, hlist⟩ := hL.theory.listed c hc l hl
    have hin : c.containsConstraint l.constraint = true :=
      Clause.containsConstraint_iff.2 ⟨l, hl, rfl⟩
    by_cases hopen : l.constraint ∈ L.undecided.constraints
    · refine .inl ⟨l.constraint, hopen, fun w hw => hcovers w ((hL.closed _ hlbias).2 w hw), ?_⟩
      rcases (hdemanded _ hopen).either hin with h | ⟨n, hn, hnv⟩
      · exact absurd ((hL.names.holds_iff hlist).2 h) hlv
      · have hmem := hcomplete n (hF.mentions _ hopen hin n hn) hnv
        rw [(hL.names.entry _ n hn).2.1] at hmem
        exact (hL.built.paired.holds_twin (hL.closed _ hlbias).1 _).1 (hholds _ hmem)
    · have hlong : isLong c = true := by
        by_contra hshort
        obtain ⟨n, hn⟩ := exists_literal_of_not_isLong (hL.theory.nonEmpty c hc)
          (Bool.eq_false_iff.2 hshort)
        rw [hn, List.mem_singleton] at hm hl
        exact absurd (hl ▸ hm ▸ hmv) hlv
      obtain ⟨n, hn, hdue | ⟨u, hu, hun⟩⟩ := (hL.theory.stale c hc hlong l hl).resolve_left hopen
      · exact hdue.elim
      · have hnl : n.constraint = Arena.twin l.constraint := (hL.names.entry _ n hn).2.1
        refine .inr ⟨k, c, hpivot, hk, hlong, l, hl, hopen, ?_, u, hu, fun m hm => ?_⟩
        · exact hnl ▸ (hL.theory.listed u hu n (hun ▸ List.mem_singleton_self n)).1
        · rw [hun, List.mem_singleton] at hm
          rw [hm, hnl]

/-- A formula without a model widens the split, or commits the pivot. -/
theorem leads_widen (dom : Ranges) (hL : L.Wf issued s) {k : ClauseKey} {c : Clause}
    (hk : L.theory.get? k = some c) (close : Bool) {E : Failure → Learner × σ → Prop} :
    Action.Leads (widen (some (k, c)) close) (L, s)
      (fun _ p => L.Continues issued dom
          (fun W => close = false → ∀ l ∈ c.literals, W l.constraint) p ∧
        (close = false → ∀ l ∈ c.literals, p.1.Decided l.constraint)) E := by
  cases close with
  | true =>
    rw [widen, Procedure.leads_update]
    exact ⟨Alike.continues ⟨rfl, rfl, rfl, rfl, rfl, fun _ => id, rfl, rfl, rfl⟩ hL, nofun⟩
  | false =>
    rw [widen, Action.leads_bind]
    refine (leads_commit dom hL hk).mono (fun _ p ⟨hp, hdecided⟩ => ?_) fun _ _ h => h
    rw [Procedure.leads_update]
    refine ⟨?_, fun _ => hdecided⟩
    exact Continues.mono (hp.alike ⟨rfl, rfl, rfl, rfl, rfl, fun _ => id, rfl, rfl, rfl⟩)
      fun W _ h => h rfl

/-- Contradictions that are real lose nothing. One cannot be recorded if it is empty or has
a constraint without an atom. -/
theorem leads_addBackground (dom : Ranges) (hL : L.Wf issued s) (Ns : List Network) :
    Action.Leads (addBackground Ns : Procedure Learner σ Unit) (L, s)
      (fun _ p => p.2 = s ∧ L.Continues issued dom
        (fun _ => ∀ N ∈ Ns, N.Refuted L.arena dom L.span) p)
      (fun _ p => L.Stops issued p ∧ ∃ N ∈ Ns, (∀ c, c ∉ N.constraints) ∨
        ∃ c ∈ N.constraints, ∀ l, L.atoms.literal c ≠ .ok l) := by
  induction Ns generalizing L with
  | nil => exact ⟨rfl, .refl hL⟩
  | cons N Ns ih =>
    rw [addBackground, Action.leads_bind, Procedure.leads_own, Action.leads_bind,
      Action.leads_ofExcept]
    refine ⟨fun K hK => ?_, fun f hf => ⟨⟨hL, .refl L⟩, N, List.mem_cons_self, ?_⟩⟩
    · obtain ⟨d, rfl, -, htable, hd⟩ := Contradiction.record_eq_ok hK
      rw [Action.leads_bind, Procedure.leads_update]
      have hstep : L.Continues issued dom (fun _ => N.Refuted L.arena dom L.span)
          ({ L with background := L.background.adding d }, s) := by
        refine ⟨⟨hL.built, hL.closed, hL.known, hL.names, hL.atoms, hL.registered, hL.undecided,
          hL.theory, fun e he l hl => ?_, hL.kept.adding d⟩,
          ⟨rfl, rfl, rfl, rfl, rfl, fun _ => id, Subset.refl _, fun e he => ⟨e, he, fun _ h => h⟩⟩,
          fun W href hW => ⟨hW.theory, hW.undecided, hW.apart, fun e he f hf => ?_⟩⟩
        · rcases mem_of_mem_adding hL.kept he with rfl | he
          · obtain ⟨c, -, hl⟩ := (hd l).1 hl
            exact hL.names.lists hl
          · exact hL.background e he l hl
        · rcases mem_of_mem_adding hL.kept he with rfl | he
          · have hviol := href f hf
            simp only [Network.Holds, not_forall] at hviol
            obtain ⟨c, hc, hno⟩ := hviol
            obtain ⟨l, hl⟩ := htable c hc
            refine ⟨l.negate, (hd _).2 ⟨c, hc, by rw [hl, Literal.negate_negate]⟩, ?_⟩
            rwa [Literal.negate, (hL.names.entry c l hl).2.1]
          · exact hW.background e he f hf
      refine (ih (L := { L with background := L.background.adding d }) hstep.wf).mono
        (fun _ p hp => ⟨hp.1, ?_⟩) fun f p hf => ?_
      swap
      · obtain ⟨hp, M, hM, h⟩ := hf
        exact ⟨.after hstep hp, M, List.mem_cons_of_mem N hM, h⟩
      exact hstep.trans hp.2 (fun W _ h => h N List.mem_cons_self)
        fun W _ h M hM => h M (List.mem_cons_of_mem N hM)
    · by_contra hno
      push Not at hno
      obtain ⟨⟨c, hc⟩, hall⟩ := hno
      obtain ⟨K, hK⟩ := Contradiction.exists_record ⟨c, hc⟩ (S := L.background) hall
      rw [hK] at hf
      cases hf

/-- The conflict that is found in a network without a solution joins the background. It
has a constraint unless there is no assignment at all. -/
theorem leads_addConflict {cp : CpBackend σ} (hcp : cp.Lawful dom Err) (hk : cp.Keeps issued)
    (hL : L.Wf issued s) {N : Network} (hN : N.Closed L.arena)
    (hscope : L.Grounded dom → N.scope ⊆ L.span)
    (htable : ∀ c ∈ N.constraints, ∃ l, L.atoms.literal c = .ok l)
    (hun : ¬ N.Satisfiable L.arena dom) :
    Action.Leads (addConflict cp N) (L, s)
      (fun _ p => L.Continues issued dom (fun _ => L.Grounded dom) p)
      (L.Breaks issued dom Err) := by
  have hcp' := hcp.answers_keeping hk (I := issued.Grows s) fun _ _ h h' => h.trans h'
  have hhave : L.Grounded dom → ∃ f : Valuation, f.Within dom N.scope := fun hG => by
    obtain ⟨f, hf⟩ := hG.inhabited
    exact ⟨f, hf.mono (hscope hG)⟩
  obtain ⟨C, hC, hclosed, hCscope, hsub, hholds⟩ := Simplify.exists_condense hL.built hN
  have hover : Conflict.Over L.arena N.scope C := by
    refine ⟨hclosed, ?_⟩
    rw [hCscope]
    exact Subset.refl _
  have hrefuted : C.Refuted L.arena dom N.scope :=
    (Network.refuted_of_unsatisfiable hun (Subset.refl _)).mono hholds
  rw [addConflict, Action.leads_bind, Procedure.leads_check, hC]
  refine ⟨fun C' e => ?_, nofun⟩
  cases e
  rw [Action.leads_bind, leads_count, Action.leads_bind, Procedure.leads_callWith]
  have halike := fun k => L.alike_counters k
  refine (Conflict.leads_explain hcp' hL.built hover (.refl issued s)).mono
    (fun M t ⟨ht, hM, hMC, href⟩ => ?_) fun f t ⟨ht, hf⟩ => ?_
  · have hMref := href hrefuted
    rw [Action.leads_bind]
    refine (leads_addBackground dom ((halike _).wf (hL.grows ht)) [M]).mono
      (fun _ p ⟨hs, hp⟩ => ?_) fun f p ⟨hp, M', hM', h⟩ => ?_
    · rw [leads_count]
      refine Continues.mono (((halike _).before hp).alike (alike_counters _ _)) ?_
      rintro W - hG M' hM' f hf
      rw [List.mem_singleton.1 hM']
      exact hMref f (hf.mono (hscope hG))
    · have hnever : ¬ L.Grounded dom := fun hG => by
        rw [List.mem_singleton.1 hM'] at h
        rcases h with hempty | ⟨c, hc, hno⟩
        · obtain ⟨f, hf⟩ := hhave hG
          exact absurd (fun c hc => absurd hc (hempty c)) (hMref f hf)
        · obtain ⟨l, hl⟩ := htable c (hsub c (hMC c hc))
          exact absurd hl (hno l)
      exact ⟨⟨⟨hp.wf, (halike _).evolves.trans hp.evolves⟩, fun hG => absurd hG hnever⟩,
        fun _ hG => absurd hG hnever⟩
  · refine (halike _).breaks (hL.grows ht) fun hG => ?_
    exact (hf (hhave hG) hrefuted).elim (fun h => .inr (.inl h)) fun h => .inr (.inr (.inr h))

/-- What becomes of a query that is not about the pivot alone. -/
theorem leads_found (hL : L.Wf issued s) (k : ClauseKey) {q : Query} (hq : L.Poses dom q)
    (hinforms : (∃ d, L.Kappa q d) ∨ L.Stale) (close : Bool) (c : Clause)
    {E : Failure → Learner × σ → Prop} :
    Action.Leads (do
        if !close then
          if let some (k, _) := some (k, c) then
            Procedure.update fun L => { L with theory := L.theory.mark k }
        return some q : Procedure Learner σ (Option Query)) (L, s)
      (fun r p => L.Continues issued dom
          (fun W => L.Grounded dom ∧ L.Confined dom p.1.Decided W) p ∧
        ∀ q, r = some q → p.1.Poses dom q ∧ ((∃ d, p.1.Kappa q d) ∨ p.1.Stale)) E := by
  cases close with
  | true =>
    refine ⟨.refl hL, fun q' e => ?_⟩
    cases e
    exact ⟨hq, hinforms⟩
  | false =>
    have hsame := sameLiterals_mark L.theory k
    refine ⟨continues_marked dom hL (hL.theory.valid.mark k) hsame L.pivot L.aim
      L.slack L.counters _,
      fun q' e => ?_⟩
    cases e
    obtain ⟨hcovers, hwithin, hverdict, v, hv, hcons⟩ := hq
    refine ⟨⟨hcovers, hwithin, hverdict, v, fun d hd => ?_, hcons⟩, hinforms.imp id ?_⟩
    · obtain ⟨e, he, hed⟩ := hsame.mem hd
      obtain ⟨l, hl, hlv⟩ := hv e he
      exact ⟨l, hed ▸ hl, hlv⟩
    · rintro ⟨k', d, hpivot, hd, hlong, l, hl, hno, hbias, u, hu, htwin⟩
      obtain ⟨e, he, hed⟩ := hsame.symm.get? hd
      obtain ⟨u', hu', huu⟩ := hsame.symm.mem hu
      exact ⟨k', e, hpivot, he, isLong_congr hed ▸ hlong, l, hed ▸ hl, hno, hbias, u', hu',
        huu ▸ htwin⟩

theorem Alike.poses {L' : Learner} (h : L.Alike L') {q : Query} (hq : L.Poses dom q) :
    L'.Poses dom q := by
  obtain ⟨hcovers, hwithin, hverdict, hv⟩ := hq
  refine ⟨h.bias ▸ hcovers, h.bias ▸ hwithin, hverdict, ?_⟩
  rw [h.theory, h.atoms, h.arena]
  exact hv

/-- The split of a clause of the theory. -/
theorem leads_split {B : Backends σ} (hB : B.Lawful issued dom Err) (hL : L.Wf issued s)
    {k : ClauseKey} {c : Clause} (hpivot : L.pivot = some k) (hk : L.theory.get? k = some c)
    (close : Bool) :
    Action.Leads (do
        let F ← formula B.sat (some c) close
        count fun k => { k with satCalls := k.satCalls + 1 }
        match ← Procedure.callWith fun L => B.sat.solve (F.addStore L.background) with
        | none => do
          widen (some (k, c)) close
          return none
        | some model => do
          let N ← Procedure.check fun L => Network.ofList L.arena L.bias.scope model
          match ← witness B.cp N with
          | none => do
            addConflict B.cp N
            return none
          | some q => do
            if !close then
              if let some (k, _) := some (k, c) then
                Procedure.update fun L => { L with theory := L.theory.mark k }
            return some q : Procedure Learner σ (Option Query)) (L, s)
      (fun r p => L.Continues issued dom
          (fun W => L.Grounded dom ∧ L.Confined dom p.1.Decided W) p ∧
        ∀ q, r = some q → p.1.Poses dom q ∧ ((∃ d, p.1.Kappa q d) ∨ p.1.Stale))
      (L.Breaks issued dom Err) := by
  have hc := get?_mem hk
  have halike := L.alike_counters { L.counters with satCalls := L.counters.satCalls + 1 }
  rw [Action.leads_bind, formula]
  refine (leads_splitFormula hL fun l hl => hL.voices hc hl).mono (fun F p ⟨hp, hF⟩ => ?_) fun f p ⟨hp, hf⟩ => ?_
  · subst hp
    rw [Action.leads_bind, leads_count, Action.leads_bind, Procedure.leads_callWith]
    refine (leads_solveSplit hB.sat hL hF).mono (fun r t ⟨ht, hr⟩ => ?_) fun f t ⟨ht, hf⟩ => ?_
    · have hLt := halike.wf (hL.grows ht)
      cases r with
      | none =>
        rw [Action.leads_bind]
        refine (leads_widen dom hLt hk close).mono (fun _ p ⟨hp, hdecided⟩ => ?_) fun _ _ h => h
        refine ⟨(halike.before hp).mono fun W hW ⟨_, hE⟩ hclose l hl => ?_, nofun⟩
        exact Splits.all_hold hL (hclose ▸ hF) hr hc hW hE l hl (hdecided hclose l hl)
      | some model =>
        have hmodel : ∀ d ∈ model, ∃ l, L.atoms.literal d = .ok l := fun d hd => by
          obtain ⟨v, -, hsound, -⟩ := hr
          obtain ⟨l, hl, -⟩ := hsound d hd
          exact ⟨l, hl⟩
        rw [Action.leads_bind, Procedure.leads_check]
        refine ⟨fun N hN => ?_, fun e he => ?_⟩
        · obtain ⟨-, hcons, hscope⟩ := Network.ofList_eq_ok hN
          rw [Action.leads_bind]
          refine (leads_witness hB.cp hB.keeps hLt (Network.closed_ofList hN)).mono ?_
            fun f p hf => halike.before_breaks hf
          rintro r ⟨L', u⟩ ⟨⟨k', rfl⟩, hu, hr'⟩
          have halike' := L.alike_counters k'
          have hLu := halike'.wf (hL.grows (ht.trans hu))
          cases r with
          | none =>
            rw [Action.leads_bind]
            refine (leads_addConflict hB.cp hB.keeps hLu (Network.closed_ofList hN)
              (fun hG v hv => ?_) (fun d hd => hmodel d ((hcons d).1 hd)) hr').mono
              (fun _ p hp => ⟨(halike'.before hp).mono ?_, nofun⟩) fun f p hf => halike'.before_breaks hf
            · rcases (hscope v).1 hv with hv | ⟨d, hd, hv⟩
              · exact L.bias_subset_span v hv
              · obtain ⟨l, hl⟩ := hmodel d hd
                exact hG.confined d l hl v hv
            · exact fun W hW h => halike'.evolves.grounded h.1
          | some q =>
            obtain ⟨hposes, hinforms⟩ := hF.poses hL hpivot hk hr hN hr'
            refine (leads_found hLu k (halike'.poses hposes)
              hinforms close c).mono (fun r p ⟨hp, hq⟩ => ?_) fun _ _ h => h
            refine ⟨(halike'.before hp).mono fun W hW h => ?_, hq⟩
            exact ⟨halike'.evolves.grounded h.1, halike'.evolves.confined h.2⟩
        · obtain ⟨N, hN⟩ := Network.exists_ofList L.bias.scope fun d hd => by
            obtain ⟨l, hl⟩ := hmodel d hd
            exact hL.registered d l hl
          rw [hN] at he
          cases he
    · exact halike.breaks (hL.grows ht) fun _ => .inr (.inr (.inr hf))
  · subst hp
    exact hL.breaks fun _ => .inr (.inr (.inl hf))

/-- An attempt on a theory with a clause of several literals. A query that is found is one
to ask. -/
theorem leads_attemptSplit {B : Backends σ} (hB : B.Lawful issued dom Err) (hL : L.Wf issued s)
    (hlong : ∃ c ∈ L.theory.clauses, isLong c = true) :
    Action.Leads (attemptSplit B) (L, s)
      (fun r p => L.Continues issued dom
          (fun W => L.Grounded dom ∧ L.Confined dom p.1.Decided W) p ∧
        ∀ q, r = some q → p.1.Poses dom q ∧ ((∃ c, p.1.Kappa q c) ∨ p.1.Stale))
      (L.Breaks issued dom Err) := by
  rw [attemptSplit, Action.leads_bind, leads_poll]
  refine ⟨fun _ => ?_, fun _ => hL.breaks fun _ => .inr (.inl rfl)⟩
  rw [Action.leads_bind]
  refine (leads_choosePivot hL hlong).mono ?_ fun _ _ h => h
  rintro - p ⟨S, pivot, aim, slack, rfl, hv, hS, k, c, rfl, hkc⟩
  have hstart := continues_marked dom hL hv hS (some k) aim slack L.counters (fun _ => True)
  rw [Action.leads_bind, Procedure.leads_own]
  dsimp only
  rw [Option.bind_some, hkc, Option.map_some]
  refine (leads_split hB hstart.wf rfl hkc _).mono (fun r p ⟨hp, hq⟩ => ⟨?_, hq⟩)
    fun f p hf => .after hstart hf fun _ _ _ _ => trivial
  exact hstart.trans hp (fun _ _ _ => trivial) fun W _ h =>
    ⟨hstart.evolves.grounded h.1, hstart.evolves.confined h.2⟩

end Learner

end Acquisition
