import Acquisition.Proofs.Collapses
import Acquisition.Proofs.Operations

/-!
# Counts of queries

A query is counted when it is asked or replayed, and again as accepted or as rejected when it is
learnt from. Then it is noted. Between two calls nothing is under way, so that the counts are
those of the notes, with one exception. Before queries are generated, a rejected query is passed
over if its kappa is that of an earlier one. It is counted as a query and noted, but it is not
counted as rejected.

A run may be stopped by a limit and still count as a call without an error. No limit is looked
at between the time when a query is counted and the time when it is noted.
-/
namespace Acquisition

open Procedure

variable {σ τ α β : Type}

/-- The limit of a run or of a call of a backend has passed. -/
def Failure.Late (f : Failure) : Prop := f = .error .timeout ∨ f = .error .backendTimeout

theorem Failure.not_late_fault (f : Fault) : ¬ (Failure.fault f).Late := by simp [Late]

/-- The action does not fail because it is late. -/
def Action.Prompt (x : Action σ α) : Prop := ∀ s, x.Leads s (fun _ _ => True) fun f _ => ¬ f.Late

/-- An oracle that has no limit. -/
def Oracle.Prompt (oracle : Oracle σ) : Prop := ∀ q, (oracle q).Prompt

namespace Action

theorem prompt_pure (a : α) : (pure a : Action σ α).Prompt := fun _ => trivial

theorem Prompt.bind {x : Action σ α} {f : α → Action σ β} (hx : x.Prompt)
    (hf : ∀ a, (f a).Prompt) : (x >>= f).Prompt := by
  intro s
  rw [leads_bind]
  exact (hx s).mono (fun a t _ => hf a t) fun _ _ h => h

theorem prompt_ofChecked (r : Checked α) : (ofChecked r : Action σ α).Prompt := by
  intro s
  rw [leads_ofChecked]
  exact ⟨fun _ _ => trivial, fun f _ => Failure.not_late_fault f⟩

theorem prompt_forM {f : β → Action σ PUnit} (h : ∀ b, (f b).Prompt) (bs : List β) :
    (bs.forM f).Prompt := by
  induction bs with
  | nil => exact prompt_pure _
  | cons b bs ih => exact (h b).bind fun _ => ih

theorem prompt_mapM {f : β → Action σ α} (h : ∀ b, (f b).Prompt) (bs : List β) :
    (bs.mapM f).Prompt := by
  induction bs with
  | nil => exact prompt_pure _
  | cons b bs ih =>
    rw [List.mapM_cons]
    exact (h b).bind fun _ => ih.bind fun _ => prompt_pure _

end Action

namespace Procedure

/-- What holds of the state before holds after it, unless the procedure fails for a reason other
than being late. -/
def Spares (I : τ × σ → Prop) (x : Procedure τ σ α) : Prop :=
  ∀ p, I p → Action.Leads x p (fun _ => I) fun f p' => f.Late → I p'

variable {I : τ × σ → Prop}

theorem Keeps.spares {x : Procedure τ σ α} (h : Keeps I x) : Spares I x :=
  fun p hp => (h p hp).mono (fun _ _ h => h) fun _ _ h _ => h

theorem Spares.bind {x : Procedure τ σ α} {f : α → Procedure τ σ β} (hx : Spares I x)
    (hf : ∀ a, Spares I (f a)) : Spares I (x >>= f) := by
  intro p hp
  rw [Action.leads_bind]
  exact (hx p hp).mono (fun a p' hp' => hf a p' hp') fun _ _ h => h

theorem prompt_update (f : τ → τ) : Action.Prompt (update f : Procedure τ σ Unit) :=
  fun _ => trivial

theorem prompt_own : Action.Prompt (own : Procedure τ σ τ) := fun _ => trivial

theorem prompt_check (f : τ → Checked α) : Action.Prompt (check f : Procedure τ σ α) :=
  prompt_own.bind fun _ => Action.prompt_ofChecked _

end Procedure

namespace Learner

variable {L L' : Learner} {q : Query} {i n : Nat} {oracle : Oracle σ}

/-! ### Learning is not late -/

theorem prompt_literal (c : ConstraintId) :
    Action.Prompt (literal c : Procedure Learner σ Literal) := by
  intro p
  rw [leads_literal]
  refine ⟨fun _ _ => trivial, fun e he => ?_⟩
  rw [AtomTable.literal] at he
  split at he
  · cases he
  · cases he
    simp [Failure.Late]

theorem prompt_negation (c : ConstraintId) :
    Action.Prompt (negation c : Procedure Learner σ ConstraintId) := prompt_check _

theorem prompt_count (f : Counters → Counters) :
    Action.Prompt (count f : Procedure Learner σ Unit) := prompt_update _

theorem prompt_propagate (l : Literal) :
    Action.Prompt (propagate l : Procedure Learner σ Unit) := by
  rw [propagate]
  apply (prompt_check _).bind
  intro r
  apply (prompt_update _).bind
  intro _
  split
  · exact prompt_count _
  · exact Action.prompt_pure _

theorem prompt_ruleOut (kappa : IndexSet) :
    Action.Prompt (ruleOut kappa : Procedure Learner σ Unit) := by
  rw [ruleOut]
  apply Action.Prompt.bind
  · apply Action.prompt_forM
    intro c
    exact (prompt_literal c).bind fun _ => prompt_propagate _
  · exact fun _ => prompt_update _

theorem prompt_confirm (reduce : Bool) (q : Query) (c : ConstraintId) :
    Action.Prompt (confirm reduce q c : Procedure Learner σ Unit) := by
  rw [confirm]
  apply (prompt_count _).bind
  intro _
  apply (prompt_literal c).bind
  intro l
  apply (prompt_propagate l).bind
  intro _
  apply (prompt_update _).bind
  intro _
  apply (prompt_negation c).bind
  intro n
  apply (prompt_update _).bind
  intro _
  exact (prompt_literal n).bind fun _ => prompt_propagate _

theorem prompt_noted (r : Learnt) (q : Query) :
    Action.Prompt (do noteAsked q; return r : Procedure Learner σ Learnt) :=
  (prompt_update _).bind fun _ => Action.prompt_pure _

theorem prompt_learn (q : Query) (reduce : Bool) :
    Action.Prompt (learn q reduce : Procedure Learner σ Learnt) := by
  rw [learn]
  apply (prompt_check _).bind
  intro kappa
  split
  · apply (prompt_count _).bind
    intro _
    exact (prompt_ruleOut kappa).bind fun _ => prompt_noted _ q
  · apply (prompt_count _).bind
    intro _
    split
    · exact (prompt_update _).bind fun _ => prompt_noted _ q
    · next c _ => exact (prompt_confirm reduce q c).bind fun _ => prompt_noted _ q
    · apply (Action.prompt_mapM prompt_literal _).bind
      intro ls
      exact (prompt_update _).bind fun _ => prompt_noted _ q

theorem prompt_learnEarly (q : Query) :
    Action.Prompt (learnEarly q : Procedure Learner σ Learnt) := by
  rw [learnEarly]
  split
  · apply (prompt_check _).bind
    intro b
    split
    · exact prompt_noted _ q
    · exact prompt_learn q true
  · exact prompt_learn q true

/-! ### What the counts are about -/

/-- The query in place `i` was rejected and passed over: when it was noted, it had the kappa of an
earlier rejected query on the constraints that were undecided then. -/
def PassedOver (L : Learner) (i : Nat) : Prop :=
  ∃ q U, L.asked[i]? = some q ∧ q.isNegative = true ∧
    L.undecided.constraints ⊆ U.constraints ∧ U.constraints ⊆ L.bias.constraints ∧
    isRepeated { L with undecided := U, asked := L.asked.take i } q = .ok true

/-- The counts of the queries that are noted, and of `n` that are under way. Those of `passed`
were passed over. -/
structure Counted (n : Nat) (L : Learner) (passed : Finset Nat) : Prop where
  queries : L.counters.queries = L.asked.length + n
  positive : L.counters.positive = L.accepted.length
  negative : L.counters.negative + passed.card = L.rejected.length
  total : L.asked.length = L.accepted.length + L.rejected.length
  undecided : L.undecided.constraints ⊆ L.bias.constraints
  skipped : ∀ i ∈ passed, L.PassedOver i

def Tallied (n : Nat) (L : Learner) : Prop := ∃ passed, L.Counted n passed

/-- What was passed over remains so when more is noted and less is undecided. -/
theorem PassedOver.mono (h : L.PassedOver i) (harena : L'.arena = L.arena)
    (hbias : L'.bias = L.bias) (hundecided : L'.undecided.constraints ⊆ L.undecided.constraints)
    (hasked : L.asked <+: L'.asked) : L'.PassedOver i := by
  obtain ⟨q, U, hq, hnegative, hlower, hupper, hrepeated⟩ := h
  obtain ⟨qs, hqs⟩ := hasked
  have hi : i < L.asked.length := (List.getElem?_eq_some_iff.1 hq).1
  have htake : L'.asked.take i = L.asked.take i := by
    rw [← hqs, List.take_append_of_le_length hi.le]
  refine ⟨q, U, ?_, hnegative, IndexSet.Subset.trans hundecided hlower, hbias ▸ hupper, ?_⟩
  · rw [← hqs, List.getElem?_append_left hi, hq]
  · rw [isRepeated, rejected] at hrepeated ⊢
    dsimp only at hrepeated ⊢
    rw [htake, harena]
    exact hrepeated

theorem Tallied.of_same (h : L.Tallied n) (harena : L'.arena = L.arena)
    (hbias : L'.bias = L.bias) (hundecided : L'.undecided.constraints ⊆ L.undecided.constraints)
    (hasked : L'.asked = L.asked) (hverdicts : L'.verdicts = L.verdicts) : L'.Tallied n := by
  obtain ⟨passed, h⟩ := h
  simp only [verdicts, Prod.mk.injEq] at hverdicts
  obtain ⟨hqueries, hpositive, hnegative⟩ := hverdicts
  have haccepted : L'.accepted = L.accepted := by rw [accepted, accepted, hasked]
  have hrejected : L'.rejected = L.rejected := by rw [rejected, rejected, hasked]
  refine ⟨passed, ?_⟩
  constructor
  · rw [hqueries, hasked, h.queries]
  · rw [hpositive, haccepted, h.positive]
  · rw [hnegative, hrejected, h.negative]
  · rw [hasked, haccepted, hrejected, h.total]
  · rw [hbias]
    exact IndexSet.Subset.trans hundecided h.undecided
  · intro i hi
    exact (h.skipped i hi).mono harena hbias hundecided (hasked ▸ List.prefix_rfl)

/-- The settings and what is to be learnt first have no bearing on the counts. -/
theorem Tallied.set (h : L.Tallied n) (settings : Settings) (qs : List Query) (passive : Bool)
    (Ns : List Network) :
    { L with settings := settings, replay := qs, passive := passive, strategies := Ns }.Tallied n :=
  h.of_same rfl rfl (IndexSet.Subset.refl _) rfl rfl

theorem aside_tallied : Aside (Tallied n) :=
  ⟨fun _ _ _ _ _ _ _ _ hU hk h => h.of_same rfl rfl hU rfl hk⟩

/-- Once the query is noted, the counts are those of the notes. -/
def Awaits (q : Query) (L : Learner) : Prop := { L with asked := L.asked ++ [q] }.Tallied 0

theorem apart_awaits : Apart (Awaits q) :=
  fun _ _ _ _ hU hk _ h => h.of_same rfl rfl hU rfl hk

/-- One more query is noted. -/
def noting (L : Learner) (k : Counters) (q : Query) : Learner :=
  { L with counters := k, asked := L.asked ++ [q] }

section Noting

variable {k : Counters} {passed more : Finset Nat} {b : Bool}

theorem PassedOver.noting (h : L.PassedOver i) : (L.noting k q).PassedOver i :=
  h.mono rfl rfl (IndexSet.Subset.refl _) (List.prefix_append _ _)

variable (hq : q.verdict = some b)
include hq

theorem length_accepted_noting : (L.noting k q).accepted.length = L.accepted.length + b.toNat := by
  have happend : (L.noting k q).accepted = L.accepted ++ [q].filter (·.isPositive) :=
    List.filter_append L.asked [q]
  rw [happend, List.length_append]
  cases b with
  | true => simp [Query.isPositive, hq]
  | false => simp [Query.isPositive, hq]

theorem length_rejected_noting :
    (L.noting k q).rejected.length = L.rejected.length + (!b).toNat := by
  have happend : (L.noting k q).rejected = L.rejected ++ [q].filter (·.isNegative) :=
    List.filter_append L.asked [q]
  rw [happend, List.length_append]
  cases b with
  | true => simp [Query.isNegative, hq]
  | false => simp [Query.isNegative, hq]

theorem Counted.noting (h : L.Counted 1 passed) (hqueries : k.queries = L.counters.queries)
    (hpositive : k.positive = L.counters.positive + b.toNat)
    (hnegative : k.negative + more.card = L.counters.negative + passed.card + (!b).toNat)
    (hover : ∀ i ∈ more, (L.noting k q).PassedOver i) : (L.noting k q).Counted 0 more := by
  have haccepted : (L.noting k q).accepted.length = L.accepted.length + b.toNat :=
    length_accepted_noting hq
  have hrejected : (L.noting k q).rejected.length = L.rejected.length + (!b).toNat :=
    length_rejected_noting hq
  have hasked : (L.noting k q).asked.length = L.asked.length + 1 := by simp [Learner.noting]
  constructor
  · change k.queries = _
    rw [hqueries, h.queries, hasked]
  · change k.positive = _
    rw [hpositive, h.positive, haccepted]
  · change k.negative + _ = _
    rw [hnegative, h.negative, hrejected]
  · have htotal := h.total
    rw [hasked, haccepted, hrejected]
    cases b with
    | true => simp; omega
    | false => simp; omega
  · exact h.undecided
  · exact hover

end Noting

/-- An accepted query is counted once more, and then noted. -/
theorem Tallied.accept (h : L.Tallied 1) (hq : q.verdict = some true) :
    { L with counters := { L.counters with positive := L.counters.positive + 1 } }.Awaits q := by
  obtain ⟨passed, h⟩ := h
  have hnoting : (L.noting { L.counters with positive := L.counters.positive + 1 } q).Counted 0
      passed := h.noting hq rfl rfl rfl fun i hi => (h.skipped i hi).noting
  exact ⟨passed, hnoting⟩

/-- So is a rejected query, -/
theorem Tallied.reject (h : L.Tallied 1) (hq : q.verdict = some false) :
    { L with counters := { L.counters with negative := L.counters.negative + 1 } }.Awaits q := by
  obtain ⟨passed, h⟩ := h
  have hnegative : L.counters.negative + 1 + passed.card =
      L.counters.negative + passed.card + (!false).toNat := by
    simp only [Bool.not_false, Bool.toNat_true]
    omega
  have hnoting : (L.noting { L.counters with negative := L.counters.negative + 1 } q).Counted 0
      passed := h.noting hq rfl rfl hnegative fun i hi => (h.skipped i hi).noting
  exact ⟨passed, hnoting⟩

/-- unless it is passed over. -/
theorem Tallied.passOver (h : L.Tallied 1) (hq : q.verdict = some false)
    (hrepeated : L.isRepeated q = .ok true) : L.Awaits q := by
  obtain ⟨passed, h⟩ := h
  have hnew : L.asked.length ∉ passed := by
    intro hmem
    obtain ⟨_, _, hlast, -⟩ := h.skipped _ hmem
    simp at hlast
  refine ⟨insert L.asked.length passed, h.noting hq rfl rfl ?_ ?_⟩
  · rw [Finset.card_insert_of_notMem hnew]
    rfl
  · intro i hi
    rcases Finset.mem_insert.1 hi with rfl | hi
    · refine ⟨q, L.undecided, ?_, ?_, IndexSet.Subset.refl _, h.undecided, ?_⟩
      · simp [noting]
      · simp [Query.isNegative, hq]
      · simpa [noting] using hrepeated
    · exact (h.skipped i hi).noting

/-! ### Learning from a query -/

section Learning

variable {p : Learner × σ}

/-- A query that is counted and awaited is noted last of all. -/
theorem leads_noted {x : Procedure Learner σ α} (hx : Keeps (Rests (Awaits q)) x) (r : Learnt)
    (hp : p.1.Awaits q) :
    Action.Leads (do let _ ← x; noteAsked q; return r) p (fun _ p' => p'.1.Tallied 0)
      fun _ _ => True := by
  rw [Action.leads_bind]
  exact (hx p hp).mono (fun _ _ h => h) fun _ _ _ => trivial

theorem Tallied.count (h : L.Tallied 0) :
    { L with counters := { L.counters with queries := L.counters.queries + 1 } }.Tallied 1 := by
  obtain ⟨passed, h⟩ := h
  refine ⟨passed, ?_⟩
  constructor
  · exact congrArg (· + 1) h.queries
  · exact h.positive
  · exact h.negative
  · exact h.total
  · exact h.undecided
  · intro i hi
    exact (h.skipped i hi).mono rfl rfl (IndexSet.Subset.refl _) List.prefix_rfl

/-- To learn from a query that is under way settles it. -/
theorem leads_learn_tallied (hp : p.1.Tallied 1) (hq : q.isClassified = true) (reduce : Bool) :
    Action.Leads (learn q reduce) p (fun _ p' => p'.1.Tallied 0) fun _ _ => True := by
  obtain ⟨b, hb⟩ := Option.isSome_iff_exists.1 hq
  rw [learn, Action.leads_bind, leads_check]
  refine ⟨fun kappa _ => ?_, fun _ _ => trivial⟩
  cases b with
  | true =>
    have hpositive : q.isPositive = true := by simp [Query.isPositive, hb]
    rw [if_pos hpositive, Action.leads_bind, leads_count]
    exact leads_noted (rests_ruleOut apart_awaits kappa) _ (hp.accept hb)
  | false =>
    have hpositive : ¬ q.isPositive = true := by simp [Query.isPositive, hb]
    rw [if_neg hpositive, Action.leads_bind, leads_count]
    have hawaits := hp.reject hb
    split
    · exact hawaits.of_same rfl rfl (IndexSet.Subset.refl _) rfl rfl
    · next c _ => exact leads_noted (rests_confirm apart_awaits reduce q c) _ hawaits
    · rw [Action.leads_bind]
      have hliterals : Keeps (Rests (Awaits q))
          (kappa.toList.mapM literal : Procedure Learner σ (List Literal)) :=
        keeps_mapM keeps_literal _
      apply (hliterals (_, p.2) hawaits).mono _ fun _ _ _ => trivial
      intro ls p' hp'
      exact leads_noted (rests_addClause apart_awaits reduce _) _ hp'

theorem leads_learnEarly_tallied (hp : p.1.Tallied 1) (hq : q.isClassified = true) :
    Action.Leads (learnEarly q) p (fun _ p' => p'.1.Tallied 0) fun _ _ => True := by
  have hlearn := leads_learn_tallied hp hq true
  rw [learnEarly]
  split
  · next hnegative =>
    have hrejected : q.verdict = some false := by simpa [Query.isNegative] using hnegative
    rw [Action.leads_bind, leads_check]
    refine ⟨fun repeated hrepeated => ?_, fun _ _ => trivial⟩
    cases repeated with
    | true => exact hp.passOver hrejected hrepeated
    | false => exact hlearn
  · exact hlearn

/-- What comes of a query that is under way, if nothing fails but a limit. -/
def Resolves (x : Procedure Learner σ Learnt) (p : Learner × σ) : Prop :=
  Action.Leads x p (fun _ => Rests (Tallied 0)) fun f _ => ¬ f.Late

theorem resolves_learn (hp : p.1.Tallied 1) (hq : q.isClassified = true) (reduce : Bool) :
    Resolves (learn q reduce) p :=
  ((leads_learn_tallied hp hq reduce).and (prompt_learn q reduce p)).mono
    (fun _ _ h => h.1) fun _ _ h => h.2

theorem resolves_learnEarly (hp : p.1.Tallied 1) (hq : q.isClassified = true) :
    Resolves (learnEarly q) p :=
  ((leads_learnEarly_tallied hp hq).and (prompt_learnEarly q p)).mono
    (fun _ _ h => h.1) fun _ _ h => h.2

end Learning

/-! ### Runs -/

section Running

variable {B : Backends σ} {p : Learner × σ}

theorem leads_classify_tallied (horacle : oracle.Prompt) (q : Query) (hp : p.1.Tallied 0) :
    Action.Leads (classify oracle q) p
      (fun q p' => p'.1.Tallied 1 ∧ q.isClassified = true) fun f _ => ¬ f.Late := by
  have hverdict : ∀ (b : Bool) (p' : Learner × σ), p'.1.Tallied 1 →
      Action.Leads (Action.ofForeseen (q.classify b) : Procedure Learner σ Query) p'
        (fun q p' => p'.1.Tallied 1 ∧ q.isClassified = true) fun f _ => ¬ f.Late := by
    intro b p' hp'
    rw [Action.leads_ofForeseen, Query.classify]
    split
    · simp [Failure.Late]
    · simp [Query.isClassified, hp']
  rw [classify, Action.leads_bind, leads_count, Action.leads_bind, leads_call]
  apply (horacle q p.2).mono _ fun _ _ h => h
  intro a t _
  cases a with
  | accept => exact hverdict true _ hp.count
  | reject => exact hverdict false _ hp.count
  | unknown => simp [Failure.Late]

theorem resolves_ask (horacle : oracle.Prompt) (q : Query) (hp : p.1.Tallied 0) :
    Resolves (ask oracle q) p := by
  rw [ask, Resolves, Action.leads_bind]
  apply (leads_classify_tallied horacle q hp).mono _ fun _ _ h => h
  intro q' p' hp'
  exact resolves_learn hp'.1 hp'.2 false

theorem Resolves.spares {x : Procedure Learner σ Learnt}
    (h : ∀ p, Tallied 0 p.1 → Resolves x p) : Spares (Rests (Tallied 0)) x :=
  fun p hp => (h p hp).mono (fun _ _ h => h) fun _ _ h hlate => absurd hlate h

theorem spares_learnReplayed (horacle : oracle.Prompt) (qs : List Query) :
    Spares (Rests (Tallied 0)) (learnReplayed oracle qs : Procedure Learner σ Learnt) := by
  induction qs with
  | nil => exact (keeps_pure _).spares
  | cons q qs ih =>
    have hrest : ∀ (q : Query) (p : Learner × σ), p.1.Tallied 1 → q.isClassified = true →
        Action.Leads (do if (← learnEarly q) = .collapse then return .collapse
                         learnReplayed oracle qs) p
          (fun _ => Rests (Tallied 0)) fun f p' => f.Late → Rests (Tallied 0) p' := by
      intro q p hp hq
      rw [Action.leads_bind]
      apply (resolves_learnEarly hp hq).mono _ fun _ _ h hlate => absurd hlate h
      intro r p' hp'
      split
      · exact hp'
      · exact ih p' hp'
    rw [learnReplayed]
    apply keeps_poll.spares.bind
    intro _ p hp
    dsimp only
    split
    · next hq =>
      rw [Action.leads_bind, leads_count]
      exact hrest q _ hp.count hq
    · rw [Action.leads_bind]
      apply (leads_classify_tallied horacle q hp).mono _ fun _ _ h hlate => absurd hlate h
      intro q' p' hp'
      exact hrest q' p' hp'.1 hp'.2

theorem spares_learnStrategies (horacle : oracle.Prompt) (cp : CpBackend σ) (Ns : List Network) :
    Spares (Rests (Tallied 0)) (learnStrategies cp oracle Ns : Procedure Learner σ Learnt) := by
  induction Ns with
  | nil => exact (keeps_pure _).spares
  | cons N Ns ih =>
    rw [learnStrategies]
    apply keeps_poll.spares.bind
    intro _
    apply keeps_own.spares.bind
    intro L
    apply (rests_witness aside_tallied.apart cp _).spares.bind
    intro r
    cases r with
    | none => exact ih
    | some q =>
      intro p hp
      rw [Action.leads_bind]
      apply (leads_classify_tallied horacle q hp).mono _ fun _ _ h hlate => absurd hlate h
      intro q' p' hp'
      rw [Action.leads_bind]
      apply (resolves_learnEarly hp'.1 hp'.2).mono _ fun _ _ h hlate => absurd hlate h
      intro r p'' hp''
      split
      · exact hp''
      · exact ih p'' hp''

theorem spares_preprocess (horacle : oracle.Prompt) (cp : CpBackend σ) :
    Spares (Rests (Tallied 0)) (preprocess cp oracle) := by
  rw [preprocess]
  apply keeps_own.spares.bind
  intro L
  apply (rests_update fun L h => h.set L.settings [] L.passive L.strategies).spares.bind
  intro _
  apply (spares_learnReplayed horacle _).bind
  intro r
  split
  · exact (keeps_pure _).spares
  · apply keeps_own.spares.bind
    intro L'
    apply (rests_update fun L h => h.set L.settings L.replay L.passive []).spares.bind
    exact fun _ => spares_learnStrategies horacle cp _

/-- A network that is learnt, and a query to blame, have no bearing on the counts. -/
theorem rests_extract_tallied (sat : SatBackend σ) :
    Keeps (Rests (Tallied 0)) (extract sat : Procedure Learner σ Outcome) :=
  rests_extract aside_tallied.apart
    (fun _ _ _ h => h.of_same rfl rfl (IndexSet.Subset.refl _) rfl rfl) sat

theorem spares_acquire (horacle : oracle.Prompt) (B : Backends σ) (fuel : Nat) :
    Spares (Rests (Tallied 0)) (acquire B oracle fuel) := by
  induction fuel with
  | zero => exact (keeps_throw _).spares
  | succ fuel ih =>
    rw [acquire]
    apply keeps_poll.spares.bind
    intro _
    apply keeps_own.spares.bind
    intro L
    split
    · exact (rests_extract_tallied B.sat).spares
    · apply (rests_generate aside_tallied B fuel).spares.bind
      intro r
      cases r with
      | none => exact (rests_extract_tallied B.sat).spares
      | some q =>
        apply (Resolves.spares fun p hp => resolves_ask horacle q hp).bind
        intro r
        split
        · exact (keeps_pure _).spares
        · exact ih

theorem spares_run (horacle : oracle.Prompt) (B : Backends σ) (fuel : Nat) :
    Spares (Rests (Tallied 0)) (run B oracle fuel) := by
  rw [run]
  apply (spares_preprocess horacle B.cp).bind
  intro r
  split
  · exact (keeps_pure _).spares
  · apply keeps_own.spares.bind
    intro L
    split
    · exact (rests_extract_tallied B.sat).spares
    · exact spares_acquire horacle B fuel

/-- A run that is stopped by a limit leaves no query under way. -/
theorem spares_process (horacle : oracle.Prompt) (B : Backends σ) (fuel : Nat) :
    Spares (Rests (Tallied 0)) (process B oracle fuel) := by
  rw [process_eq]
  apply Spares.bind
  · apply Keeps.spares
    apply rests_setLimits
    exact fun _ _ h => h.of_same rfl rfl (IndexSet.Subset.refl _) rfl rfl
  · intro _ p hp
    rw [Action.leads_bind, Action.leads_attempt]
    apply (spares_run horacle B fuel p hp).mono
    · exact fun _ _ h => h
    · intro f p' h
      split
      · next hf => cases hf
      · next hf =>
        cases hf
        exact (h (.inl rfl)).of_same rfl rfl (IndexSet.Subset.refl _) rfl rfl
      · next hf =>
        cases hf
        exact h (.inr rfl)
      · next hf =>
        cases hf
        exact h

end Running

/-! ### Histories -/

section Histories

variable {B : Backends σ} {s t : σ} {settings : Settings} {A : Arena} {bias : Bias}
  {known : Network} {ops : List (Operation σ)} {p : Learner × σ}

theorem Operation.spares_run {op : Operation σ}
    (hop : ∀ oracle, op.oracle? = some oracle → oracle.Prompt) :
    Spares (Rests (Tallied 0)) (op.run B) := by
  have hmap : ∀ {α : Type} {x : Procedure Learner σ α}, Spares (Rests (Tallied 0)) x →
      Spares (Rests (Tallied 0)) ((fun _ => ()) <$> x : Procedure Learner σ Unit) := by
    intro α x hx p hp
    rw [Action.leads_map]
    exact hx p hp
  cases op with
  | ask oracle q => exact hmap (Resolves.spares fun p hp => resolves_ask (hop _ rfl) q hp)
  | generate fuel => exact hmap (rests_generate aside_tallied B fuel).spares
  | preprocess oracle => exact hmap (spares_preprocess (hop _ rfl) B.cp)
  | process oracle fuel => exact hmap (spares_process (hop _ rfl) B fuel)
  | isFree c => exact hmap (rests_isFree aside_tallied B.sat c).spares
  | background Ns => exact (rests_addBackground aside_tallied Ns).spares
  | configure settings passive =>
    exact fun p hp => Tallied.set hp settings p.1.replay passive p.1.strategies
  | replay qs => exact fun p hp => Tallied.set hp p.1.settings qs p.1.passive p.1.strategies
  | strategies Ns => exact fun p hp => Tallied.set hp p.1.settings p.1.replay p.1.passive Ns

theorem spares_forM (hops : ∀ op ∈ ops, ∀ oracle, op.oracle? = some oracle → oracle.Prompt) :
    Spares (Rests (Tallied 0)) (ops.forM (Operation.run B)) := by
  induction ops with
  | nil => exact (keeps_pure _).spares
  | cons op ops ih =>
    apply (Operation.spares_run (hops op List.mem_cons_self)).bind
    exact fun _ => ih fun op' hop' => hops op' (List.mem_cons_of_mem op hop')

/-- A learner that is started has counted nothing, and has nothing noted. -/
theorem leads_start_tallied :
    (start B.sat settings A bias known).Leads s (fun L _ => L.Tallied 0) fun _ _ => True := by
  have hall : ∀ {α : Type} (x : Action σ α) (s : σ),
      x.Leads s (fun _ _ => True) fun _ _ => True := Action.leads_trivial
  rw [start, Action.leads_bind]
  apply (hall _ s).mono _ fun _ _ _ => trivial
  intro kept s₁ _
  rw [Action.leads_bind]
  apply (hall _ s₁).mono _ fun _ _ _ => trivial
  intro due s₂ _
  rw [Action.leads_bind]
  apply (hall _ s₂).mono _ fun _ _ _ => trivial
  intro dueKnown s₃ _
  rw [Action.leads_bind]
  apply (hall _ s₃).mono _ fun _ _ _ => trivial
  intro atoms s₄ _
  refine ⟨∅, ?_⟩
  constructor
  · rfl
  · rfl
  · rfl
  · rfl
  · exact IndexSet.Subset.refl _
  · simp

/-- After any calls without an error on a learner that was started, whatever they replay and
whatever strategies they are given, the counts are those of the queries noted, except that the
count of rejected queries leaves out those that were passed over. -/
theorem counts_match_history
    (hstart : (start B.sat settings A bias known).outcome s = (.ok L, t))
    (hops : ∀ op ∈ ops, ∀ oracle, op.oracle? = some oracle → oracle.Prompt)
    (hrun : Action.outcome (ops.forM (Operation.run B)) (L, t) = (.ok (), p)) :
    ∃ passed : Finset Nat, (∀ i ∈ passed, p.1.PassedOver i) ∧
      p.1.counters.queries = p.1.asked.length ∧
      p.1.counters.positive = p.1.accepted.length ∧
      p.1.counters.negative + passed.card = p.1.rejected.length ∧
      p.1.counters.queries = p.1.counters.positive + p.1.counters.negative + passed.card := by
  have hfresh : L.Tallied 0 := leads_start_tallied.of_ok hstart
  obtain ⟨passed, h⟩ := (spares_forM hops (L, t) hfresh).of_ok hrun
  refine ⟨passed, h.skipped, h.queries, h.positive, h.negative, ?_⟩
  calc p.1.counters.queries
      = p.1.accepted.length + p.1.rejected.length := h.queries.trans h.total
    _ = p.1.counters.positive + p.1.counters.negative + passed.card := by
      rw [h.positive, Nat.add_assoc, h.negative]

end Histories

end Learner

namespace Exhaustive

open Learner

/-- Whether some operations on a fresh learner over the first constraint end without an error,
in a state that passes a check. -/
def endsAll (ops : List (Operation World)) (check : Learner → Bool) : Bool :=
  checksFresh lone fun L t =>
    match Action.outcome (ops.forM (Operation.run (backends bits))) (L, t) with
    | (.ok _, p) => check p.1
    | (.error _, _) => false

theorem exists_of_endsAll {ops : List (Operation World)} {check : Learner → Bool}
    (h : endsAll ops check = true) : ∃ L t p,
      (start sat {} sample lone {}).outcome [] = (.ok L, t) ∧
      Action.outcome (ops.forM (Operation.run (backends bits))) (L, t) = (.ok (), p) ∧
      check p.1 = true := by
  obtain ⟨L, t, hL, hcheck⟩ := exists_of_checksFresh h
  split at hcheck
  · next p hp => exact ⟨L, t, p, hL, hp, hcheck⟩
  · cases hcheck

/-- A query is replayed that was rejected, and once more. -/
def twice : List (Operation World) :=
  [.replay [judged false [(0, 1)], judged false [(0, 1)]], .process (judge sample wanted) 20]

theorem prompt_twice : ∀ op ∈ twice, ∀ oracle, op.oracle? = some oracle → oracle.Prompt := by
  intro op hop oracle horacle
  simp only [twice, List.mem_cons, List.not_mem_nil, or_false] at hop
  rcases hop with rfl | rfl
  · cases horacle
  · cases horacle
    exact fun q => Action.prompt_pure _

/-- Both are noted, and there were two queries, but only the first one counts as rejected. -/
theorem counts_leave_out_repeat : ∃ L t p,
    (start sat {} sample lone {}).outcome [] = (.ok L, t) ∧
    Action.outcome (twice.forM (Operation.run (backends bits))) (L, t) = (.ok (), p) ∧
    p.1.counters.queries = 2 ∧ p.1.counters.positive = 0 ∧ p.1.counters.negative = 1 ∧
    p.1.rejected.length = 2 := by
  have h : endsAll twice (fun L => decide (L.counters.queries = 2 ∧ L.counters.positive = 0 ∧
      L.counters.negative = 1 ∧ L.rejected.length = 2)) = true := by
    decide +kernel
  obtain ⟨L, t, p, hL, hp, hcheck⟩ := exists_of_endsAll h
  exact ⟨L, t, p, hL, hp, of_decide_eq_true hcheck⟩

/-- One of the two was passed over. -/
theorem counts_match_repeat : ∃ p : Learner × World, ∃ passed : Finset Nat,
    passed.card = 1 ∧ (∀ i ∈ passed, p.1.PassedOver i) ∧ p.1.rejected.length = 2 := by
  have h : endsAll twice (fun L => decide (L.counters.negative = 1 ∧ L.rejected.length = 2)) =
      true := by
    decide +kernel
  obtain ⟨L, t, p, hL, hp, hcheck⟩ := exists_of_endsAll h
  obtain ⟨hnegative, hrejected⟩ := of_decide_eq_true hcheck
  obtain ⟨passed, hover, -, -, hcount, -⟩ := counts_match_history (B := backends bits) hL
    prompt_twice hp
  refine ⟨p, passed, ?_, hover, hrejected⟩
  omega

end Exhaustive

end Acquisition
