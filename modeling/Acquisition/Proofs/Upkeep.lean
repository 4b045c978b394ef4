import Acquisition.Proofs.Indexing
import Acquisition.Proofs.Weights

/-!
# The upkeep of clause stores

Clauses come to a store in two ways. To add one only looks for a clause with the same
literals; to add one reduced also compares it with clauses that have fewer literals or
more. Whatever is added, removed, marked, chosen and propagated, and in whatever order, no
two clauses ever have the same literals. Where clauses are only added reduced, or removed,
none ever subsumes another.
-/
namespace Acquisition

open Checked

/-- The clause has a literal, and its literals have the atoms of their constraints. -/
def Clause.Proper (atom : ConstraintId → Atom) (c : Clause) : Prop :=
  c.literals ≠ [] ∧ ∀ l ∈ c.literals, l.atom = atom l.constraint

instance (atom : ConstraintId → Atom) (c : Clause) : Decidable (c.Proper atom) :=
  inferInstanceAs (Decidable (_ ∧ _))

namespace ClauseStore

/-- What may be done to a store. -/
inductive Operation
  | add (c : Clause)
  | addReduced (c : Clause)
  | concat (T : ClauseStore)
  | take (k : ClauseKey)
  | discard (c : Clause)
  | mark (k : ClauseKey)
  | unmarkAll
  | select (A : Arena) (how : Selection)
  | propagate (l : Literal)

namespace Operation

/-- The store after an operation. -/
def run (S : ClauseStore) : Operation → Checked ClauseStore
  | add c => .ok (S.add c).2
  | addReduced c => .ok (S.addReduced c).2
  | concat T => .ok (S.concat T)
  | take k => .ok (S.take k).2
  | discard c => .ok (S.discard c).2
  | mark k => .ok (S.mark k)
  | unmarkAll => .ok S.unmarkAll
  | select A how => (·.2) <$> S.select A how
  | propagate l => (·.2) <$> S.propagate l

/-- The clauses that an operation brings. -/
def brought : Operation → List Clause
  | add c => [c]
  | addReduced c => [c]
  | concat T => T.clauses
  | _ => []

/-- Whether an operation adds a clause reduced, or removes one. -/
def reduces : Operation → Bool
  | addReduced _ => true
  | take _ => true
  | _ => false

end Operation

/-- No clause subsumes another. -/
def Irredundant (S : ClauseStore) : Prop :=
  ∀ k k' c d, S.get? k = some c → S.get? k' = some d → k ≠ k' → c.subsumes d = false

/-- What it comes to that `c` is added reduced. -/
structure Absorbs (S : ClauseStore) (c : Clause) : Prop where
  models : ∀ v, (S.addReduced c).2.Holds v ↔ S.Holds v ∧ c.Holds v
  /-- A clause that `c` does not subsume stays at its key. -/
  kept : ∀ k d, S.get? k = some d → c.subsumes d = false → (S.addReduced c).2.get? k = some d
  refused : (S.addReduced c).1 = false ↔ ∃ d ∈ S.clauses, d.subsumes c = true

/-- What every operation keeps true of a store. -/
structure Tidy (atom : ConstraintId → Atom) (S : ClauseStore) : Prop where
  valid : S.Valid
  distinct : S.Distinct
  proper : ∀ c ∈ S.clauses, c.Proper atom

section

variable {atom : ConstraintId → Atom} {S T : ClauseStore} {c d : Clause} {k : ClauseKey}
  {l : Literal} {w : Wave} {ops : List Operation}

/-! ### Clauses that come and go -/

theorem Distinct.insert (hS : S.Valid) (h : S.Distinct)
    (hc : ∀ d ∈ S.clauses, d.literals ≠ c.literals) : (S.insert c).2.Distinct := by
  rw [distinct_iff] at h ⊢
  intro k₁ k₂ c₁ c₂ h₁ h₂ hl
  rw [get?_insert hS] at h₁ h₂
  split at h₁
  · next hk₁ =>
    split at h₂
    · next hk₂ => rw [hk₁, hk₂]
    · cases h₁
      exact absurd hl.symm (hc c₂ (get?_mem h₂))
  · split at h₂
    · cases h₂
      exact absurd hl (hc c₁ (get?_mem h₁))
    · exact h k₁ k₂ c₁ c₂ h₁ h₂ hl

theorem Distinct.retain (h : S.Distinct) (p : Clause → Bool) : (S.retain p).Distinct := by
  rw [distinct_iff] at h ⊢
  intro k₁ k₂ c₁ c₂ h₁ h₂ hl
  exact h k₁ k₂ c₁ c₂ (get?_retain.1 h₁).1 (get?_retain.1 h₂).1 hl

theorem Distinct.of_sameLiterals (h : S.Distinct) (hsame : S.SameLiterals T) : T.Distinct := by
  rw [distinct_iff] at h ⊢
  intro k₁ k₂ c₁ c₂ h₁ h₂ hl
  obtain ⟨d₁, hd₁, hl₁⟩ := hsame.get? h₁
  obtain ⟨d₂, hd₂, hl₂⟩ := hsame.get? h₂
  exact h k₁ k₂ d₁ d₂ hd₁ hd₂ (hl₁.trans (hl.trans hl₂.symm))

theorem mem_of_mem_erase (hd : d ∈ (S.erase k).clauses) : d ∈ S.clauses := by
  obtain ⟨k', hk'⟩ := mem_clauses.1 hd
  rw [get?_erase] at hk'
  split at hk'
  · cases hk'
  · exact get?_mem hk'

theorem mem_of_mem_modify (hd : d ∈ (S.modify k fun _ => c).clauses) : d = c ∨ d ∈ S.clauses := by
  obtain ⟨k', hk'⟩ := mem_clauses.1 hd
  rw [get?_modify] at hk'
  split at hk'
  · obtain ⟨_, -, rfl⟩ := Option.map_eq_some_iff.1 hk'
    exact .inl rfl
  · exact .inr (get?_mem hk')

theorem tidy_empty (atom : ConstraintId → Atom) : empty.Tidy atom :=
  ⟨valid_empty, .nil, fun _ hc => absurd hc List.not_mem_nil⟩

theorem Tidy.nonEmpty (h : S.Tidy atom) : S.NonEmpty := fun c hc => (h.proper c hc).1

theorem Tidy.adding (h : S.Tidy atom) (hc : c.Proper atom) : (S.adding c).Tidy atom where
  valid := h.valid.adding c
  distinct := by
    cases hfind : S.find? c with
    | some k =>
      rw [adding_of_some hfind]
      exact h.distinct
    | none =>
      rw [adding_of_none hfind]
      exact h.distinct.insert h.valid fun d hd => find?_eq_none hfind hd
  proper d hd := by
    rcases mem_of_mem_adding h.valid hd with rfl | hd
    · exact hc
    · exact h.proper d hd

theorem Tidy.foldl_adding {cs : List Clause} (h : S.Tidy atom) (hcs : ∀ c ∈ cs, c.Proper atom) :
    (cs.foldl ClauseStore.adding S).Tidy atom := by
  induction cs generalizing S with
  | nil => exact h
  | cons c cs ih =>
    rw [List.forall_mem_cons] at hcs
    exact ih (h.adding hcs.1) hcs.2

theorem Tidy.addReduced (h : S.Tidy atom) (hc : c.Proper atom) : (S.addReduced c).2.Tidy atom where
  valid := h.valid.addReduced c
  distinct := by
    unfold ClauseStore.addReduced
    split
    · exact h.distinct
    · next hany =>
      apply (h.distinct.retain _).insert (h.valid.retain _)
      -- A clause with the literals of `c` would have subsumed it.
      intro d hd hl
      refine hany (List.any_eq_true.2 ⟨d, (mem_retain.1 hd).1, ?_⟩)
      rw [subsumes_eq_true, hl]
      exact fun _ h => h
  proper d hd := by
    rcases mem_of_mem_addReduced h.valid hd with rfl | hd
    · exact hc
    · exact h.proper d hd

theorem Tidy.erase (h : S.Tidy atom) (k : ClauseKey) : (S.erase k).Tidy atom :=
  ⟨h.valid.erase k, h.distinct.erase k, fun d hd => h.proper d (mem_of_mem_erase hd)⟩

theorem Tidy.of_sameLiterals (h : S.Tidy atom) (hT : T.Valid) (hsame : S.SameLiterals T) :
    T.Tidy atom where
  valid := hT
  distinct := h.distinct.of_sameLiterals hsame
  proper d hd := by
    obtain ⟨c, hc, hl⟩ := hsame.mem hd
    unfold Clause.Proper
    rw [← hl]
    exact h.proper c hc

theorem Tidy.discard (h : S.Tidy atom) (c : Clause) : (S.discard c).2.Tidy atom := by
  unfold ClauseStore.discard
  split
  · exact h.erase _
  · exact h

/-! ### Propagation -/

/-- What is left of a clause of several literals is proper. -/
theorem Remains.proper (h : Remains [l] c d) (hlong : isLong c = true) (hc : c.Proper atom) :
    d.Proper atom := by
  constructor
  · apply h.ne_nil hlong
    intro m hm n hn hconst
    rw [hc.2 m hm, hc.2 n hn, hconst]
  · intro m hm
    exact hc.2 m (h.sublist.subset hm)

theorem Tidy.visit (h : w.store.Tidy atom) (l : Literal) (k : ClauseKey)
    (hlong : ∀ c, w.store.get? k = some c → isLong c = true) :
    (Wave.visit l w k).store.Tidy atom := by
  cases hc : w.store.get? k with
  | none =>
    rw [Wave.visit_of_none l w k hc]
    exact h
  | some c =>
    cases Wave.visit_cases l w k hc with
    | satisfied hl hw =>
      rw [hw]
      exact h.erase k
    | untouched hl hfree hw =>
      rw [hw]
      exact h
    | doubled d hl hd hother hw =>
      rw [hw]
      exact h.erase k
    | shortened d hl hd hother hw =>
      rw [hw]
      have hproper := hd.proper (hlong c hc) (h.proper c (get?_mem hc))
      refine ⟨h.valid.modify k _, h.distinct.modify hother, fun e he => ?_⟩
      rcases mem_of_mem_modify he with rfl | he
      · exact hproper
      · exact h.proper e he

theorem Tidy.pass (h : w.store.Tidy atom) (l : Literal) : (w.pass l).store.Tidy atom :=
  Wave.pass_induction (P := fun w => w.store.Tidy atom) l h fun _ k h hlong => h.visit l k hlong

theorem Tidy.waves (h : w.store.Tidy atom) (fuel : Nat) : (Wave.run fuel w).store.Tidy atom := by
  induction fuel generalizing w with
  | zero => exact h
  | succ fuel ih =>
    rw [Wave.run]
    split
    · exact h
    · next l rest hq => exact ih (Tidy.pass (w := { w with queue := rest }) h l)

theorem Tidy.propagate (h : S.Tidy atom) (l : Literal) :
    ∃ T, (·.2) <$> S.propagate l = .ok T ∧ T.Tidy atom := by
  rw [propagate_eq_run h.nonEmpty]
  exact ⟨_, rfl, Tidy.waves (w := { store := S, queue := [l] }) h _⟩

/-! ### What every operation keeps -/

/-- One operation. It can only fail where the weight of a clause is not told. -/
theorem Tidy.run (h : S.Tidy atom) {op : Operation} (hop : ∀ c ∈ op.brought, c.Proper atom) :
    (∀ T, op.run S = .ok T → T.Tidy atom) ∧
      ∀ f, op.run S = .error f → f = .overflow ∨ ∃ c, f = .unregistered c := by
  cases op with
  | add c =>
    refine ⟨fun T hT => ?_, nofun⟩
    cases hT
    exact h.adding (hop c List.mem_cons_self)
  | addReduced c =>
    refine ⟨fun T hT => ?_, nofun⟩
    cases hT
    exact h.addReduced (hop c List.mem_cons_self)
  | concat T =>
    refine ⟨fun T hT => ?_, nofun⟩
    cases hT
    exact h.foldl_adding hop
  | take k =>
    refine ⟨fun T hT => ?_, nofun⟩
    cases hT
    exact h.erase k
  | discard c =>
    refine ⟨fun T hT => ?_, nofun⟩
    cases hT
    exact h.discard c
  | mark k =>
    refine ⟨fun T hT => ?_, nofun⟩
    cases hT
    exact h.of_sameLiterals (h.valid.mark k) (sameLiterals_mark S k)
  | unmarkAll =>
    refine ⟨fun T hT => ?_, nofun⟩
    cases hT
    exact h.of_sameLiterals h.valid.unmarkAll (sameLiterals_unmarkAll S)
  | select A how =>
    constructor
    · intro T hT
      obtain ⟨p, hp, rfl⟩ := map_eq_ok.1 hT
      obtain ⟨hvalid, hsame, -⟩ := select_eq_ok h.valid hp
      exact h.of_sameLiterals hvalid hsame
    · intro f hf
      cases hselect : S.select A how with
      | ok p =>
        rw [Operation.run, hselect] at hf
        cases hf
      | error e =>
        rw [Operation.run, hselect] at hf
        cases hf
        obtain ⟨c, -, hw⟩ := select_error hselect
        rcases Clause.weight_fails hw with rfl | ⟨l, -, -, rfl⟩
        · exact .inl rfl
        · exact .inr ⟨_, rfl⟩
  | propagate l =>
    obtain ⟨T, hT, htidy⟩ := h.propagate l
    rw [Operation.run, hT]
    refine ⟨fun T' hT' => ?_, nofun⟩
    cases hT'
    exact htidy

/-- Any sequence of operations. -/
theorem Tidy.run_all (h : S.Tidy atom) (hops : ∀ op ∈ ops, ∀ c ∈ op.brought, c.Proper atom) :
    (∀ T, ops.foldlM Operation.run S = .ok T → T.Tidy atom) ∧
      ∀ f, ops.foldlM Operation.run S = .error f → f = .overflow ∨ ∃ c, f = .unregistered c := by
  induction ops generalizing S with
  | nil =>
    refine ⟨fun T hT => ?_, nofun⟩
    cases hT
    exact h
  | cons op ops ih =>
    rw [List.forall_mem_cons] at hops
    obtain ⟨hok, herror⟩ := h.run hops.1
    rw [List.foldlM_cons]
    constructor
    · intro T hT
      obtain ⟨T', hT', hT⟩ := bind_eq_ok.1 hT
      exact (ih (hok T' hT') hops.2).1 T hT
    · intro f hf
      rcases bind_eq_error.1 hf with hf | ⟨T', hT', hf⟩
      · exact herror f hf
      · exact (ih (hok T' hT') hops.2).2 f hf

/-! ### Clauses that are added reduced -/

theorem absorbs (hS : S.Valid) (c : Clause) : S.Absorbs c where
  models v := by
    constructor
    · intro h
      have hall : ∀ d, d ∈ S.clauses ∨ d = c → d.Holds v := by
        intro d hd
        obtain ⟨e, he, hsub⟩ := exists_addReduced hS hd
        obtain ⟨l, hl, hv⟩ := h e he
        exact ⟨l, hsub l hl, hv⟩
      exact ⟨fun d hd => hall d (.inl hd), hall c (.inr rfl)⟩
    · intro h d hd
      rcases mem_of_mem_addReduced hS hd with rfl | hd
      · exact h.2
      · exact h.1 d hd
  kept k d hk hsub := by
    have hretain : (S.retain (!c.subsumes ·)).get? k = some d := by
      rw [get?_retain, hsub]
      exact ⟨hk, rfl⟩
    unfold addReduced
    split
    · exact hk
    · rw [get?_insert (hS.retain _), if_neg, hretain]
      intro heq
      rw [heq, get?_insert_key (hS.retain _)] at hretain
      cases hretain
  refused := by
    rw [← List.any_eq_true, addReduced]
    split
    · next hany => exact iff_of_true rfl hany
    · next hany => exact iff_of_false nofun hany

theorem Irredundant.erase (h : S.Irredundant) (k : ClauseKey) : (S.erase k).Irredundant := by
  intro k₁ k₂ c d hc hd hne
  rw [get?_erase] at hc hd
  split at hc
  · cases hc
  · split at hd
    · cases hd
    · exact h k₁ k₂ c d hc hd hne

theorem Irredundant.addReduced (hS : S.Valid) (h : S.Irredundant) (c : Clause) :
    (S.addReduced c).2.Irredundant := by
  unfold ClauseStore.addReduced
  split
  · exact h
  · next hany =>
    have hnot : ∀ d ∈ S.clauses, d.subsumes c = false := by
      intro d hd
      rw [Bool.eq_false_iff]
      exact fun hsub => hany (List.any_eq_true.2 ⟨d, hd, hsub⟩)
    intro k₁ k₂ c₁ c₂ h₁ h₂ hne
    rw [get?_insert (hS.retain _)] at h₁ h₂
    split at h₁
    · next hk₁ =>
      split at h₂
      · next hk₂ => exact absurd (hk₁.trans hk₂.symm) hne
      · -- What `c` subsumes has been removed.
        cases h₁
        simpa using (get?_retain.1 h₂).2
    · have hc₁ := (get?_retain.1 h₁).1
      split at h₂
      · cases h₂
        exact hnot c₁ (get?_mem hc₁)
      · exact h k₁ k₂ c₁ c₂ hc₁ (get?_retain.1 h₂).1 hne

theorem Irredundant.run_all (hS : S.Valid) (h : S.Irredundant)
    (hops : ∀ op ∈ ops, op.reduces = true) :
    ∃ T, ops.foldlM Operation.run S = .ok T ∧ T.Irredundant := by
  induction ops generalizing S with
  | nil => exact ⟨S, rfl, h⟩
  | cons op ops ih =>
    rw [List.forall_mem_cons] at hops
    rw [List.foldlM_cons]
    cases op with
    | addReduced c => exact ih (hS.addReduced c) (h.addReduced hS c) hops.2
    | take k => exact ih (hS.erase k) (h.erase k) hops.2
    | _ => cases hops.1

theorem operations_keep_reduced (hops : ∀ op ∈ ops, ∀ c ∈ op.brought, c.Proper atom) :
    (∀ S, ops.foldlM Operation.run empty = .ok S → S.Distinct ∧
      (∀ l, S.propagateIndexed l = S.propagate l) ∧ ∀ c, S.Absorbs c) ∧
    (∀ f, ops.foldlM Operation.run empty = .error f →
      f = .overflow ∨ ∃ c, f = .unregistered c) ∧
    ((∀ op ∈ ops, op.reduces = true) →
      ∃ S, ops.foldlM Operation.run empty = .ok S ∧ S.Irredundant) := by
  obtain ⟨htidy, hfails⟩ := (tidy_empty atom).run_all hops
  have hirredundant : empty.Irredundant := by
    intro k k' c d hc
    rw [get?_empty] at hc
    cases hc
  refine ⟨fun S hS => ?_, hfails, hirredundant.run_all valid_empty⟩
  have hS := htidy S hS
  exact ⟨hS.distinct, hS.distinct.propagateIndexed_eq, absorbs hS.valid⟩

/-- The clause of the constraints of the positive literals, and of those of the negated ones. -/
def clauseOf (positive negated : List ConstraintId) : Clause :=
  .ofList (positive.map (fun c => ⟨c, c, false⟩) ++ negated.map fun c => ⟨c, c, true⟩)

/-- Operations of each kind. When `-0` is propagated, which forces `3`, both `(0 or 1 or 2)` and
`(1 or 2 or -3)` become `(1 or 2)`, which is there. The last key is that of a clause which is no
longer in its slot. -/
def repertoire : List Operation :=
  [.add (clauseOf [0, 1, 2] []), .add (clauseOf [2, 0, 1] []), .addReduced (clauseOf [1, 2] [3]),
    .concat ([clauseOf [1, 2] [], clauseOf [0, 3] []].foldl adding empty), .mark ⟨0, 0⟩,
    .select .empty .firstUnmarked, .propagate ⟨0, 0, true⟩, .unmarkAll, .discard (clauseOf [] [2]),
    .add (clauseOf [] [4]), .take ⟨1, 0⟩]

/-- Clauses that are added reduced, of which the second subsumes the first one, the third is
subsumed, and the fourth takes the place of one that was removed. -/
def reducing : List Operation :=
  [.addReduced (clauseOf [0, 1, 2] []), .addReduced (clauseOf [0, 1] []),
    .addReduced (clauseOf [0, 1] [3]), .addReduced (clauseOf [] [3]), .take ⟨0, 1⟩,
    .addReduced (clauseOf [0, 2] [])]

theorem operations_keep_reduced_sample :
    (∃ S, repertoire.foldlM Operation.run empty = .ok S ∧
      S.clauses.map (·.literals) = [[⟨4, 4, true⟩], [⟨1, 1, false⟩, ⟨2, 2, false⟩], [⟨3, 3, false⟩]] ∧
      S.Distinct ∧ ∀ c, S.Absorbs c) ∧
    ∃ S, reducing.foldlM Operation.run empty = .ok S ∧
      S.clauses.map (·.literals) = [[⟨0, 0, false⟩, ⟨2, 2, false⟩], [⟨3, 3, true⟩]] ∧
      S.Irredundant := by
  have hrepertoire : ∀ op ∈ repertoire, ∀ c ∈ op.brought, c.Proper id := by decide +kernel
  have hreducing : ∀ op ∈ reducing, ∀ c ∈ op.brought, c.Proper id := by decide +kernel
  obtain ⟨hkept, -, -⟩ := operations_keep_reduced hrepertoire
  obtain ⟨-, -, hirredundant⟩ := operations_keep_reduced hreducing
  constructor
  · have hleft : (repertoire.foldlM Operation.run empty).toOption.map (·.clauses.map (·.literals)) =
        some [[⟨4, 4, true⟩], [⟨1, 1, false⟩, ⟨2, 2, false⟩], [⟨3, 3, false⟩]] := by decide +kernel
    cases hS : repertoire.foldlM Operation.run empty with
    | error f =>
      rw [hS] at hleft
      cases hleft
    | ok S =>
      obtain ⟨hdistinct, -, habsorbs⟩ := hkept S hS
      rw [hS] at hleft
      exact ⟨S, rfl, Option.some.inj hleft, hdistinct, habsorbs⟩
  · have hleft : (reducing.foldlM Operation.run empty).toOption.map (·.clauses.map (·.literals)) =
        some [[⟨0, 0, false⟩, ⟨2, 2, false⟩], [⟨3, 3, true⟩]] := by decide +kernel
    obtain ⟨S, hS, hS'⟩ := hirredundant (by decide +kernel)
    rw [hS] at hleft
    exact ⟨S, hS, Option.some.inj hleft, hS'⟩

end

end ClauseStore

end Acquisition
