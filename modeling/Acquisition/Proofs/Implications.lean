import Acquisition.Proofs.Equivalence
import Acquisition.Proofs.Informing

/-!
# What probing finds out

Over a theory of single literals there is a query to ask just where some undecided constraint
neither stands nor follows from what stands. To find this out each undecided constraint is
probed in turn, and one that follows is learnt before the next is probed. It may be learnt at
once since it says nothing new: whatever follows from it follows from what stood at first. So
neither the order of the probes nor what they add has any bearing on the outcome.

Nothing is drawn by chance here.
-/
namespace Acquisition

open Checked IndexSet ClauseStore

namespace Learner

variable {σ : Type} {issued : Issued σ} {s t : σ} {dom : Ranges} {Err : Failure → σ → Prop}
  {L L' L'' : Learner} {N : Network} {c : ConstraintId} {P : ConstraintId → Prop}

/-- The positive literal of the constraint is a clause of the theory. -/
def Asserts (L : Learner) (c : ConstraintId) : Prop :=
  ∃ d ∈ L.theory.clauses, ∃ l, d.literals = [l] ∧ l.negated = false ∧ l.constraint = c

/-- The constraint is known from the start, or it is asserted. -/
def Stands (L : Learner) (c : ConstraintId) : Prop := c ∈ L.known.constraints ∨ L.Asserts c

/-- The constraint holds wherever all does that stands. -/
def Follows (dom : Ranges) (L : Learner) (c : ConstraintId) : Prop :=
  ∀ f : Valuation, f.Within dom L.span → (∀ d, L.Stands d → L.arena.Holds f d) → L.arena.Holds f c

/-- Nothing has changed but counts, and literals of some constraints that have come to the
theory as clauses. -/
structure Supplied (P : ConstraintId → Prop) (L L' : Learner) : Prop where
  same : L' = { L with theory := L'.theory, counters := L'.counters }
  kept : ∀ k d, L.theory.get? k = some d → L'.theory.get? k = some d
  added : ∀ d ∈ L'.theory.clauses, d ∈ L.theory.clauses ∨
    ∃ l, d = .ofLiteral l ∧ l.negated = false ∧ P l.constraint

/-- What a query tests: it satisfies all that stands, and violates an undecided constraint. -/
structure Tests (dom : Ranges) (L : Learner) (q : Query) : Prop where
  covers : L.span ⊆ q.scope
  within : q.valuation.Within dom L.span
  holds : ∀ c, L.Stands c → L.arena.Holds q.valuation c
  violates : ∃ c ∈ L.undecided.constraints, q.Violates L.arena c

/-- What probing comes to: a query or none, and the learner afterwards. -/
structure FindsOut (dom : Ranges) (L : Learner) (r : Option Query) (L' : Learner) : Prop where
  undecided : L'.undecided = L.undecided
  supplied : L.Supplied (fun c => c ∈ L.undecided.constraints ∧ L.Follows dom c) L'
  none_iff : r = none ↔ ∀ c ∈ L.undecided.constraints, ¬ L.Stands c → L.Follows dom c
  asserts : r = none → ∀ c ∈ L.undecided.constraints, c ∉ L.known.constraints → L'.Asserts c
  tests : ∀ q, r = some q → L.Tests dom q

/-! ### What is noted -/

theorem supplied_counters (P : ConstraintId → Prop) (L : Learner) (k : Counters) :
    L.Supplied P { L with counters := k } := ⟨rfl, fun _ _ => id, fun _ => .inl⟩

theorem Supplied.undecided (h : L.Supplied P L') : L'.undecided = L.undecided := by
  rw [h.same]

theorem Supplied.trans (h : L.Supplied P L') (h' : L'.Supplied P L'') : L.Supplied P L'' where
  same := by
    rw [h'.same, h.same]
  kept k d hd := h'.kept k d (h.kept k d hd)
  added d hd := (h'.added d hd).elim (h.added d) .inr

theorem supplied_adding (hL : L.Wf issued s) (k : Counters) {l : Literal}
    (hl : L.atoms.literal c = .ok l) (hc : P c) :
    L.Supplied P { L with counters := k, theory := L.theory.adding (.ofLiteral l) } where
  same := rfl
  kept k d hd := get?_adding hL.theory.valid _ hd
  added d hd := by
    obtain ⟨hsign, hlc, -⟩ := hL.names.entry c l hl
    refine (mem_of_mem_adding hL.theory.valid hd).symm.imp_right fun hd => ?_
    exact ⟨l, hd, hsign, hlc ▸ hc⟩

theorem Supplied.asserts (h : L.Supplied P L') (hc : L.Asserts c) : L'.Asserts c := by
  obtain ⟨d, hd, hl⟩ := hc
  obtain ⟨k, hk⟩ := mem_clauses.1 hd
  exact ⟨d, get?_mem (h.kept k d hk), hl⟩

theorem asserts_adding (hL : L.Wf issued s) (k : Counters) {l : Literal}
    (hl : L.atoms.literal c = .ok l) :
    Asserts { L with counters := k, theory := L.theory.adding (.ofLiteral l) } c := by
  obtain ⟨hsign, hlc, -⟩ := hL.names.entry c l hl
  obtain ⟨d, hd, hdl⟩ := exists_adding hL.theory.valid (.ofLiteral l)
  exact ⟨d, hd, l, hdl, hsign, hlc⟩

/-! ### Probing -/

/-- Every probe is made against the same network, whatever was learnt from those before. -/
theorem leads_probe_exactly {cp : CpBackend σ} (hcp : cp.Lawful dom Err) (hk : cp.Keeps issued)
    {cs : List ConstraintId} (hL : L.Wf issued s) (hN : N.Closed L.arena)
    (hscope : L.bias.scope ⊆ N.scope) (hcs : ∀ c ∈ cs, c ∈ L.undecided.constraints) :
    Action.Leads (probe cp N cs) (L, s)
      (fun r p =>
        L.Supplied (fun c => c ∈ L.undecided.constraints ∧ N.Implies L.arena dom N.scope c) p.1 ∧
        (r = none → ∀ c ∈ cs, N.Implies L.arena dom N.scope c ∧ p.1.Asserts c) ∧
        ∀ q, r = some q → q.Solves L.arena dom N ∧ ∃ c ∈ cs, q.Violates L.arena c)
      (fun f p =>
        L.Supplied (fun c => c ∈ L.undecided.constraints ∧ N.Implies L.arena dom N.scope c) p.1 ∧
        ((f = .error .timeout ∧ L.deadline = .passed) ∨ Err f p.2)) := by
  induction cs generalizing L s with
  | nil => exact ⟨supplied_counters _ L L.counters, by simp, by simp⟩
  | cons c cs ih =>
    have hc := hcs c List.mem_cons_self
    apply leads_probe_cons hcp hk hL hN hscope hc
    case hpassed => exact fun hpassed => ⟨supplied_counters _ L L.counters, .inl ⟨rfl, hpassed⟩⟩
    case hfails => exact fun f k t _ hf => ⟨supplied_counters _ L k, .inr hf⟩
    case hfound =>
      intro q k t _ hq hviolates
      refine ⟨supplied_counters _ L k, by simp, fun q' e => ?_⟩
      cases e
      exact ⟨hq, c, List.mem_cons_self, hviolates⟩
    case hlearnt =>
      intro l k t ht hl himplied
      have hsupplied := supplied_adding (P := fun c => c ∈ L.undecided.constraints ∧
        N.Implies L.arena dom N.scope c) hL k hl ⟨hc, himplied⟩
      have hstops := ((L.alike_counters k).wf (hL.grows ht)).stops_learning (hL.undecided c hc) hl
      apply (ih hstops.wf hN hscope fun d hd => hcs d (List.mem_cons_of_mem c hd)).mono
      · rintro r p ⟨hsupplied', hnone, hsome⟩
        refine ⟨hsupplied.trans hsupplied', fun hr => ?_, fun q hq => ?_⟩
        · rw [List.forall_mem_cons]
          exact ⟨⟨himplied, hsupplied'.asserts (asserts_adding hL k hl)⟩, hnone hr⟩
        · obtain ⟨hsolves, d, hd, hviolates⟩ := hsome q hq
          exact ⟨hsolves, d, List.mem_cons_of_mem c hd, hviolates⟩
      · exact fun f p hf => ⟨hsupplied.trans hf.1, hf.2⟩

/-- The network that the probes are made against is made up of what stands. -/
theorem standing_network (hL : L.Wf issued s) {cs : List ConstraintId}
    (hcs : L.theory.positives = .ok cs) {M : Network}
    (hM : Network.ofList L.arena L.bias.scope cs = .ok M) :
    (M.union L.known).scope = L.span ∧
      ∀ c, c ∈ (M.union L.known).constraints ↔ L.Stands c := by
  obtain ⟨-, hmem⟩ := positives_eq_ok hcs
  obtain ⟨-, hcons, hscope⟩ := Network.ofList_eq_ok hM
  have hasserts : ∀ c, c ∈ cs ↔ L.Asserts c := by
    intro c
    rw [hmem]
    constructor
    · rintro ⟨l, hl, hsign, hlc⟩
      obtain ⟨d, hd, hdl⟩ := mem_units.1 hl
      exact ⟨d, hd, l, hdl, hsign, hlc⟩
    · rintro ⟨d, hd, l, hdl, hsign, hlc⟩
      exact ⟨l, mem_units.2 ⟨d, hd, hdl⟩, hsign, hlc⟩
  have hMscope : M.scope = L.bias.scope := ext_mem fun v => by
    rw [hscope]
    refine or_iff_left_of_imp fun h => ?_
    obtain ⟨c, hc, hv⟩ := h
    obtain ⟨d, hd, l, hdl, -, rfl⟩ := (hasserts c).1 hc
    have hbias := (hL.theory.listed d hd l (hdl ▸ List.mem_singleton_self l)).1
    exact (hL.closed _ hbias).2 v hv
  constructor
  · rw [span, ← hMscope]
    rfl
  · intro c
    rw [Network.union, mem_union, hcons, hasserts, Stands, or_comm]

theorem follows_iff_implies (hscope : N.scope = L.span)
    (hN : ∀ c, c ∈ N.constraints ↔ L.Stands c) :
    L.Follows dom c ↔ N.Implies L.arena dom N.scope c := by
  rw [Follows, Network.Implies, hscope]
  simp only [Network.Holds, hN]

/-- Where nothing is drawn by chance, what is probed against what stands is just what is
undecided beyond that. -/
theorem leads_probeQuery_of {B : Backends σ} (hL : L.Wf issued s)
    (hmono : L.theory.isMonomial = .ok true)
    (hbudget : L.settings.samplingBudget.value = .zero)
    {Q : Option Query → Learner × σ → Prop} {E : Failure → Learner × σ → Prop}
    (h : ∀ N cs, N.Closed L.arena → N.scope = L.span →
      (∀ c, c ∈ N.constraints ↔ L.Stands c) →
      (∀ c, c ∈ cs ↔ c ∈ L.undecided.constraints ∧ ¬ L.Stands c) →
      Action.Leads (probe B.cp N cs) (L, s) Q E) :
    Action.Leads (probeQuery B) (L, s) Q E := by
  obtain ⟨cs, hcs⟩ := exists_positives hmono
  obtain ⟨out, hout⟩ := exists_negatives hmono
  obtain ⟨M, hM⟩ := hL.exists_ofPositives hcs
  obtain ⟨hscope, hstands⟩ := standing_network hL hcs hM
  have hlearned : (·.union L.known) <$> Network.ofList L.arena L.bias.scope cs =
      .ok (M.union L.known) := by
    rw [hM]
    rfl
  rw [probeQuery, Action.leads_bind, Procedure.leads_check_of hcs, Action.leads_bind,
    Procedure.leads_check_of hlearned, Action.leads_bind, Procedure.leads_check_of hout,
    Action.leads_bind, Procedure.leads_own]
  dsimp only
  rw [hbudget, if_neg (by simp), Action.leads_bind, Procedure.leads_own]
  apply h _ _ ((Network.closed_ofList hM).union hL.known) hscope hstands
  intro c
  have hcontains : (M.union L.known).contains c = true ↔ L.Stands c := hstands c
  rw [List.mem_filter, Bool.not_eq_true', ← Bool.not_eq_true, hcontains]
  exact and_congr_left' mem_toList'

theorem leads_probeQuery_exactly {B : Backends σ} (hB : B.Lawful issued dom Err)
    (hL : L.Wf issued s) (hmono : L.theory.isMonomial = .ok true)
    (hbudget : L.settings.samplingBudget.value = .zero) :
    Action.Leads (probeQuery B) (L, s) (fun r p => L.FindsOut dom r p.1)
      (fun f p => L.Supplied (fun c => c ∈ L.undecided.constraints ∧ L.Follows dom c) p.1 ∧
        ((f = .error .timeout ∧ L.deadline = .passed) ∨ Err f p.2)) := by
  apply leads_probeQuery_of hL hmono hbudget
  intro N cs hclosed hscope hstands hlist
  have hfollows : ∀ c, L.Follows dom c ↔ N.Implies L.arena dom N.scope c :=
    fun c => follows_iff_implies hscope hstands
  simp only [hfollows]
  apply (leads_probe_exactly hB.cp hB.keeps hL hclosed (hscope ▸ L.bias_subset_span)
    fun c hc => ((hlist c).1 hc).1).mono _ fun _ _ h => h
  rintro r ⟨L', t⟩ ⟨hsupplied, hnone, hsome⟩
  constructor
  case undecided => exact hsupplied.undecided
  case supplied =>
    simp only [hfollows]
    exact hsupplied
  case none_iff =>
    constructor
    · intro hr c hc hno
      exact (hfollows c).2 (hnone hr c ((hlist c).2 ⟨hc, hno⟩)).1
    · intro hall
      cases r with
      | none => rfl
      | some q =>
        -- The query would satisfy what stands and violate what follows from it.
        obtain ⟨hq, c, hc, hviolates⟩ := hsome q rfl
        obtain ⟨hopen, hno⟩ := (hlist c).1 hc
        exact absurd ((hfollows c).1 (hall c hopen hno) _ hq.within hq.holds) hviolates.2
  case asserts =>
    intro hr c hc hknown
    by_cases hstanding : L.Stands c
    · exact hsupplied.asserts (hstanding.resolve_left hknown)
    · exact (hnone hr c ((hlist c).2 ⟨hc, hstanding⟩)).2
  case tests =>
    intro q hq
    obtain ⟨hsolves, c, hc, hviolates⟩ := hsome q hq
    refine ⟨hscope ▸ hsolves.covers, hscope ▸ hsolves.within, fun d hd => ?_, c,
      ((hlist c).1 hc).1, hviolates⟩
    exact hsolves.holds d ((hstands d).2 hd)

/-- Generation over a theory of single literals ends with a query just where some undecided
constraint neither stands nor follows. -/
theorem probing_exact {B : Backends σ} (hB : B.Lawful issued dom Err) {p : Learner × σ}
    (hp : Reachable B issued p) (hmono : p.1.theory.isMonomial = .ok true)
    (hbudget : p.1.settings.samplingBudget.value = .zero) (fuel : Nat) :
    Action.Leads (generate B (fuel + 1)) p (fun r p' => p.1.FindsOut dom r p'.1)
      (fun f p' =>
        p.1.Supplied (fun c => c ∈ p.1.undecided.constraints ∧ p.1.Follows dom c) p'.1 ∧
        ((f = .error .timeout ∧ p.1.deadline = .passed) ∨ Err f p'.2)) := by
  rw [generate, Action.leads_bind, Procedure.leads_check_of hmono, if_pos rfl]
  exact leads_probeQuery_exactly hB (hp.sane hB).wf hmono hbudget

end Learner

namespace Exhaustive

/-- Settings that leave no time for a sample. -/
def unhurried : Settings := { samplingBudget := ⟨"sampling_budget", .zero, .longest, .zero⟩ }

/-- It is known that the first variable is zero. -/
def settled : Network := ⟨.singleton 0, .singleton 0⟩

theorem closed_settled : settled.Closed sample := by
  have h : Network.ofList sample .empty [0] = .ok settled := by decide +kernel
  exact Network.closed_ofList h

/-- The constraints of the small instance that are about the first variable. -/
def narrow : Bias := .ofNetwork ⟨.singleton 0, .ofList [0, 2]⟩

theorem closed_narrow : narrow.network.Closed sample := by
  have h : Network.ofList sample (.singleton 0) [0, 2] = .ok narrow.network := by decide +kernel
  exact Network.closed_ofList h

/-- What is generated first by a learner that has learnt nothing yet passes the check. -/
def probes (bias : Bias) (check : Option Query → Learner → Bool) : Bool :=
  match (Learner.start sat unhurried sample bias settled).outcome [] with
  | (.ok L, t) =>
    decide (L.theory.isMonomial = .ok true ∧ L.settings.samplingBudget.value = .zero) &&
      match Action.outcome (Learner.generate (backends bits) 1) (L, t) with
      | (.ok r, p) => check r p.1
      | (.error _, _) => false
  | (.error _, _) => false

theorem exists_of_probes {bias : Bias} (hbias : bias.network.Closed sample)
    {check : Option Query → Learner → Bool} (h : probes bias check = true) :
    ∃ p r p', Learner.Reachable (backends bits) issued p ∧ p.1.theory.isMonomial = .ok true ∧
      p.1.settings.samplingBudget.value = .zero ∧
      Action.outcome (Learner.generate (backends bits) 1) p = (.ok r, p') ∧
        check r p'.1 = true := by
  rw [probes] at h
  split at h
  · next L t hL =>
    rw [Bool.and_eq_true, decide_eq_true_eq] at h
    obtain ⟨⟨hmono, hbudget⟩, h⟩ := h
    split at h
    · next r p' hr =>
      exact ⟨(L, t), r, p', .start built_sample hbias closed_settled hL, hmono, hbudget, hr, h⟩
    · cases h
  · cases h

/-- The second constraint follows from the first one, which is known, and the third does not. -/
theorem probing_exact_sample :
    (∃ p p', Action.outcome (Learner.generate (backends bits) 1) p = (.ok none, p') ∧
      p.1.FindsOut bits.Allows none p'.1 ∧ p'.1.theory.units.map (·.constraint) = [2]) ∧
    ∃ p q p', Action.outcome (Learner.generate (backends bits) 1) p = (.ok (some q), p') ∧
      p.1.FindsOut bits.Allows (some q) p'.1 ∧ p'.1.theory.units.map (·.constraint) = [2] := by
  have hB := backends_lawful bits fun _ _ => True
  constructor
  · have h : probes narrow
        (fun r L => r.isNone && L.theory.units.map (·.constraint) == [2]) = true := by
      decide +kernel
    obtain ⟨p, r, p', hp, hmono, hbudget, hr, hcheck⟩ := exists_of_probes closed_narrow h
    rw [Bool.and_eq_true, Option.isNone_iff_eq_none, beq_iff_eq] at hcheck
    obtain ⟨rfl, hunits⟩ := hcheck
    have hexact := Learner.probing_exact hB hp hmono hbudget 0
    exact ⟨p, p', hr, hexact.of_ok hr, hunits⟩
  · have h : probes plain
        (fun r L => r.isSome && L.theory.units.map (·.constraint) == [2]) = true := by
      decide +kernel
    obtain ⟨p, r, p', hp, hmono, hbudget, hr, hcheck⟩ := exists_of_probes closed_plain h
    rw [Bool.and_eq_true, Option.isSome_iff_exists, beq_iff_eq] at hcheck
    obtain ⟨⟨q, rfl⟩, hunits⟩ := hcheck
    have hexact := Learner.probing_exact hB hp hmono hbudget 0
    exact ⟨p, q, p', hr, hexact.of_ok hr, hunits⟩

end Exhaustive

end Acquisition
