import Acquisition.Proofs.Implications
import Acquisition.Proofs.Lasting
import Acquisition.Proofs.WorkbenchContracts

/-!
# Running again

A run that converged leaves nothing to do. What was set to be learnt first is used up. If
queries were generated, then because nothing is undecided any more or each undecided
constraint stands, so that none is left to be probed. And the solver of this library answers
as it did before whatever else it was asked, so that the same network is read off.
-/
namespace Acquisition

open Checked IndexSet ClauseStore

namespace Sat.Dpll

variable {D D' E : Dpll} {F : Formula} {r : Option Model}

/-- An answer only hangs on the formula and on the atoms. Unless its limit has passed, a solver
with the same atoms gives it again. -/
theorem solve_again (h : (solve F).outcome D = (.ok r, D')) (hatoms : E.atoms = D.atoms) :
    (solve F).Leads E (fun r' _ => r' = r)
      fun f E' => f = .error .backendTimeout ∧ E'.timedOut = true := by
  have hD : (solve F).Leads D (fun r' _ => r' = r) fun _ _ => False := by
    rw [Action.Leads, h]
  unfold solve at hD ⊢
  simp only [Action.leads_bind, Action.leads_modify, Action.leads_get, unknown?, hatoms] at hD ⊢
  cases hunknown : (Problem.literals F).find? fun l => D.atoms.size ≤ l.atom with
  | some l =>
    rw [hunknown] at hD
    exact hD.elim
  | none =>
    rw [hunknown] at hD
    dsimp only at hD ⊢
    by_cases hempty : (Problem.ofFormula F).clauses.any (·.isEmpty) = true
    · rw [if_pos hempty] at hD ⊢
      exact hD
    · rw [if_neg hempty] at hD ⊢
      split
      · exact ⟨rfl, rfl⟩
      · split at hD
        · exact hD.elim
        · rw [Action.leads_bind, Action.leads_ofChecked] at hD ⊢
          exact ⟨hD.1, fun e he => (hD.2 e he).elim⟩

end Sat.Dpll
variable {σ : Type}

/-- The propositional backend is the solver of this library, kept in a part of the world that
the constraint backend leaves alone when it is given a limit. -/
structure Backends.UsesDpll (B : Backends σ) (part : σ → Sat.Dpll) : Prop where
  solve : ∀ F s, (B.sat.solve F).Leads s
    (fun r t => (Sat.Dpll.solve F).outcome (part s) = (.ok r, part t))
    (fun f t => (Sat.Dpll.solve F).outcome (part s) = (.error f, part t))
  setLimit : ∀ l s, (B.sat.setLimit l).Leads s (fun _ t => (part t).atoms = (part s).atoms)
    fun _ _ => False
  limited : ∀ l s, (B.cp.setLimit l).Leads s (fun _ t => (part t).atoms = (part s).atoms)
    fun _ _ => False

namespace Learner

open Procedure

variable {issued : Issued σ} {s : σ} {dom : Ranges} {Err : Failure → σ → Prop} {B : Backends σ}
  {part : σ → Sat.Dpll} {oracle : Oracle σ} {L L' : Learner} {p p' : Learner × σ}
  {Q : Outcome → Learner × σ → Prop} {E : Failure → Learner × σ → Prop}

/-! ### What is read off -/

/-- The theory with the negated literals of what is ruled out, as a value. -/
def closed (L : Learner) : Except ErrorKind ClauseStore := do
  let ls ← (L.bias.toList.filter (!L.undecided.contains ·)).mapM L.atoms.literal
  return ls.foldl (fun S l => S.adding (.ofLiteral l.negate)) L.theory

theorem outcome_literal (c : ConstraintId) : Action.outcome (literal c) p =
    Action.outcome (Action.ofForeseen (p.1.atoms.literal c)) p := by
  rw [literal, Action.outcome_bind]
  rfl

theorem outcome_literals (cs : List ConstraintId) : Action.outcome (cs.mapM literal) p =
    Action.outcome (Action.ofForeseen (cs.mapM p.1.atoms.literal)) p := by
  induction cs with
  | nil => rfl
  | cons c cs ih =>
    rw [List.mapM_cons, List.mapM_cons, Action.outcome_bind, outcome_literal]
    cases p.1.atoms.literal c with
    | error e => rfl
    | ok l =>
      change Action.outcome (cs.mapM literal >>= fun ls => pure (l :: ls)) p = _
      rw [Action.outcome_bind, ih]
      cases cs.mapM p.1.atoms.literal with
      | error e => rfl
      | ok ls => rfl

theorem outcome_closedTheory : Action.outcome closedTheory p =
    Action.outcome (Action.ofForeseen p.1.closed) p := by
  rw [closedTheory, Action.outcome_bind]
  change Action.outcome ((p.1.bias.toList.filter (!p.1.undecided.contains ·)).mapM literal >>=
    fun ls => pure (ls.foldl (fun S l => S.adding (.ofLiteral l.negate)) p.1.theory)) p = _
  rw [Action.outcome_bind, outcome_literals, closed]
  generalize List.mapM p.1.atoms.literal _ = r
  cases r with
  | error e => rfl
  | ok ls => rfl

theorem leads_closedTheory_iff {R : ClauseStore → Learner × σ → Prop} :
    Action.Leads (closedTheory : Procedure Learner σ ClauseStore) p R E ↔
      (∀ S, p.1.closed = .ok S → R S p) ∧ (∀ e, p.1.closed = .error e → E (.error e) p) := by
  rw [← Action.leads_ofForeseen, Action.Leads, outcome_closedTheory, ← Action.Leads]

/-- The learned network is the one that the solver reads off. -/
def ReadsOff (D : Sat.Dpll) (L : Learner) : Prop :=
  ∃ S model N D' D'', L.closed = .ok S ∧ L.learned = some N ∧
    Network.ofList L.arena L.bias.scope model = .ok N ∧
    (Sat.Dpll.solve (.ofStore S)).outcome D' = (.ok (some model), D'') ∧ D'.atoms = D.atoms

theorem leads_extract_readsOff (hpart : B.UsesDpll part) (p : Learner × σ) :
    Action.Leads (extract B.sat) p
      (fun o p' => o = .converged → p'.1.ReadsOff (part p'.2) ∧
        ∃ k N, p'.1 = { p.1 with counters := k, learned := N })
      fun _ _ => True := by
  rw [extract, Action.leads_bind, leads_closedTheory_iff]
  refine ⟨fun S hS => ?_, fun _ _ => trivial⟩
  rw [Action.leads_bind, leads_count, Action.leads_bind, leads_call, SatBackend.solveStore]
  apply (hpart.solve _ _).mono _ fun _ _ _ => trivial
  intro r t hsolve
  cases r with
  | none =>
    rw [Action.leads_bind, leads_check]
    refine ⟨fun q _ e => ?_, fun _ _ => trivial⟩
    cases e
  | some model =>
    rw [Action.leads_bind, leads_check]
    refine ⟨fun N hN _ => ⟨⟨S, model, N, _, _, hS, rfl, hN, hsolve, ?_⟩, _, _, rfl⟩,
      fun _ _ => trivial⟩
    have hatoms := (Sat.Dpll.solve_spec (part p.2) (.ofStore S)).of_ok hsolve
    exact hatoms.2.symm

/-- The same network is read off again. -/
theorem leads_extract_again (hpart : B.UsesDpll part) (h : p.1.ReadsOff (part p.2)) :
    Action.Leads (extract B.sat) p
      (fun o p' => o = .converged ∧ ∃ k, p'.1 = { p.1 with counters := { p.1.counters with
        satCalls := k } })
      fun f p' => f = .error .backendTimeout ∧ (part p'.2).timedOut = true ∧
        ∃ k, p'.1 = { p.1 with counters := { p.1.counters with satCalls := k } } := by
  obtain ⟨S, model, N, D', D'', hS, hlearned, hN, hsolve, hatoms⟩ := h
  have hagain := Sat.Dpll.solve_again hsolve hatoms.symm
  rw [extract, Action.leads_bind, leads_closedTheory_iff, hS]
  refine ⟨fun S' e => ?_, by simp⟩
  cases e
  rw [Action.leads_bind, leads_count, Action.leads_bind, leads_call, SatBackend.solveStore]
  apply (hpart.solve _ _).mono
  · intro r t hr
    obtain rfl : r = some model := hagain.of_ok hr
    rw [Action.leads_bind, leads_check_of hN]
    exact ⟨rfl, _, by rw [← hlearned]⟩
  · intro f t hf
    obtain ⟨rfl, htimeout⟩ := hagain.of_error hf
    exact ⟨rfl, htimeout, _, rfl⟩

/-! ### Nothing left to do -/

/-- Every clause of the theory is a single literal, and each undecided constraint stands, so
that there is nothing to probe. -/
structure Exhausts (L : Learner) : Prop where
  monomial : L.theory.isMonomial = .ok true
  stands : ∀ c ∈ L.undecided.constraints, L.Stands c

theorem Alike.exhausts (h : L.Alike L') (hL : L.Exhausts) : L'.Exhausts where
  monomial := by rw [h.theory, hL.monomial]
  stands := by
    simp only [Stands, Asserts, h.undecided, h.known, h.theory]
    exact hL.stands

/-- Nothing is set to be learnt first, and no query is to be generated. -/
structure Idle (L : Learner) : Prop where
  replay : L.replay = []
  strategies : L.strategies = []
  budget : L.settings.samplingBudget.value = .zero
  ready : L.passive = true ∨ L.undecided.isEmpty = true ∨ L.Exhausts

theorem Exhausts.leads_generate (h : L.Exhausts) (hL : L.Wf issued s)
    (hbudget : L.settings.samplingBudget.value = .zero) (fuel : Nat)
    {R : Option Query → Learner × σ → Prop} {E : Failure → Learner × σ → Prop}
    (hnone : R none (L, s)) : Action.Leads (generate B (fuel + 1)) (L, s) R E := by
  rw [generate, Action.leads_bind, leads_check_of h.monomial, if_pos rfl]
  apply leads_probeQuery_of hL h.monomial hbudget
  intro N cs _ _ _ hcs
  have hempty : cs = [] := List.eq_nil_iff_forall_not_mem.2 fun c hc => by
    obtain ⟨hundecided, hno⟩ := (hcs c).1 hc
    exact hno (h.stands c hundecided)
  rw [hempty]
  exact hnone

/-- An idle learner goes on to read off a network at once, unless its limit has passed. -/
theorem Idle.leads_run (h : L.Idle) (hL : L.Wf issued s) (fuel : Nat)
    (hextract : Action.Leads (extract B.sat) (L, s) Q E)
    (hpassed : L.deadline = .passed → E (.error .timeout) (L, s)) :
    Action.Leads (run B oracle (fuel + 2)) (L, s) Q E := by
  rw [run, Action.leads_bind]
  apply leads_preprocess_idle h.replay h.strategies
  rw [if_neg (by simp), Action.leads_bind, leads_own]
  split
  · exact hextract
  · next hactive =>
    rw [acquire, Action.leads_bind, leads_poll]
    refine ⟨fun _ => ?_, hpassed⟩
    rw [Action.leads_bind, leads_own]
    split
    · exact hextract
    · next hopen =>
      have hexhausts := (h.ready.resolve_left hactive).resolve_left hopen
      rw [Action.leads_bind]
      exact hexhausts.leads_generate hL h.budget fuel hextract

/-! ### A run that converged -/

/-- What was set to be learnt first is used up if it does not lead to a collapse. -/
theorem leads_preprocess_orders (cp : CpBackend σ) :
    Action.Leads (preprocess cp oracle) p
      (fun r p' => r = .consistent → p'.1.orders = ⟨p.1.settings, [], []⟩)
      fun _ _ => True := by
  obtain ⟨L, s⟩ := p
  rw [preprocess, Action.leads_bind, leads_own, Action.leads_bind, leads_update,
    Action.leads_bind]
  have hreplayed := rests_learnReplayed oracle aloof_orders L.replay
    ({ L with replay := [] }, s) rfl
  apply hreplayed.mono _ fun _ _ _ => trivial
  rintro r ⟨L', t⟩ hL'
  cases r with
  | collapse =>
    intro e
    cases e
  | consistent =>
    rw [if_neg (by simp), Action.leads_bind, leads_own, Action.leads_bind, leads_update]
    have hlearnt := rests_learnStrategies oracle aloof_orders cp L'.strategies
      ({ L' with strategies := [] }, t) rfl
    apply hlearnt.mono _ fun _ _ _ => trivial
    intro r p' hp' _
    obtain ⟨hsettings, hreplay, -⟩ := Orders.mk.inj hL'
    rw [hp', orders, hsettings, hreplay]

theorem leads_run_orders (fuel : Nat) :
    Action.Leads (run B oracle fuel) p
      (fun o p' => o = .converged → p'.1.orders = ⟨p.1.settings, [], []⟩)
      fun _ _ => True := by
  have hends : ∀ (L : Learner) (N : Option Network) (q : Option Query),
      L.orders = ⟨p.1.settings, [], []⟩ →
        { L with learned := N, collapsing := q }.orders = ⟨p.1.settings, [], []⟩ :=
    fun _ _ _ h => h
  rw [run, Action.leads_bind]
  apply (leads_preprocess_orders B.cp).mono _ fun _ _ _ => trivial
  intro r p₁ hp₁
  cases r with
  | collapse =>
    intro e
    cases e
  | consistent =>
    rw [if_neg (by simp), Action.leads_bind, leads_own]
    split
    · apply (rests_extract aloof_orders.apart hends B.sat p₁ (hp₁ rfl)).mono
      · exact fun _ _ h _ => h
      · exact fun _ _ _ => trivial
    · apply (rests_acquire oracle aloof_orders aside_orders hends B fuel p₁ (hp₁ rfl)).mono
      · exact fun _ _ h _ => h
      · exact fun _ _ _ => trivial

/-- Generation that ends without a query has left nothing to probe. -/
theorem leads_generate_exhausts (hB : B.Lawful issued dom Err) (fuel : Nat) (hL : L.Wf issued s)
    (hbudget : L.settings.samplingBudget.value = .zero) :
    Action.Leads (generate B fuel) (L, s) (fun r p => r = none → p.1.Exhausts)
      fun _ _ => True := by
  induction fuel generalizing L s with
  | zero => trivial
  | succ fuel ih =>
    obtain ⟨b, hb⟩ := exists_isMonomial hL.theory.nonEmpty
    rw [generate, Action.leads_bind, leads_check_of hb]
    cases b with
    | true =>
      rw [if_pos rfl]
      apply (leads_probeQuery_exactly hB hL hb hbudget).mono _ fun _ _ _ => trivial
      intro r p hp hr
      constructor
      case monomial =>
        rw [isMonomial_eq_ok_true]
        intro d hd
        rcases hp.supplied.added d hd with hd | ⟨l, rfl, -, -⟩
        · exact isMonomial_eq_ok_true.1 hb d hd
        · exact ⟨l, rfl⟩
      case stands =>
        have hknown : p.1.known = L.known := by rw [hp.supplied.same]
        rw [hp.undecided]
        intro c hc
        by_cases hc' : c ∈ L.known.constraints
        · exact .inl (hknown ▸ hc')
        · exact .inr (hp.asserts hr c hc hc')
    | false =>
      have hattempt := leads_attemptSplit hB hL ((isMonomial_eq_ok hb).2 rfl)
      have hrests := rests_attemptSplit aside_orders B (L, s) rfl
      rw [if_neg Bool.false_ne_true, Action.leads_bind]
      apply (hattempt.and hrests).mono _ fun _ _ _ => trivial
      rintro r ⟨L', t⟩ ⟨⟨hc, -⟩, horders⟩
      cases r with
      | some q =>
        intro e
        cases e
      | none =>
        apply ih hc.wf
        rw [(Orders.mk.inj horders).1, hbudget]

/-- A learner that stays well formed. -/
theorem lasts_wf (issued : Issued σ) :
    Lasts issued (fun p => p.1.Wf issued p.2) fun _ => True where
  wf := fun _ h => h
  remains := fun _ _ _ _ _ h _ _ => h
  digests := by
    intro L s q r p _ _ h
    cases r with
    | consistent => exact h.wf
    | collapse => trivial

/-- What a converged run leaves: a network that was read off, and nothing to do. -/
def Rested (part : σ → Sat.Dpll) (p : Learner × σ) : Prop :=
  p.1.ReadsOff (part p.2) ∧
    (p.1.passive = true ∨ p.1.undecided.isEmpty = true ∨
      (p.1.settings.samplingBudget.value = .zero → p.1.Exhausts))

theorem conducts_rested (hB : B.Lawful issued dom Err) (hpart : B.UsesDpll part)
    (horacle : oracle.Keeps issued) :
    Conducts B oracle issued (fun p => p.1.Wf issued p.2) (fun _ => True) (fun _ _ => True)
      (fun p => p.1.undecided.isEmpty = true ∨
        (p.1.settings.samplingBudget.value = .zero → p.1.Exhausts))
      (fun o p => o = .converged → Rested part p) fun _ => True where
  steady := (lasts_wf issued).steady
  excuses := excuses_all oracle
  generate := by
    rintro fuel ⟨L, s⟩ hL
    rw [leads_bears_all]
    have hwf := (lasts_wf issued).generate hB fuel hL
    have hrests := rests_generate aside_orders B fuel (L, s) rfl
    by_cases hbudget : L.settings.samplingBudget.value = .zero
    · apply ((hwf.and hrests).and (leads_generate_exhausts hB fuel hL hbudget)).mono
      · exact fun r p h => ⟨h.1.1, fun hr => .inr fun _ => h.2 hr, fun _ _ => trivial⟩
      · exact fun _ _ h => h.1.1
    · apply (hwf.and hrests).mono
      · intro r p h
        refine ⟨h.1, fun _ => .inr fun hzero => absurd ?_ hbudget, fun _ _ => trivial⟩
        rw [← (Orders.mk.inj h.2).1, hzero]
      · exact fun _ _ h => h.1
  ask := fun q p hp _ => leads_bears_all.2 ((lasts_wf issued).ask horacle q hp)
  settled := fun _ _ h => .inl h
  extract := by
    rintro ⟨L, s⟩ hL hready
    rw [leads_bears_all]
    apply ((leads_extract_readsOff hpart (L, s)).and (leads_extract_reads hB.sat.solves hL)).mono
    · rintro o p ⟨hreads, -⟩ ho
      obtain ⟨hreads, k, N, hsame⟩ := hreads ho
      have halike : L.Alike p.1 := by
        rw [hsame]
        exact ⟨rfl, rfl, rfl, rfl, rfl, fun _ => id, rfl, rfl, rfl⟩
      have hsettings : p.1.settings = L.settings := by rw [hsame]
      rw [Rested, halike.passive, halike.undecided, hsettings]
      exact ⟨hreads, hready.imp_right (Or.imp_right fun h hzero => halike.exhausts (h hzero))⟩
    · rintro f ⟨L', t⟩ ⟨-, ht, ⟨k, rfl⟩, -⟩
      exact (L.alike_counters k).wf (hL.grows ht)
  collapsed := fun _ _ => nofun

theorem leads_process_orders (fuel : Nat) :
    Action.Leads (process B oracle fuel) p
      (fun o p' => o = .converged → p'.1.orders = ⟨p.1.settings, [], []⟩)
      fun _ _ => True := by
  rw [process_eq, Action.leads_bind]
  apply (rests_setLimits (P := (·.orders = p.1.orders)) (fun _ _ h => h) B p rfl).mono _
    fun _ _ _ => trivial
  intro _ p₁ hp₁
  have hsettings : p₁.1.settings = p.1.settings := (Orders.mk.inj hp₁).1
  have hrun : Action.Leads (run B oracle fuel) p₁
      (fun o p' => o = .converged → p'.1.orders = ⟨p₁.1.settings, [], []⟩) fun _ _ => True :=
    leads_run_orders fuel
  rw [hsettings] at hrun
  rw [Action.leads_bind, Action.leads_attempt]
  apply hrun.mono
  · exact fun _ _ h => h
  · intro f p' _
    split
    · next e => cases e
    · exact nofun
    · exact nofun
    · trivial

/-- A run that converged leaves nothing to do, and the network that it read off. -/
theorem idle_of_converged (hB : B.Lawful issued dom Err) (hpart : B.UsesDpll part)
    (horacle : oracle.Keeps issued) (hp : p.1.Wf issued p.2)
    (hbudget : p.1.settings.samplingBudget.value = .zero) {fuel : Nat}
    (hrun : Action.outcome (process B oracle fuel) p = (.ok .converged, p')) :
    p'.1.Idle ∧ p'.1.ReadsOff (part p'.2) := by
  obtain ⟨hsettings, hreplay, hstrategies⟩ :=
    Orders.mk.inj ((leads_process_orders fuel).of_ok hrun rfl)
  have hprocess := (conducts_rested hB hpart horacle).process (limits_all hB.sat.solves hB.keeps)
    fuel (L := p.1) (s := p.2) hp (fun L' t _ _ _ hL' => leads_bears_all.2
      ((lasts_wf issued).preprocess hB.keeps horacle hL')) fun _ _ => nofun
  rcases hprocess.of_ok hrun with hrested | ⟨hcollapsed, -⟩
  · obtain ⟨hreads, hready⟩ := hrested rfl
    have hzero : p'.1.settings.samplingBudget.value = .zero := by rw [hsettings, hbudget]
    have hready' := hready.imp_right (Or.imp_right fun h => h hzero)
    exact ⟨⟨hreplay, hstrategies, hzero, hready'⟩, hreads⟩
  · cases hcollapsed

/-! ### The run after it -/

/-- What a learner has found out and what it has asked is the same. -/
structure Unmoved (L L' : Learner) : Prop where
  theory : L'.theory = L.theory
  undecided : L'.undecided = L.undecided
  asked : L'.asked = L.asked
  queries : L'.counters.queries = L.counters.queries
  learned : L'.learned = L.learned

/-- A run changes nothing, and converges unless it is stopped by its own limit or by that of
the solver. -/
structure StandsStill (part : σ → Sat.Dpll) (L : Learner) (o : Outcome) (p : Learner × σ) :
    Prop where
  unmoved : L.Unmoved p.1
  converged : o = .converged ∨ o = .timeout ∧ p.1.deadline = .passed ∨
    o = .collapsed ∧ (part p.2).timedOut = true

/-- What is set before a run leaves the solver with its atoms. -/
theorem leads_setLimits_again (hpart : B.UsesDpll part) (L : Learner) (s : σ) :
    Action.Leads (setLimits B) (L, s)
      (fun _ p => p.1 = { L with
          deadline := .after L.settings.timeLimit.value, timedOut := false } ∧
        (part p.2).atoms = (part s).atoms)
      fun _ _ => False := by
  rw [setLimits, Action.leads_bind, leads_update, Action.leads_bind, leads_own,
    Action.leads_bind, leads_call]
  apply (hpart.setLimit _ s).mono _ fun _ _ h => h
  intro _ t ht
  rw [leads_call]
  apply (hpart.limited _ t).mono _ fun _ _ h => h
  exact fun _ u hu => ⟨rfl, hu.trans ht⟩

theorem ReadsOff.noted {D D' : Sat.Dpll} (h : L.ReadsOff D) (hatoms : D'.atoms = D.atoms)
    (deadline : Limit) (timedOut : Bool) :
    ReadsOff D' { L with deadline := deadline, timedOut := timedOut } := by
  obtain ⟨S, model, N, D₁, D₂, hS, hlearned, hN, hsolve, hD⟩ := h
  exact ⟨S, model, N, D₁, D₂, hS, hlearned, hN, hsolve, hD.trans hatoms.symm⟩

/-- Run again, an idle learner stands still. -/
theorem Idle.leads_process (h : p.1.Idle) (hB : B.Lawful issued dom Err)
    (hpart : B.UsesDpll part) (hp : p.1.Wf issued p.2) (hreads : p.1.ReadsOff (part p.2))
    (fuel : Nat) :
    Action.Leads (process B oracle (fuel + 2)) p (p.1.StandsStill part) fun _ _ => False := by
  obtain ⟨L, s⟩ := p
  have hset := leads_setLimits (limits_all hB.sat.solves hB.keeps) (lasts_wf issued).steady hp
  rw [process_eq, Action.leads_bind]
  apply ((leads_setLimits_again hpart L s).and hset).mono _ fun _ _ h => h.1
  rintro _ ⟨L', t⟩ ⟨⟨rfl, hatoms⟩, hwf, halike, -⟩
  rw [Action.leads_bind, Action.leads_attempt]
  have hidle : Idle { L with deadline := .after L.settings.timeLimit.value, timedOut := false } :=
    ⟨h.replay, h.strategies, h.budget, h.ready.imp_right (Or.imp_right halike.exhausts)⟩
  apply hidle.leads_run hwf fuel
  · apply (leads_extract_again hpart (hreads.noted hatoms _ _)).mono
    · rintro o p ⟨rfl, k, hp⟩
      exact ⟨hp ▸ ⟨rfl, rfl, rfl, rfl, rfl⟩, .inl rfl⟩
    · rintro f p ⟨rfl, htimeout, k, hp⟩
      exact ⟨hp ▸ ⟨rfl, rfl, rfl, rfl, rfl⟩, .inr (.inr ⟨rfl, htimeout⟩)⟩
  · intro hpassed
    exact ⟨⟨rfl, rfl, rfl, rfl, rfl⟩, .inr (.inl ⟨rfl, hpassed⟩)⟩

/-- A run that converged is a fixpoint. Run again at once, whatever the oracle, a learner asks
nothing and changes nothing. It converges on the same network, unless it is stopped at a
limit. -/
theorem converges_again (hB : B.Lawful issued dom Err) (hpart : B.UsesDpll part)
    (hp : Reachable B issued p) (hbudget : p.1.settings.samplingBudget.value = .zero)
    (horacle : oracle.Keeps issued) {fuel : Nat}
    (hrun : Action.outcome (process B oracle fuel) p = (.ok .converged, p'))
    (oracle' : Oracle σ) (fuel' : Nat) :
    Action.Leads (process B oracle' (fuel' + 2)) p' (p'.1.StandsStill part)
      fun _ _ => False := by
  obtain ⟨hidle, hreads⟩ := idle_of_converged hB hpart horacle (hp.sane hB).wf hbudget hrun
  have hsane := (Reachable.step hp (.process fuel horacle)).sane hB
  rw [hrun] at hsane
  exact hidle.leads_process hB hpart hsane.wf hreads fuel'

end Learner

namespace Exhaustive

open Learner

/-- The solver of this library beside the search that tries all values. -/
def solving : Backends Workbench where
  sat := Workbench.satBackend
  cp :=
    { witness := fun A N => pure (witness bits A N)
      setLimit := fun _ => pure ()
      timedOut := fun _ => false }
  draws := fun _ => 0

theorem solving_lawful :
    solving.Lawful Workbench.allocated bits.Allows Workbench.Err where
  sat := Workbench.sat_lawful
  cp := ⟨fun _ _ _ _ hN => answered_witness bits hN⟩
  keeps := ⟨fun _ _ s => .refl _ s, fun _ s => .refl _ s⟩
  setLimit := fun _ _ => trivial

theorem solving_usesDpll : solving.UsesDpll (·.sat) where
  solve := by
    intro F W
    apply Workbench.leads_solve
    apply (Action.leads_outcome _ _).mono
    · exact fun _ _ h _ => h
    · exact fun _ _ h _ => h
  setLimit := fun _ _ => rfl
  limited := fun _ _ => rfl

/-- An oracle that goes by a network, and one that never knows. -/
def saying (T : Network) : Oracle Workbench := fun q =>
  pure (.ofBool (decide (T.Holds sample q.valuation)))

def silent : Oracle Workbench := fun _ => pure .unknown

/-- Three queries are asked in the first run, and none in the second. -/
theorem converges_again_sample : ∃ p p' p'',
    Action.outcome (process solving (saying wanted) 20) p = (.ok .converged, p') ∧
    Action.outcome (process solving silent 2) p' = (.ok .converged, p'') ∧
    p'.1.asked.length = 3 ∧ p'.1.StandsStill (·.sat) .converged p'' := by
  have hruns : (start solving.sat unhurried sample plain {}).Leads
      { cp := { domain := bits, stream := .ofSeed 1 } }
      (fun L t => L.settings.samplingBudget.value = .zero ∧
        Action.Leads (process solving (saying wanted) 20) (L, t)
          (fun o p' => o = .converged ∧ p'.1.asked.length = 3 ∧
            Action.Leads (process solving silent 2) p' (fun o _ => o = .converged)
              fun _ _ => False)
          fun _ _ => False)
      (fun _ _ => False) := by
    decide +kernel
  obtain ⟨L, t, hL, hbudget, hfirst⟩ := hruns.exists_outcome
  obtain ⟨_, p', hrun, rfl, hasked, hsecond⟩ := hfirst.exists_outcome
  obtain ⟨_, p'', hagain, rfl⟩ := hsecond.exists_outcome
  have hreach : Reachable solving Workbench.allocated (L, t) :=
    .start built_sample closed_plain (closed_nothing sample) hL
  have horacle : (saying wanted).Keeps Workbench.allocated := fun _ W => .refl _ W
  have hstill := converges_again solving_lawful solving_usesDpll hreach hbudget horacle hrun
    silent 0
  exact ⟨(L, t), p', p'', hrun, hagain, hasked, hstill.of_ok hagain⟩

end Exhaustive

end Acquisition
