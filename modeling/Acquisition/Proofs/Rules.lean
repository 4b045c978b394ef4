import Acquisition.Proofs.Frames
import Acquisition.Proofs.Informing

/-!
# Rules for runs

What is to hold throughout a run is shown of each answer that is learnt and of each query
that is generated. The loops carry it along, and so do the steps between, as long as it only
hangs on what is known of the target and on the answers so far. After a collapse something
else may hold.
-/
namespace Acquisition

/-- How many contradictions were found, and whether some constraint was noted as learnt. -/
def Counters.findings (k : Counters) : Nat × Bool := (k.contradictions, k.firstLearned)

namespace Learner

open Procedure

variable {σ : Type} {issued : Issued σ} {I C : Learner × σ → Prop} {F : Failure → Prop}
  {oracle : Oracle σ}

/-- What becomes of a learner that learns from a query, or notes that it repeats another. -/
structure Digests (issued : Issued σ) (dom : Ranges) (L : Learner) (q : Query) (r : Learnt)
    (p : Learner × σ) : Prop extends Continues issued dom L (L.Agrees q) p where
  tells : L.Learns q r p.1 ∨ L.Repeats q ∧ r = .consistent
  asked : p.1.asked = L.asked ++ [q]
  collapsing : p.1.collapsing = if r = .collapse then some q else L.collapsing
  background : p.1.background = L.background

theorem leads_learn_digests (dom : Ranges) {L : Learner} {s : σ} (hL : L.Wf issued s) (q : Query)
    (reduce : Bool) :
    Action.Leads (learn q reduce) (L, s) (fun r p => L.Digests issued dom q r p)
      fun f p => f = .fault .overflow ∧ p = (L, s) :=
  ((leads_learn_or_overflow hL q reduce).and (notes_learn q reduce (L, s))).mono
    (fun _ _ ⟨⟨_, hc, hl⟩, hasked, hcollapsing, hbackground⟩ =>
      ⟨hc, .inl hl, hasked, hcollapsing, hbackground⟩)
    fun _ _ h => h.1

theorem leads_learnEarly_digests (dom : Ranges) {L : Learner} {s : σ} (hL : L.Wf issued s)
    (q : Query) :
    Action.Leads (learnEarly q) (L, s) (fun r p => L.Digests issued dom q r p)
      fun f p => f = .fault .overflow ∧ p = (L, s) := by
  apply ((leads_learnEarly_or_overflow dom hL q).and (notes_learnEarly q (L, s))).mono
  · rintro r ⟨L', t⟩ ⟨⟨hs, h⟩, hasked, hcollapsing, hbackground⟩
    rcases h with ⟨hc, hl⟩ | ⟨hrepeats, hr, hL'⟩
    · exact ⟨hc, .inl hl, hasked, hcollapsing, hbackground⟩
    · obtain rfl : t = s := hs
      obtain rfl : L' = _ := hL'
      exact ⟨(alike_asked L _).continues hL, .inr ⟨hrepeats, hr⟩, hasked, hcollapsing,
        hbackground⟩
  · exact fun _ _ h => h.1

/-- The property only hangs on what is known of the target, on the answers so far, and on what
was counted as found. -/
def Steady (issued : Issued σ) (I : Learner × σ → Prop) : Prop :=
  ∀ L L' s t, I (L, s) → L.Alike L' → L'.answers = L.answers →
    L'.counters.findings = L.counters.findings → issued.Grows s t → I (L', t)

/-- Among the failures of `F` are those of the oracle and those that have to do with fuel, time
and verdicts. -/
structure Excuses (F : Failure → Prop) (oracle : Oracle σ) : Prop where
  fuel : F .outOfFuel
  timeout : F (.error .timeout)
  unknown : F (.error .oracleUnknown)
  classified : F (.error .alreadyClassified)
  oracle : ∀ q s, (oracle q).Leads s (fun _ _ => True) fun f _ => F f

/-- A witness for a strategy fails only as `F` allows, then and later. -/
def Draws (F : Failure → Prop) (cp : CpBackend σ) (I : Learner × σ → Prop) : Prop :=
  ∀ p, I p → ∀ N ∈ p.1.strategies, ∀ p', I p' →
    (cp.witness p'.1.arena (N.union p'.1.known)).Leads p'.2 (fun _ _ => True) fun f _ => F f

/-- Where every failure is allowed nothing is to be shown. -/
theorem excuses_all (oracle : Oracle σ) : Excuses (fun _ => True) oracle :=
  ⟨trivial, trivial, trivial, trivial, fun _ _ => Action.leads_trivial _ _⟩

theorem draws_all (cp : CpBackend σ) (I : Learner × σ → Prop) : Draws (fun _ => True) cp I :=
  fun _ _ _ _ _ _ => Action.leads_trivial _ _

/-- The failure is one of `F`, and the invariant holds after it. -/
def Bears (I : Learner × σ → Prop) (F : Failure → Prop) (f : Failure) (p : Learner × σ) : Prop :=
  I p ∧ F f

theorem leads_bears_all {α : Type} {x : Procedure Learner σ α} {p : Learner × σ}
    {Q : α → Learner × σ → Prop} :
    Action.Leads x p Q (Bears I fun _ => True) ↔ Action.Leads x p Q fun _ => I := by
  constructor
  · exact fun h => h.mono (fun _ _ h => h) fun _ _ h => h.1
  · exact fun h => h.mono (fun _ _ h => h) fun _ _ h => ⟨h, trivial⟩

/-- What holds after an answer is learnt. -/
def After (I C : Learner × σ → Prop) : Learnt → Learner × σ → Prop
  | .consistent, p => I p
  | .collapse, p => C p

theorem after_self {r : Learnt} {p : Learner × σ} : After I I r p ↔ I p := by
  cases r with
  | consistent => exact Iff.rfl
  | collapse => exact Iff.rfl

theorem Steady.count (hI : Steady issued I) (f : Counters → Counters)
    (hf : ∀ k, (f k).findings = k.findings := by exact fun _ => rfl)
    {E : Failure → Learner × σ → Prop} {p : Learner × σ} (hp : I p) :
    Action.Leads (count f : Procedure Learner σ Unit) p (fun _ => I) E := by
  obtain ⟨L, s⟩ := p
  exact hI L _ s s hp (alike_counters L _) rfl (hf L.counters) (.refl issued s)

theorem leads_poll_bears (hF : F (.error .timeout)) {p : Learner × σ} (hp : I p) :
    Action.Leads (poll : Procedure Learner σ Unit) p (fun _ => I) (Bears I F) := by
  rw [leads_poll]
  exact ⟨fun _ => hp, fun _ => ⟨hp, hF⟩⟩

theorem Steady.call (hI : Steady issued I) {α : Type} {x : Action σ α}
    (hx : ∀ s, x.Leads s (fun _ t => issued.Grows s t) fun _ t => issued.Grows s t)
    {p : Learner × σ} (hF : x.Leads p.2 (fun _ _ => True) fun f _ => F f) (hp : I p) :
    Action.Leads (call x : Procedure Learner σ α) p (fun _ => I) (Bears I F) := by
  obtain ⟨L, s⟩ := p
  have halike := L.alike_counters L.counters
  rw [leads_call]
  apply ((hx s).and hF).mono
  · exact fun _ t h => hI L L s t hp halike rfl rfl h.1
  · exact fun _ t h => ⟨hI L L s t hp halike rfl rfl h.1, h.2⟩

theorem Steady.witness (hI : Steady issued I) {cp : CpBackend σ} (hk : cp.Keeps issued)
    {N : Network} {p : Learner × σ}
    (hF : (cp.witness p.1.arena N).Leads p.2 (fun _ _ => True) fun f _ => F f) (hp : I p) :
    Action.Leads (witness cp N : Procedure Learner σ (Option Query)) p (fun _ => I)
      (Bears I F) := by
  rw [Learner.witness, Action.leads_bind, leads_count]
  have hcounted := hI.count (fun k => { k with cpCalls := k.cpCalls + 1 })
    (by exact fun _ => rfl) (E := Bears I F) hp
  exact hI.call (hk.witness p.1.arena N) hF hcounted

theorem Steady.classify (hI : Steady issued I) (horacle : oracle.Keeps issued)
    (hF : Excuses F oracle) (q : Query) {p : Learner × σ} (hp : I p) :
    Action.Leads (classify oracle q) p (fun q' p' => q'.isClassified = true ∧ I p')
      (Bears I F) := by
  have hverdict : ∀ b p, I p →
      Action.Leads (Action.ofForeseen (q.classify b) : Procedure Learner σ Query) p
        (fun q' p' => q'.isClassified = true ∧ I p') (Bears I F) := by
    intro b p hp
    rw [Action.leads_ofForeseen, Query.classify]
    split
    · constructor
      · intro _ e
        cases e
      · intro _ e
        cases e
        exact ⟨hp, hF.classified⟩
    · constructor
      · intro q' e
        cases e
        exact ⟨rfl, hp⟩
      · intro _ e
        cases e
  rw [Learner.classify, Action.leads_bind]
  apply (hI.count _ (by exact fun _ => rfl) hp).mono _ fun _ _ h => h
  intro _ p hp
  rw [Action.leads_bind]
  apply (hI.call (horacle q) (hF.oracle q p.2) hp).mono _ fun _ _ h => h
  intro a p hp
  cases a with
  | accept => exact hverdict true p hp
  | reject => exact hverdict false p hp
  | unknown => exact ⟨hp, hF.unknown⟩

/-- A query is learnt from, and more is done unless that collapses. -/
theorem leads_learnEarly_then
    (hlearn : ∀ q p, q.isClassified = true → I p →
      Action.Leads (learnEarly q) p (After I C) (Bears I F))
    {q : Query} {p : Learner × σ} (hq : q.isClassified = true) (hp : I p)
    {rest : Procedure Learner σ Learnt}
    (hrest : ∀ p, I p → Action.Leads rest p (After I C) (Bears I F)) :
    Action.Leads (do
        if (← learnEarly q) = .collapse then return .collapse
        rest : Procedure Learner σ Learnt) p (After I C) (Bears I F) := by
  rw [Action.leads_bind]
  apply (hlearn q p hq hp).mono _ fun _ _ h => h
  intro r p' hp'
  cases r with
  | consistent => exact hrest p' hp'
  | collapse => exact hp'

section Replay

variable (hI : Steady issued I) (horacle : oracle.Keeps issued) (hF : Excuses F oracle)
  (hlearn : ∀ q p, q.isClassified = true → I p →
    Action.Leads (learnEarly q) p (After I C) (Bears I F))
include hI horacle hF hlearn

theorem leads_learnReplayed_of (qs : List Query) {p : Learner × σ} (hp : I p) :
    Action.Leads (learnReplayed oracle qs) p (After I C) (Bears I F) := by
  induction qs generalizing p with
  | nil => exact hp
  | cons q qs ih =>
    rw [learnReplayed, Action.leads_bind]
    apply (leads_poll_bears hF.timeout hp).mono _ fun _ _ h => h
    intro _ p hp
    cases hq : q.isClassified with
    | true =>
      dsimp only
      rw [if_pos rfl, Action.leads_bind]
      apply (hI.count _ (by exact fun _ => rfl) hp).mono _ fun _ _ h => h
      intro _ p hp
      exact leads_learnEarly_then hlearn hq hp fun p hp => ih hp
    | false =>
      simp only [Bool.false_eq_true, if_false]
      rw [Action.leads_bind]
      apply (hI.classify horacle hF q hp).mono _ fun _ _ h => h
      rintro q' p ⟨hq', hp⟩
      exact leads_learnEarly_then hlearn hq' hp fun p hp => ih hp

theorem leads_learnStrategies_of {cp : CpBackend σ} (hk : cp.Keeps issued) (Ns : List Network)
    (hNs : ∀ N ∈ Ns, ∀ p, I p →
      (cp.witness p.1.arena (N.union p.1.known)).Leads p.2 (fun _ _ => True) fun f _ => F f)
    {p : Learner × σ} (hp : I p) :
    Action.Leads (learnStrategies cp oracle Ns) p (After I C) (Bears I F) := by
  induction Ns generalizing p with
  | nil => exact hp
  | cons N Ns ih =>
    have hrest : ∀ p, I p →
        Action.Leads (learnStrategies cp oracle Ns) p (After I C) (Bears I F) :=
      fun p hp => ih (fun M hM => hNs M (List.mem_cons_of_mem N hM)) hp
    rw [learnStrategies, Action.leads_bind]
    apply (leads_poll_bears hF.timeout hp).mono _ fun _ _ h => h
    intro _ p hp
    rw [Action.leads_bind, leads_own, Action.leads_bind]
    apply (hI.witness hk (hNs N List.mem_cons_self p hp) hp).mono _ fun _ _ h => h
    intro r p hp
    cases r with
    | none => exact hrest p hp
    | some q =>
      rw [Action.leads_bind]
      apply (hI.classify horacle hF q hp).mono _ fun _ _ h => h
      rintro q' p ⟨hq', hp⟩
      exact leads_learnEarly_then hlearn hq' hp hrest

/-- What each query learnt before generation keeps is kept by all of them. -/
theorem leads_preprocess_of {cp : CpBackend σ} (hk : cp.Keeps issued) (hdraws : Draws F cp I)
    {p : Learner × σ} (hp : I p) :
    Action.Leads (preprocess cp oracle) p (After I C) (Bears I F) := by
  obtain ⟨L, s⟩ := p
  rw [preprocess, Action.leads_bind, leads_own, Action.leads_bind, leads_update,
    Action.leads_bind]
  have hcleared := hI L { L with replay := [] } s s hp
    ⟨rfl, rfl, rfl, rfl, rfl, fun _ => id, rfl, rfl, rfl⟩ rfl rfl (.refl issued s)
  apply (leads_learnReplayed_of hI horacle hF hlearn L.replay hcleared).mono _ fun _ _ h => h
  rintro r ⟨L', t⟩ hp'
  cases r with
  | collapse => exact hp'
  | consistent =>
    rw [if_neg (by simp), Action.leads_bind, leads_own, Action.leads_bind, leads_update]
    have hdropped := hI L' { L' with strategies := [] } t t hp'
      ⟨rfl, rfl, rfl, rfl, rfl, fun _ h => absurd h List.not_mem_nil, rfl, rfl, rfl⟩ rfl
      rfl (.refl issued t)
    exact leads_learnStrategies_of hI horacle hF hlearn hk L'.strategies
      (hdraws (L', t) hp') hdropped

end Replay

/-- Where nothing is set to be learnt first, nothing is. -/
theorem leads_preprocess_idle {cp : CpBackend σ} {L : Learner} {s : σ} (hreplay : L.replay = [])
    (hstrategies : L.strategies = []) {Q : Learnt → Learner × σ → Prop}
    {E : Failure → Learner × σ → Prop} (h : Q .consistent (L, s)) :
    Action.Leads (preprocess cp oracle) (L, s) Q E := by
  have hsame : { L with replay := [], strategies := [] } = L := by
    rw [← hreplay, ← hstrategies]
  rw [preprocess, Action.leads_bind, leads_own, hreplay, Action.leads_bind, leads_update,
    Action.leads_bind, learnReplayed, Action.leads_pure, if_neg (by simp), Action.leads_bind,
    leads_own, hstrategies, Action.leads_bind, leads_update]
  change Q .consistent ({ L with replay := [], strategies := [] }, s)
  rwa [hsame]

theorem leads_ask_of (hI : Steady issued I) (horacle : oracle.Keeps issued)
    (hF : Excuses F oracle)
    (hlearn : ∀ q p, q.isClassified = true → I p →
      Action.Leads (learn q false) p (After I C) (Bears I F))
    (q : Query) {p : Learner × σ} (hp : I p) :
    Action.Leads (ask oracle q) p (After I C) (Bears I F) := by
  rw [ask, Action.leads_bind]
  apply (hI.classify horacle hF q hp).mono _ fun _ _ h => h
  rintro q' p ⟨hq', hp⟩
  exact hlearn q' p hq' hp

/-- To set limits leaves the atoms alone that were handed out, and fails only as `F` allows. -/
structure Limits (B : Backends σ) (issued : Issued σ) (F : Failure → Prop) : Prop where
  sat : ∀ l s, (B.sat.setLimit l).Leads s (fun _ t => issued.Grows s t)
    fun f t => issued.Grows s t ∧ F f
  cp : ∀ l s, (B.cp.setLimit l).Leads s (fun _ t => issued.Grows s t)
    fun f t => issued.Grows s t ∧ F f

theorem Limits.mono {B : Backends σ} {F' : Failure → Prop} (h : Limits B issued F)
    (hF : ∀ f, F f → F' f) : Limits B issued F' where
  sat := fun l s => (h.sat l s).mono (fun _ _ h => h) fun f _ h => ⟨h.1, hF f h.2⟩
  cp := fun l s => (h.cp l s).mono (fun _ _ h => h) fun f _ h => ⟨h.1, hF f h.2⟩

theorem limits_all {B : Backends σ} {Err : Failure → σ → Prop} (hsat : B.sat.Solves issued Err)
    (hk : B.cp.Keeps issued) : Limits B issued fun _ => True where
  sat := fun l s => (hsat.setLimit l s).mono (fun _ _ h => h) fun _ _ h => ⟨h.1, trivial⟩
  cp := fun l s => (hk.setLimit l s).mono (fun _ _ h => h) fun _ _ h => ⟨h, trivial⟩

/-- What is shown of each part of a run for the sake of the whole: `I` holds throughout, `C`
after a collapse, `G` of each query that is generated, `R` where there is nothing left to
ask, and `Q` of the outcome. The failures are those of `F`. -/
structure Conducts (B : Backends σ) (oracle : Oracle σ) (issued : Issued σ)
    (I C : Learner × σ → Prop) (G : Query → Learner × σ → Prop) (R : Learner × σ → Prop)
    (Q : Outcome → Learner × σ → Prop) (F : Failure → Prop) : Prop where
  steady : Steady issued I
  excuses : Excuses F oracle
  generate : ∀ fuel p, I p → Action.Leads (generate B fuel) p
    (fun r p' => I p' ∧ (r = none → R p') ∧ ∀ q, r = some q → G q p') (Bears I F)
  ask : ∀ q p, I p → G q p → Action.Leads (ask oracle q) p (After I C) (Bears I F)
  settled : ∀ p, I p → p.1.undecided.isEmpty = true → R p
  extract : ∀ p, I p → p.1.passive = true ∨ R p → Action.Leads (extract B.sat) p Q (Bears I F)
  collapsed : ∀ p, C p → Q .collapsed p

/-- The same, where a run may also be stopped at any time. -/
structure Carries (B : Backends σ) (oracle : Oracle σ) (issued : Issued σ)
    (I C : Learner × σ → Prop) (G : Query → Learner × σ → Prop) (R : Learner × σ → Prop)
    (Q : Outcome → Learner × σ → Prop) (F : Failure → Prop) : Prop
    extends Conducts B oracle issued I C G R Q F where
  stopped : ∀ p, I p → Q .collapsed p ∧ Q .timeout ({ p.1 with timedOut := true }, p.2)

/-- What a run does before it starts: the limits are set. -/
def setLimits (B : Backends σ) : Procedure Learner σ Unit := do
  update fun L => { L with deadline := .after L.settings.timeLimit.value, timedOut := false }
  let limit := Limit.after (← own).settings.solverLimit.value
  call (B.sat.setLimit limit)
  call (B.cp.setLimit limit)

theorem rests_setLimits {P : Learner → Prop} (h : ∀ (L : Learner) (l : Limit), P L →
    P { L with deadline := l, timedOut := false }) (B : Backends σ) :
    Keeps (Rests P) (setLimits B) := by
  rw [setLimits]
  apply Keeps.bind (rests_update fun L => h L (.after L.settings.timeLimit.value))
  intro _
  exact keeps_own.bind fun _ => (rests_call _).bind fun _ => rests_call _

/-- A call of a backend runs past its limit, and ends the run. -/
def TimesOut (B : Backends σ) (oracle : Oracle σ) (fuel : Nat) (p : Learner × σ) : Prop :=
  ∃ p₁ p₂, Action.outcome (setLimits B) p = (.ok (), p₁) ∧
    Action.outcome (run B oracle fuel) p₁ = (.error (.error .backendTimeout), p₂)

theorem process_eq (B : Backends σ) (oracle : Oracle σ) (fuel : Nat) :
    process B oracle fuel = (do
      setLimits B
      match ← (run B oracle fuel).attempt with
      | .ok outcome => return outcome
      | .error (.error .timeout) => do
        update ({ · with timedOut := true })
        return .timeout
      | .error (.error .backendTimeout) => return .collapsed
      | .error e => throw e) := by
  simp only [setLimits, bind_assoc]
  rfl

/-- To set the limits changes nothing that is known. -/
theorem leads_setLimits {B : Backends σ} (hlimits : Limits B issued F) (hI : Steady issued I)
    {L : Learner} {s : σ} (hp : I (L, s)) :
    Action.Leads (setLimits B) (L, s)
      (fun _ p => I p ∧ L.Alike p.1 ∧ p.1.answers = L.answers ∧ p.1.replay = L.replay)
      (Bears I F) := by
  have halike := L.alike_limits (.after L.settings.timeLimit.value) false
  have hset : ∀ t, issued.Grows s t →
      I ({ L with deadline := .after L.settings.timeLimit.value, timedOut := false }, t) :=
    fun t ht => hI L _ s t hp halike rfl rfl ht
  rw [setLimits, Action.leads_bind, leads_update, Action.leads_bind, leads_own,
    Action.leads_bind, leads_call]
  apply (hlimits.sat _ s).mono _ fun f t h => ⟨hset t h.1, h.2⟩
  intro _ t ht
  rw [leads_call]
  apply (hlimits.cp _ t).mono _ fun f u h => ⟨hset u (ht.trans h.1), h.2⟩
  exact fun _ u hu => ⟨hset u (ht.trans hu), halike, rfl, rfl⟩

namespace Conducts

variable {B : Backends σ} {G : Query → Learner × σ → Prop} {R : Learner × σ → Prop}
  {Q : Outcome → Learner × σ → Prop}

theorem acquire (h : Conducts B oracle issued I C G R Q F) (fuel : Nat) {p : Learner × σ}
    (hp : I p) : Action.Leads (acquire B oracle fuel) p Q (Bears I F) := by
  induction fuel generalizing p with
  | zero => exact ⟨hp, h.excuses.fuel⟩
  | succ fuel ih =>
    rw [Learner.acquire, Action.leads_bind]
    apply (leads_poll_bears h.excuses.timeout hp).mono _ fun _ _ h => h
    intro _ p hp
    rw [Action.leads_bind, leads_own]
    split
    · next hempty => exact h.extract p hp (.inr (h.settled p hp hempty))
    · rw [Action.leads_bind]
      apply (h.generate fuel p hp).mono _ fun _ _ h => h
      rintro r p ⟨hp, hready, hquery⟩
      cases r with
      | none => exact h.extract p hp (.inr (hready rfl))
      | some q =>
        rw [Action.leads_bind]
        apply (h.ask q p hp (hquery q rfl)).mono _ fun _ _ h => h
        intro r p hp
        cases r with
        | consistent => exact ih hp
        | collapse => exact h.collapsed p hp

theorem run (h : Conducts B oracle issued I C G R Q F) (fuel : Nat) {p : Learner × σ}
    (hbefore : Action.Leads (preprocess B.cp oracle) p (After I C) (Bears I F)) :
    Action.Leads (run B oracle fuel) p Q (Bears I F) := by
  rw [Learner.run, Action.leads_bind]
  apply hbefore.mono _ fun _ _ h => h
  intro r p hp
  cases r with
  | collapse => exact h.collapsed p hp
  | consistent =>
    rw [if_neg (by simp), Action.leads_bind, leads_own]
    split
    · next hpassive => exact h.extract p hp (.inl hpassive)
    · exact h.acquire fuel hp

/-- What is shown of the parts of a run holds of the whole, if it holds of what is learnt
before any query is generated, unless a backend runs past its limit. -/
theorem process (h : Conducts B oracle issued I C G R Q F) (hlimits : Limits B issued F)
    (fuel : Nat) {L : Learner} {s : σ} (hp : I (L, s))
    (hbefore : ∀ L' t, L.Alike L' → L'.answers = L.answers → L'.replay = L.replay → I (L', t) →
      Action.Leads (preprocess B.cp oracle) (L', t) (After I C) (Bears I F))
    (htimeout : ∀ p, I p → Q .timeout ({ p.1 with timedOut := true }, p.2)) :
    Action.Leads (process B oracle fuel) (L, s)
      (fun o p => Q o p ∨ o = .collapsed ∧ I p ∧ TimesOut B oracle fuel (L, s))
      (Bears I F) := by
  rw [process_eq, Action.leads_bind]
  apply ((leads_setLimits hlimits h.steady hp).and (Action.leads_outcome _ _)).mono _
    fun _ _ h => h.1
  rintro _ ⟨L', t⟩ ⟨⟨hp', halike, hanswers, hreplay⟩, hset⟩
  rw [Action.leads_bind, Action.leads_attempt]
  apply ((h.run fuel (hbefore L' t halike hanswers hreplay hp')).and
    (Action.leads_outcome _ _)).mono
  · exact fun _ _ hQ => .inl hQ.1
  · rintro f p ⟨⟨hp, hf⟩, hrun⟩
    split
    · next e => cases e
    · exact .inl (htimeout p hp)
    · next e =>
      cases e
      exact .inr ⟨rfl, hp, _, p, hset, hrun⟩
    · next e =>
      cases e
      exact ⟨hp, hf⟩

end Conducts

/-- What may be stopped at any time holds of the whole run. -/
theorem Carries.process {B : Backends σ} {G : Query → Learner × σ → Prop}
    {R : Learner × σ → Prop} {Q : Outcome → Learner × σ → Prop}
    (h : Carries B oracle issued I C G R Q F) (hlimits : Limits B issued F)
    (fuel : Nat) {L : Learner} {s : σ} (hp : I (L, s))
    (hbefore : ∀ L' t, L.Alike L' → L'.answers = L.answers → L'.replay = L.replay → I (L', t) →
      Action.Leads (preprocess B.cp oracle) (L', t) (After I C) (Bears I F)) :
    Action.Leads (process B oracle fuel) (L, s) Q (Bears I F) := by
  have hprocess := h.toConducts.process hlimits fuel hp hbefore fun p hp => (h.stopped p hp).2
  apply hprocess.mono _ fun _ _ h => h
  rintro o p (hQ | ⟨rfl, hp, -⟩)
  · exact hQ
  · exact (h.stopped p hp).1

end Learner

end Acquisition
