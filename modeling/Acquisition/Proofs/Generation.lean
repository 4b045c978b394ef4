import Mathlib.Data.Finset.Powerset
import Mathlib.Data.Prod.Lex
import Acquisition.Proofs.Rules
import Acquisition.Proofs.Trials

/-!
# Generation ends

An attempt that finds no query brings a learner closer to the end in one of three ways. The
literals of a pivot make fewer long clauses. A new contradiction leaves fewer sets of
constraints that contain none. A wider split can become wider less often. What comes first
counts more, since a new pivot may be larger than the last one.
-/
namespace Acquisition

open IndexSet ClauseStore Procedure

section Generation

variable {σ : Type} {issued : Issued σ} {s t : σ} {dom : Ranges} {Err : Failure → σ → Prop}
  {D : ConstraintId → Prop} {R : IndexSet} {B : Backends σ}

namespace Learner

variable {L L' L'' : Learner} {k : ClauseKey} {c : Clause} {Sat : IndexSet → Prop}

/-! ### What is left to do -/

/-- The clause that the pivot stands for, if it is still there. -/
def choice (L : Learner) : Option Clause := L.pivot.bind L.theory.get?

/-- How many long clauses there are to be split, each of them counted twice. A pivot that became
short since it was chosen is counted, too. -/
def burden (L : Learner) : Nat :=
  2 * L.theory.longKeys.card + if L.choice.any (!isLong ·) then 1 else 0

/-- The constraints that have an atom. -/
def tabled (L : Learner) : Finset ConstraintId := (L.atoms.entries.map (·.1)).toFinset

/-- The sets of constraints that contain no contradiction that is known. -/
def openSets (L : Learner) : Finset (Finset ConstraintId) :=
  L.tabled.powerset.filter fun T => ∀ d ∈ L.background.clauses, ∃ l ∈ d.literals, l.constraint ∉ T

/-- How often a split can become wider before it is no longer close. -/
def patience (L : Learner) : Nat :=
  match L.choice with
  | some c => c.size + L.aim - L.slack
  | none => L.theory.width + 1

/-- What is left to do, by weight. -/
def rank (L : Learner) : Nat ×ₗ Nat ×ₗ Nat :=
  toLex (L.burden, toLex (L.openSets.card, L.patience))

theorem mem_tabled {c : ConstraintId} {l : Literal} (h : L.atoms.literal c = .ok l) :
    c ∈ L.tabled := by
  rw [AtomTable.literal] at h
  split at h
  · next l' hl =>
    have hentry : (c, l') ∈ L.atoms.entries := by
      rw [List.lookup_eq_some_iff] at hl
      obtain ⟨before, after, heq, -⟩ := hl
      rw [heq]
      exact List.mem_append_right _ List.mem_cons_self
    exact List.mem_toFinset.2 (List.mem_map_of_mem hentry)
  · cases h

theorem choice_of_get? (hk : L.pivot = some k) (hc : L.theory.get? k = some c) :
    L.choice = some c := by
  rw [choice, hk, Option.bind_some, hc]

/-- A pivot that is chosen anew adds nothing to what is left to do. -/
theorem Chooses.rank_le (h : L.Chooses k c L') : L'.rank ≤ L.rank := by
  cases h with
  | kept _ _ => exact le_refl _
  | @fresh S hnone _ hS hc hlong =>
    have hchoice : { L with theory := S, pivot := some k, aim := 1, slack := 0 }.choice = some c :=
      hc
    have hburden : { L with theory := S, pivot := some k, aim := 1, slack := 0 }.burden =
        L.burden := by
      rw [burden, burden, hchoice, choice, hnone, hS.longKeys_eq, Option.any_some, hlong]
      rfl
    have hsize : c.size ≤ L.theory.width := by
      obtain ⟨d, hd, hsame⟩ := hS.mem (get?_mem hc)
      rw [Clause.size, ← hsame]
      exact size_le_width hd
    rw [rank, rank, Prod.Lex.toLex_le_toLex]
    refine .inr ⟨hburden, ?_⟩
    rw [Prod.Lex.toLex_le_toLex]
    refine .inr ⟨rfl, ?_⟩
    rw [patience, hchoice, patience, choice, hnone]
    dsimp only
    omega

/-- A set of constraints with a new conflict is no longer open. -/
theorem Adds.openSets_lt {d : Clause} {M : IndexSet} (h : L.Adds Sat d M) (hL : L.Wf issued s)
    (k : Counters) :
    { L with background := L.background.adding d, counters := k }.openSets.card <
      L.openSets.card := by
  apply Finset.card_lt_card
  have hsub : { L with background := L.background.adding d, counters := k }.openSets ⊆
      L.openSets := by
    intro T hT
    obtain ⟨hT, hopen⟩ := Finset.mem_filter.1 hT
    exact Finset.mem_filter.2 ⟨hT, fun e he => hopen e (mem_adding_of_mem hL.kept d he)⟩
  refine ⟨hsub, fun hsame => ?_⟩
  -- The conflict itself was open so far.
  have hopen : M.toFinset ∈ L.openSets := by
    rw [openSets, Finset.mem_filter, Finset.mem_powerset]
    constructor
    · intro c hc
      obtain ⟨l, hl, rfl⟩ := (h.members c).1 (mem_toFinset.1 hc)
      exact mem_tabled (h.listed l hl)
    · intro e he
      by_contra hin
      apply h.new (.ofList (e.literals.map (·.constraint)))
      · refine ⟨e, he, fun c => ?_⟩
        rw [mem_ofList, List.mem_map]
      · intro c hc
        obtain ⟨l, hl, rfl⟩ := List.mem_map.1 (mem_ofList.1 hc)
        by_contra hout
        exact hin ⟨l, hl, fun hM => hout (mem_toFinset.1 hM)⟩
  obtain ⟨e, he, hsameLiterals⟩ := exists_adding hL.kept d
  obtain ⟨l, hl, hout⟩ := (Finset.mem_filter.1 (hsame hopen)).2 e he
  apply hout
  rw [mem_toFinset, h.members]
  exact ⟨l, hsameLiterals ▸ hl, rfl⟩

/-- An attempt without a query leaves less to do. -/
theorem Misses.rank_lt (h : L.Misses Sat k c L') (hL : L.Wf issued s) (hk : L.pivot = some k)
    (hc : L.theory.get? k = some c) : L'.rank < L.rank := by
  have hchoice := choice_of_get? hk hc
  rw [rank, rank, Prod.Lex.toLex_lt_toLex]
  cases h with
  | widened hclose hn =>
    refine .inr ⟨rfl, ?_⟩
    rw [Prod.Lex.toLex_lt_toLex]
    refine .inr ⟨rfl, ?_⟩
    rw [isClose, Bool.or_eq_true, decide_eq_true_eq, decide_eq_true_eq] at hclose
    have hthen : ∀ n, { L with slack := L.slack + 1, counters := n }.choice = some c :=
      fun n => hchoice
    rw [patience, patience, hchoice, hthen]
    dsimp only
    omega
  | committed _ _ hnone hshort =>
    apply Or.inl
    have hthen : L'.choice = none := by
      rw [choice, hnone, Option.bind_none]
    have hcard : L'.theory.longKeys.card ≤ (L.theory.longKeys.erase k).card :=
      Finset.card_le_card hshort
    change L'.burden < L.burden
    rw [burden, burden, hthen, hchoice, Option.any_none, Option.any_some]
    cases hlong : isLong c with
    | true =>
      have hmem : k ∈ L.theory.longKeys := mem_longKeys.2 ⟨c, hc, hlong⟩
      have hfewer := Finset.card_erase_lt_of_mem hmem
      simp only [Bool.not_true, Bool.false_eq_true, if_false]
      omega
    | false =>
      have hfewer : (L.theory.longKeys.erase k).card ≤ L.theory.longKeys.card :=
        Finset.card_erase_le
      simp only [Bool.not_false, Bool.false_eq_true, if_false, if_true]
      omega
  | @contradicted d M n hadds hn =>
    refine .inr ⟨rfl, ?_⟩
    rw [Prod.Lex.toLex_lt_toLex]
    exact .inl (hadds.openSets_lt hL n)

theorem Misses.deadline (h : L.Misses Sat k c L') : L'.deadline = L.deadline := by
  cases h with
  | widened _ _ => rfl
  | committed hmargins _ _ _ => exact congrArg (·.2.2) hmargins
  | contradicted _ _ => rfl

/-- At most one conflict is found by an attempt. -/
theorem Misses.found (h : L.Misses Sat k c L') (hL : L.Wf issued s) :
    ∃ Ms, Found Sat L L' Ms := by
  cases h with
  | widened _ hn => exact ⟨[], (Found.refl Sat L).congr rfl hn⟩
  | committed hmargins _ _ _ =>
    exact ⟨[], (Found.refl Sat L).congr (congrArg (·.1) hmargins) (congrArg (·.2.1) hmargins)⟩
  | contradicted hadds hn => exact ⟨_, hadds.found hL hn⟩

/-! ### Fuel -/

theorem outcome_generate (fuel : Nat) (hb : ∃ b, L.theory.isMonomial = .ok b) :
    Action.outcome (generate B (fuel + 1)) (L, s) =
      if L.theory.isMonomial = .ok true then Action.outcome (probeQuery B) (L, s)
      else match Action.outcome (attemptSplit B) (L, s) with
        | (.ok none, p) => Action.outcome (generate B fuel) p
        | r => r := by
  obtain ⟨b, hb⟩ := hb
  rw [generate, Action.outcome_bind]
  have hcheck : Action.outcome (Procedure.check (·.theory.isMonomial) : Procedure Learner σ Bool)
      (L, s) = (.ok b, (L, s)) := by
    rw [Procedure.check, Action.outcome_bind]
    change Action.outcome (Action.ofChecked L.theory.isMonomial) (L, s) = _
    rw [hb]
    rfl
  rw [hcheck]
  dsimp only
  cases b with
  | true => rw [if_pos rfl, if_pos hb]
  | false =>
    rw [if_neg Bool.false_ne_true, if_neg (by simp [hb]), Action.outcome_bind]
    generalize Action.outcome (attemptSplit B) (L, s) = r
    obtain ⟨_ | _ | q, p⟩ := r
    · rfl
    · rfl
    · rfl

/-- From some fuel on, generation ends in one and the same way, which is not for want of
fuel. -/
def Returns (B : Backends σ) (Err : Failure → σ → Prop) (p : Learner × σ) : Prop :=
  ∃ n r p', (∀ fuel, n ≤ fuel → Action.outcome (generate B fuel) p = (r, p')) ∧
    r ≠ .error .outOfFuel ∧ ∀ f, r = .error f → Fails Err p.1.deadline f p'.2

/-- One round of generation was enough. -/
theorem returns_of_round (hErr : ∀ t, ¬ Err .outOfFuel t) {p q : Learner × σ}
    {r : Except Failure (Option Query)}
    (h : ∀ fuel, Action.outcome (generate B (fuel + 1)) p = (r, q))
    (hfails : ∀ f, r = .error f → Fails Err p.1.deadline f q.2) : Returns B Err p := by
  refine ⟨1, r, q, fun fuel hn => ?_, fun e => ?_, hfails⟩
  · obtain ⟨fuel, rfl⟩ := Nat.exists_eq_add_of_le' hn
    exact h fuel
  · rcases hfails .outOfFuel e with ⟨h, -⟩ | h | h
    · cases h
    · cases h
    · exact hErr _ h

/-- Another round before generation returns. -/
theorem Returns.of_next {p q : Learner × σ}
    (h : ∀ fuel, Action.outcome (generate B (fuel + 1)) p = Action.outcome (generate B fuel) q)
    (hdeadline : q.1.deadline = p.1.deadline) (hq : Returns B Err q) : Returns B Err p := by
  obtain ⟨n, r, p', hall, hne, hfails⟩ := hq
  refine ⟨n + 1, r, p', fun fuel hn => ?_, hne, hdeadline ▸ hfails⟩
  obtain ⟨fuel, rfl⟩ := Nat.exists_eq_add_of_le' (Nat.le_of_add_left_le hn)
  exact (h fuel).trans (hall fuel (Nat.le_of_add_le_add_right hn))

/-- Generation returns, since each attempt without a query leaves less to do. -/
theorem returns_generate (hErr : ∀ t, ¬ Err .outOfFuel t)
    (hB : B.Serves issued dom L.arena R D Err) (hL : L.Wf issued s)
    (hhoused : L.Housed B.sat issued dom R D) : Returns B Err (L, s) := by
  induction hrank : L.rank using WellFoundedLT.induction generalizing L s with
  | ind rank ih =>
    obtain ⟨b, hb⟩ := exists_isMonomial hL.theory.nonEmpty
    have hround := fun fuel => outcome_generate (B := B) (s := s) fuel ⟨b, hb⟩
    cases b with
    | true =>
      cases hprobe : Action.outcome (probeQuery B) (L, s) with
      | mk r p =>
        apply returns_of_round hErr (r := r) (q := p)
        · intro fuel
          rw [hround, if_pos hb, hprobe]
        · rintro f rfl
          exact ((leads_probeQuery_stays hB hL hb).of_error hprobe).fails
    | false =>
      have hattempt := leads_attemptSplit_tries hB hL hhoused ((isMonomial_eq_ok hb).2 rfl)
      have hnot : ¬ L.theory.isMonomial = .ok true := by simp [hb]
      cases hsplit : Action.outcome (attemptSplit B) (L, s) with
      | mk r p =>
        match r, hsplit with
        | .error f, hsplit =>
          apply returns_of_round hErr (r := .error f) (q := p)
          · intro fuel
            rw [hround, if_neg hnot, hsplit]
          · rintro _ ⟨⟩
            exact (hattempt.of_error hsplit).fails
        | .ok (some q), hsplit =>
          apply returns_of_round hErr (r := .ok (some q)) (q := p)
          · intro fuel
            rw [hround, if_neg hnot, hsplit]
          · intro f e
            cases e
        | .ok none, hsplit =>
          obtain ⟨L', t⟩ := p
          obtain ⟨hstops, -, hmissed⟩ : L.Tries issued _ none (L', t) := hattempt.of_ok hsplit
          obtain ⟨k, c, L₁, hchooses, hmisses⟩ := hmissed rfl
          have hchosen : L.Stays issued (L₁, s) := hchooses.stays hL
          have hless : L'.rank < L.rank :=
            (hmisses.rank_lt hchosen.wf hchooses.pivot.1 hchooses.pivot.2).trans_le
              hchooses.rank_le
          apply Returns.of_next (q := (L', t))
          · intro fuel
            rw [hround, if_neg hnot, hsplit]
          · exact hmisses.deadline.trans hchosen.deadline
          · exact ih L'.rank (hrank ▸ hless) (hstops.evolves.arena ▸ hB) hstops.wf
              (hstops.evolves.housed hhoused) rfl

/-! ### Conflicts throughout a run -/

/-- What `L` comes to when nothing but new conflicts joins its background. -/
structure Gathers (issued : Issued σ) (Sat : IndexSet → Prop) (L : Learner) (p : Learner × σ) :
    Prop extends Stops issued L p where
  found : ∃ Ms, Found Sat L p.1 Ms

variable {p p' : Learner × σ}

theorem Gathers.trans (h : L.Gathers issued Sat p) (h' : p.1.Gathers issued Sat p') :
    L.Gathers issued Sat p' := by
  obtain ⟨Ms, hMs⟩ := h.found
  obtain ⟨Ns, hNs⟩ := h'.found
  exact ⟨h.toStops.trans h'.toStops, Ms ++ Ns, hMs.trans hNs⟩

theorem Stops.gathers (h : L.Stops issued p) (hbackground : p.1.background = L.background)
    (hcount : p.1.counters.contradictions = L.counters.contradictions) :
    L.Gathers issued Sat p := ⟨h, [], (Found.refl Sat L).congr hbackground hcount⟩

theorem Alike.gathers (h : L.Alike L') (hL : L.Wf issued s) (ht : issued.Grows s t)
    (hcount : L'.counters.contradictions = L.counters.contradictions) :
    L.Gathers issued Sat (L', t) :=
  Stops.gathers ⟨h.wf (hL.grows ht), h.evolves⟩ h.background hcount

theorem Stays.gathers (h : L.Stays issued p) : L.Gathers issued Sat p :=
  h.toStops.gathers (congrArg (·.1) h.margins) (congrArg (·.2.1) h.margins)

theorem Fails.spent {l : Limit} {f : Failure} (h : Fails Err l f t) : Spent Err f t :=
  .inr (h.imp (·.1) id)

theorem leads_generate_gathers (hB : B.Serves issued dom L.arena R D Err) (fuel : Nat)
    (hL : L.Wf issued s) (hhoused : L.Housed B.sat issued dom R D) :
    Action.Leads (generate B fuel) (L, s)
      (fun _ p => L.Gathers issued ((Network.ofScope R).Admits L.arena dom) p)
      (fun f p => L.Gathers issued ((Network.ofScope R).Admits L.arena dom) p ∧
        Spent Err f p.2) := by
  induction fuel generalizing L s with
  | zero => exact ⟨hL.stays.gathers, .inl rfl⟩
  | succ fuel ih =>
    obtain ⟨b, hb⟩ := exists_isMonomial hL.theory.nonEmpty
    rw [generate, Action.leads_bind, leads_check_of hb]
    cases b with
    | true =>
      rw [if_pos rfl]
      apply (leads_probeQuery_stays hB hL hb).mono
      · exact fun _ _ h => h.gathers
      · exact fun _ _ h => ⟨h.gathers, h.fails.spent⟩
    | false =>
      rw [if_neg Bool.false_ne_true, Action.leads_bind]
      apply (leads_attemptSplit_tries hB hL hhoused ((isMonomial_eq_ok hb).2 rfl)).mono
      · rintro r p ⟨hstops, hsome, hmissed⟩
        cases r with
        | some q => exact Stays.gathers ⟨hstops, hsome q rfl⟩
        | none =>
          obtain ⟨k, c, L₁, hchooses, hmisses⟩ := hmissed rfl
          have hchosen : L.Stays issued (L₁, s) := hchooses.stays hL
          have hgathers : L.Gathers issued ((Network.ofScope R).Admits L.arena dom) p := by
            obtain ⟨Ms, hMs⟩ := hmisses.found hchosen.wf
            have hnone : L.Gathers issued ((Network.ofScope R).Admits L.arena dom) (L₁, s) :=
              hchosen.gathers
            obtain ⟨Ns, hNs⟩ := hnone.found
            exact ⟨hstops, Ns ++ Ms, hNs.trans hMs⟩
          have harena : p.1.arena = L.arena := hstops.evolves.arena
          have hrest := ih (L := p.1) (s := p.2) (harena ▸ hB) hstops.wf
            (hstops.evolves.housed hhoused)
          rw [harena] at hrest
          apply hrest.mono
          · exact fun _ _ h => hgathers.trans h
          · exact fun _ _ h => ⟨hgathers.trans h.1, h.2⟩
      · exact fun _ _ h => ⟨h.toStays.gathers, h.fails.spent⟩

theorem steady_gathers : Steady issued (L.Gathers issued Sat) := by
  intro L₁ L₂ s t h halike _ hfindings ht
  exact h.trans (halike.gathers h.wf ht (Prod.mk.inj hfindings).1)

section Runs

variable {F : Failure → Prop} {oracle : Oracle σ} (hoverflow : F (.fault .overflow))
include hoverflow

/-- An answer that is learnt adds nothing to the background. -/
theorem leads_learns_gathers {x : Procedure Learner σ Learnt} {q : Query}
    (h : L.Gathers issued Sat p)
    (hdigests : Action.Leads x p (fun r p' => p.1.Digests issued dom q r p')
      fun f p' => f = .fault .overflow ∧ p' = p)
    (hrests : Keeps (Rests (·.counters.contradictions = p.1.counters.contradictions)) x) :
    Action.Leads x p (After (L.Gathers issued Sat) (L.Gathers issued Sat))
      (Bears (L.Gathers issued Sat) F) := by
  apply (hdigests.and (hrests p rfl)).mono
  · rintro r p' ⟨hd, hcount⟩
    have hp' : L.Gathers issued Sat p' := h.trans (hd.stops.gathers hd.background hcount)
    cases r with
    | consistent => exact hp'
    | collapse => exact hp'
  · rintro _ _ ⟨⟨rfl, rfl⟩, -⟩
    exact ⟨h, hoverflow⟩

theorem leads_ask_gathers (horacle : oracle.Keeps issued) (hF : Excuses F oracle) (q : Query)
    (hp : L.Gathers issued Sat p) :
    Action.Leads (ask oracle q) p (After (L.Gathers issued Sat) (L.Gathers issued Sat))
      (Bears (L.Gathers issued Sat) F) := by
  apply leads_ask_of steady_gathers horacle hF _ q hp
  intro q p _ hp
  exact leads_learns_gathers hoverflow hp (leads_learn_digests (fun _ _ => True) hp.wf q false)
    (rests_learn aloof_contradictions q false)

theorem leads_preprocess_gathers (horacle : oracle.Keeps issued) (hF : Excuses F oracle)
    {cp : CpBackend σ} (hk : cp.Keeps issued) (hdraws : Draws F cp (L.Gathers issued Sat))
    (hp : L.Gathers issued Sat p) :
    Action.Leads (preprocess cp oracle) p (After (L.Gathers issued Sat) (L.Gathers issued Sat))
      (Bears (L.Gathers issued Sat) F) := by
  apply leads_preprocess_of steady_gathers horacle hF _ hk hdraws hp
  intro q p _ hp
  exact leads_learns_gathers hoverflow hp (leads_learnEarly_digests (fun _ _ => True) hp.wf q)
    (rests_learnEarly aloof_contradictions q)

variable (hB : B.Serves issued dom L.arena R D Err) (hhoused : L.Housed B.sat issued dom R D)
  (horacle : oracle.Keeps issued) (hErr : ∀ f t, Err f t → F f) (hF : Excuses F oracle)
include hB hhoused horacle hErr hF

/-- Throughout a run nothing but new conflicts joins the background. -/
theorem carries_gathers :
    Carries B oracle issued (L.Gathers issued ((Network.ofScope R).Admits L.arena dom))
      (L.Gathers issued ((Network.ofScope R).Admits L.arena dom)) (fun _ _ => True)
      (fun _ => True) (fun _ => L.Gathers issued ((Network.ofScope R).Admits L.arena dom))
      F where
  steady := steady_gathers
  excuses := hF
  generate := by
    intro fuel p hp
    have harena : p.1.arena = L.arena := hp.evolves.arena
    have hgathers := leads_generate_gathers (L := p.1) (s := p.2) (harena ▸ hB) fuel hp.wf
      (hp.evolves.housed hhoused)
    rw [harena] at hgathers
    apply hgathers.mono
    · exact fun _ _ h => ⟨hp.trans h, fun _ => trivial, fun _ _ => trivial⟩
    · rintro f p' ⟨h, hspent⟩
      refine ⟨hp.trans h, ?_⟩
      rcases hspent with rfl | rfl | rfl | hf
      · exact hF.fuel
      · exact hF.timeout
      · exact hoverflow
      · exact hErr f p'.2 hf
  ask := fun q _ hp _ => leads_ask_gathers hoverflow horacle hF q hp
  settled := fun _ _ _ => trivial
  extract := by
    intro p hp _
    have hrests := rests_extract (aloof_contradictions (n := p.1.counters.contradictions)).apart
      (fun _ _ _ h => h) B.sat
    apply ((leads_extract_reads hB.sat hp.wf).and (hrests p rfl)).mono
    · rintro o p' ⟨⟨ht, S, -, hreads⟩, hcount⟩
      exact hp.trans (hreads.alike.gathers hp.wf ht hcount)
    · rintro f ⟨L', t⟩ ⟨⟨ht, ⟨k, rfl⟩, hf⟩, hcount⟩
      exact ⟨hp.trans ((p.1.alike_counters k).gathers hp.wf ht hcount), hErr f t hf⟩
  collapsed := fun _ h => h
  stopped := by
    intro p hp
    refine ⟨hp, ?_⟩
    exact steady_gathers p.1 _ p.2 p.2 hp ⟨rfl, rfl, rfl, rfl, rfl, fun _ => id, rfl, rfl, rfl⟩
      rfl rfl (.refl issued p.2)

theorem leads_process_gathers (hlimits : Limits B issued F)
    (hdraws : Draws F B.cp (L.Gathers issued ((Network.ofScope R).Admits L.arena dom)))
    (fuel : Nat) (hL : L.Wf issued s) :
    Action.Leads (process B oracle fuel) (L, s)
      (fun _ => L.Gathers issued ((Network.ofScope R).Admits L.arena dom))
      (Bears (L.Gathers issued ((Network.ofScope R).Admits L.arena dom)) F) := by
  have hcarries := carries_gathers hoverflow hB hhoused horacle hErr hF
  apply hcarries.process hlimits fuel hL.stays.gathers
  intro L' t _ _ _ hp
  exact leads_preprocess_gathers hoverflow horacle hF hB.keeps hdraws hp

end Runs

/-- In a state that is reached every constraint with an atom is about variables with values. -/
theorem Reachable.housed (hB : B.Lawful issued dom Err) (h : Reachable B issued p)
    (hdom : ∀ v ∈ p.1.span, ∃ x, dom v x) :
    p.1.Housed B.sat issued dom p.1.span fun _ => True where
  inhabited := by
    choose! f hf using hdom
    exact ⟨f, hf⟩
  scope := p.1.bias_subset_span
  confined := fun _ _ hl _ =>
    ⟨fun _ hv => (h.sourced hB).confined (h.sane hB).wf hl hv, trivial⟩

/-- From every state that is reached generation returns. In a whole run, whatever the oracle
says, the conflicts that join the background are minimal, none contains a contradiction that is
known, and each makes the background longer. -/
theorem generation_ends_and_finds_new (hB : B.Lawful issued dom B.LimitHit)
    (hp : Reachable B issued p) (hdom : ∀ v ∈ p.1.span, ∃ x, dom v x) :
    Returns B B.LimitHit p ∧ ∀ oracle : Oracle σ, oracle.Keeps issued → ∀ fuel,
      ∃ Ms, Found ((Network.ofScope p.1.span).Admits p.1.arena dom) p.1
        (Action.outcome (process B oracle fuel) p).2.1 Ms := by
  have hwf : p.1.Wf issued p.2 := (hp.sane hB).wf
  have hhoused := hp.housed hB hdom
  have hserves := hB.serves hwf.built p.1.span fun _ => True
  constructor
  · apply returns_generate _ hserves hwf hhoused
    rintro t (h | ⟨h, -⟩)
    · cases h
    · cases h
  · intro oracle horacle fuel
    have hgathers := leads_process_gathers trivial hserves hhoused horacle
      (fun _ _ _ => trivial) (excuses_all oracle) (limits_all hserves.sat hB.keeps)
      (draws_all B.cp _) fuel hwf
    exact hgathers.outcome (fun _ _ h => h.found) fun _ _ h => h.1.found

end Learner

end Generation

namespace Exhaustive

/-- A run on the small instance finds two conflicts. -/
theorem finds_two_conflicts : ∃ p Ms, Learner.Reachable (backends bits) issued p ∧
    Learner.Returns (backends bits) (backends bits).LimitHit p ∧
    Learner.Found ((Network.ofScope p.1.span).Admits p.1.arena bits.Allows) p.1
      (Action.outcome (Learner.process (backends bits) (judge sample wanted) 20) p).2.1 Ms ∧
    Ms.length = 2 := by
  have h : (afterAsking []).any (fun p =>
      p.1.span.toList.all (fun v => !(values bits v).isEmpty) &&
        (Action.outcome (Learner.process (backends bits) (judge sample wanted) 20)
          p).2.1.background.size == p.1.background.size + 2) = true := by
    decide +kernel
  rw [Option.any_eq_true] at h
  obtain ⟨p, hp, h⟩ := h
  rw [Bool.and_eq_true, List.all_eq_true, beq_iff_eq] at h
  have hdom : ∀ v ∈ p.1.span, ∃ x, bits.Allows v x := by
    intro v hv
    have hvalues := h.1 v (mem_toList'.2 hv)
    rw [Bool.not_eq_true', List.isEmpty_eq_false_iff_exists_mem] at hvalues
    obtain ⟨x, hx⟩ := hvalues
    exact ⟨x, (mem_values bits).1 hx⟩
  have hreach := reachable_afterAsking hp
  obtain ⟨hreturns, hrun⟩ := Learner.generation_ends_and_finds_new
    (backends_lawful bits (backends bits).LimitHit) hreach hdom
  obtain ⟨Ms, hMs⟩ := hrun (judge sample wanted) (judge_keeps sample wanted) 20
  refine ⟨p, Ms, hreach, hreturns, hMs, ?_⟩
  have hsize := hMs.size
  omega

end Exhaustive

end Acquisition
