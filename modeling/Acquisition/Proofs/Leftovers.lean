import Acquisition.Proofs.Resuming
import Acquisition.Proofs.Scripts

/-!
# What is left when learning is cut short

A learner goes through the queries set for replay, and then through the strategies, before it
generates any query. At each item the time may be up, the oracle may not know, or a backend may
fail. What was learnt from the items before stays. But a list is taken from the learner before
the first of its items is learnt from, and so what is left of it is gone.

If what is left is set again, the next run comes to what a run would have come to that was never
cut short, given the same answers and witnesses.
-/
namespace Acquisition

variable {σ : Type} {issued : Issued σ} {s : σ} {dom : Ranges} {Err : Failure → σ → Prop}
  {B : Backends σ} {oracle : Oracle σ} {log : σ → Script}

namespace Learner

open Procedure

variable {L L' L'' : Learner} {G H : Script} {r : Learnt} {f : Failure} {p p' p₁ : Learner × σ}

/-! ### Going through items -/

/-- What may be set to be learnt from before any query is generated. -/
inductive Item
  | query (q : Query)
  | strategy (N : Network)

/-- What is set to be learnt from, in order. -/
def items (L : Learner) : List Item := L.replay.map .query ++ L.strategies.map .strategy

/-- The classified query that an item comes to, if it comes to any. -/
def evidence (cp : CpBackend σ) (oracle : Oracle σ) : Item → Procedure Learner σ (Option Query)
  | .query q =>
    if q.isClassified then do
      count fun k => { k with queries := k.queries + 1 }
      return some q
    else do return some (← classify oracle q)
  | .strategy N => do
    match ← (do witness cp (N.union (← own).known)) with
    | none => return none
    | some q => return some (← classify oracle q)

/-- Learns from an item, if there is time. -/
def learnItem (cp : CpBackend σ) (oracle : Oracle σ) (i : Item) : Procedure Learner σ Learnt := do
  poll
  match ← evidence cp oracle i with
  | none => return .consistent
  | some q => learnEarly q

/-- Learns from items in order, up to a collapse. -/
def goThrough (cp : CpBackend σ) (oracle : Oracle σ) : List Item → Procedure Learner σ Learnt
  | [] => return .consistent
  | i :: rest => do
    if (← learnItem cp oracle i) = .collapse then return .collapse
    goThrough cp oracle rest

theorem learnReplayed_eq (cp : CpBackend σ) (oracle : Oracle σ) (qs : List Query) :
    learnReplayed oracle qs = goThrough cp oracle (qs.map .query) := by
  induction qs with
  | nil => rfl
  | cons q qs ih =>
    rw [List.map_cons, learnReplayed, goThrough, learnItem, evidence, ih]
    cases q.isClassified with
    | true => simp only [if_true, bind_assoc, pure_bind]
    | false => simp only [Bool.false_eq_true, if_false, bind_assoc, pure_bind]

theorem learnStrategies_eq (cp : CpBackend σ) (oracle : Oracle σ) (Ns : List Network) :
    learnStrategies cp oracle Ns = goThrough cp oracle (Ns.map .strategy) := by
  induction Ns with
  | nil => rfl
  | cons N Ns ih =>
    rw [List.map_cons, learnStrategies, goThrough, learnItem, evidence, ih]
    simp only [bind_assoc]
    congr 1
    funext _
    congr 1
    funext L
    congr 1
    funext r
    cases r with
    | none => rfl
    | some q => simp only [bind_assoc, pure_bind]

/-- To go through two lists of items is to go through the one and then through the other. -/
theorem goThrough_append (cp : CpBackend σ) (oracle : Oracle σ) (is js : List Item) :
    goThrough cp oracle (is ++ js) = (do
      if (← goThrough cp oracle is) = .collapse then return .collapse
      goThrough cp oracle js) := by
  induction is with
  | nil => rfl
  | cons i is ih =>
    rw [List.cons_append, goThrough, goThrough, ih, bind_assoc]
    congr 1
    funext r
    cases r with
    | consistent => rfl
    | collapse => rfl

/-! ### What comes of an item -/

theorem Mirrors.append {is js : List Item}
    (h : Mirrors (goThrough Script.cp Script.oracle is) L G .consistent L')
    (h' : Mirrors (goThrough Script.cp Script.oracle js) L' H r L'') :
    Mirrors (goThrough Script.cp Script.oracle (is ++ js)) L (G ++ H) r L'' := by
  rw [goThrough_append]
  exact h.bind h'

theorem Mirrors.append_collapse {is : List Item} (js : List Item)
    (h : Mirrors (goThrough Script.cp Script.oracle is) L G .collapse L') :
    Mirrors (goThrough Script.cp Script.oracle (is ++ js)) L G .collapse L' := by
  rw [goThrough_append]
  exact h.bind_silent (mirrors_pure Learnt.collapse (.refl L'))

theorem mirrors_goThrough_nil (cp : CpBackend Script) (oracle : Oracle Script)
    (hL : L.Abreast L') : Mirrors (goThrough cp oracle []) L {} .consistent L' :=
  mirrors_pure Learnt.consistent hL

theorem Mirrors.goThrough_singleton {i : Item}
    (h : Mirrors (learnItem Script.cp Script.oracle i) L G r L') :
    Mirrors (goThrough Script.cp Script.oracle [i]) L G r L' := by
  apply h.bind_silent
  cases r with
  | consistent => exact mirrors_pure Learnt.consistent (.refl L')
  | collapse => exact mirrors_pure Learnt.collapse (.refl L')

section World

variable (hlog : Transcribes log B oracle) (hk : B.cp.Keeps issued) (horacle : oracle.Keeps issued)
include hlog hk horacle

theorem tracks_evidence (i : Item) : Tracks issued log (evidence B.cp oracle i)
    (evidence Script.cp Script.oracle i) := by
  have hclassify : ∀ q, Tracks issued log (do return some (← classify oracle q))
      (do return some (← classify Script.oracle q)) :=
    fun q => (tracks_classify hlog horacle q).bind fun _ => tracks_pure _
  cases i with
  | query q =>
    rw [evidence, evidence]
    split
    · exact (tracks_count _).bind fun _ => tracks_pure _
    · exact hclassify q
  | strategy N =>
    apply (tracks_witness hlog hk N).bind
    intro e
    cases e with
    | none => exact tracks_pure none
    | some q => exact hclassify q

/-- An item that fails teaches nothing, whatever the world gave for it. -/
theorem leads_learnItem (i : Item) (hL : L.Wf issued s) :
    Action.Leads (learnItem B.cp oracle i) (L, s)
      (fun r p => p.1.Wf issued p.2 ∧ ∃ G, log p.2 = log s ++ G ∧
        Mirrors (learnItem Script.cp Script.oracle i) L G r p.1)
      fun _ p => L.Abreast p.1 ∧ ∃ H, log p.2 = log s ++ H := by
  rw [learnItem, Action.leads_bind, leads_poll]
  refine ⟨fun _ => ?_, fun _ => ⟨.refl L, {}, (Script.append_nil _).symm⟩⟩
  rw [Action.leads_bind]
  apply (tracks_evidence hlog hk horacle i L s).mono
  · rintro e ⟨L', t⟩ h
    have hL' : L'.Wf issued t := h.alike.wf (hL.grows h.grows)
    obtain ⟨G, hG, hmirrors⟩ := h.gained
    cases e with
    | none =>
      refine ⟨hL', G, hG, Mirrors.after_poll ?_⟩
      exact hmirrors.bind_silent (mirrors_pure Learnt.consistent (.refl L'))
    | some q =>
      apply ((leads_learnEarly_digests (fun _ _ => True) hL' q).and
        (Action.leads_outcome _ _)).mono
      · rintro r ⟨L'', u⟩ ⟨hdigests, hlearnt⟩
        obtain ⟨rfl, hlearn⟩ := (concur_learnEarly q).mirrors
          (fun _ => rests_learnEarly aloof_deadline q) hlearnt
        refine ⟨hdigests.wf, G, hG, Mirrors.after_poll ?_⟩
        exact hmirrors.bind_silent hlearn
      · rintro f p ⟨⟨-, rfl⟩, -⟩
        exact ⟨h.abreast, G, hG⟩
  · intro f p h
    obtain ⟨H, hH, -⟩ := h.gained
    exact ⟨h.abreast, H, hH⟩

end World

/-! ### What comes of all items -/

/-- Learning from the items was cut short when it had come to those that are left. It has come to
what comes of the items before by the script `G`. -/
structure StopsShort (log : σ → Script) (is done left : List Item) (G : Script)
    (p p' : Learner × σ) : Prop where
  split : is = done ++ left
  left : left ≠ []
  gained : ∃ H, log p'.2 = log p.2 ++ (G ++ H)
  mirrors : Mirrors (goThrough Script.cp Script.oracle done) p.1 G .consistent p'.1

/-- Learning went through the items, up to a collapse, and has come to what comes of them by the
script `G`. -/
structure GoesThrough (issued : Issued σ) (log : σ → Script) (is : List Item) (G : Script)
    (r : Learnt) (p p' : Learner × σ) : Prop where
  wf : p'.1.Wf issued p'.2
  gained : log p'.2 = log p.2 ++ G
  mirrors : Mirrors (goThrough Script.cp Script.oracle is) p.1 G r p'.1

theorem GoesThrough.congr {is : List Item} (h : GoesThrough issued log is G r p p')
    (habreast : p.1.Abreast p₁.1) (hsame : log p.2 = log p₁.2) :
    GoesThrough issued log is G r p₁ p' :=
  ⟨h.wf, hsame ▸ h.gained, h.mirrors.congr habreast⟩

theorem StopsShort.congr {is done left : List Item} (h : StopsShort log is done left G p p')
    (habreast : p.1.Abreast p₁.1) (hsame : log p.2 = log p₁.2) :
    StopsShort log is done left G p₁ p' :=
  ⟨h.split, h.left, hsame ▸ h.gained, h.mirrors.congr habreast⟩

theorem StopsShort.extend {is done left : List Item} (h : StopsShort log is done left G p p')
    (js : List Item) : StopsShort log (is ++ js) done (left ++ js) G p p' :=
  ⟨by rw [h.split, List.append_assoc], List.append_ne_nil_of_left_ne_nil h.left js, h.gained,
    h.mirrors⟩

theorem GoesThrough.append {is js : List Item}
    (h : GoesThrough issued log is G .consistent p p₁)
    (h' : GoesThrough issued log js H r p₁ p') :
    GoesThrough issued log (is ++ js) (G ++ H) r p p' where
  wf := h'.wf
  gained := by rw [h'.gained, h.gained, Script.append_assoc]
  mirrors := h.mirrors.append h'.mirrors

theorem GoesThrough.append_collapse {is : List Item} (js : List Item)
    (h : GoesThrough issued log is G .collapse p p') :
    GoesThrough issued log (is ++ js) G .collapse p p' :=
  ⟨h.wf, h.gained, h.mirrors.append_collapse js⟩

theorem GoesThrough.stopsShort {is js done left : List Item}
    (h : GoesThrough issued log is G .consistent p p₁)
    (h' : StopsShort log js done left H p₁ p') :
    StopsShort log (is ++ js) (is ++ done) left (G ++ H) p p' where
  split := by rw [h'.split, List.append_assoc]
  left := h'.left
  gained := by
    obtain ⟨I, hI⟩ := h'.gained
    exact ⟨I, by rw [hI, h.gained, Script.append_assoc, Script.append_assoc]⟩
  mirrors := h.mirrors.append h'.mirrors

section World

variable (hlog : Transcribes log B oracle) (hk : B.cp.Keeps issued) (horacle : oracle.Keeps issued)
include hlog hk horacle

theorem leads_goThrough (is : List Item) (hL : L.Wf issued s) :
    Action.Leads (goThrough B.cp oracle is) (L, s)
      (fun r p => ∃ G, GoesThrough issued log is G r (L, s) p)
      fun _ p => ∃ done left G, StopsShort log is done left G (L, s) p := by
  induction is generalizing L s with
  | nil =>
    exact ⟨{}, hL, (Script.append_nil _).symm, mirrors_goThrough_nil _ _ (.refl L)⟩
  | cons i is ih =>
    rw [goThrough, Action.leads_bind]
    apply (leads_learnItem hlog hk horacle i hL).mono
    · rintro r ⟨L', t⟩ ⟨hL', G, hG, hmirrors⟩
      have hfirst : GoesThrough issued log [i] G r (L, s) (L', t) :=
        ⟨hL', hG, hmirrors.goThrough_singleton⟩
      cases r with
      | collapse => exact ⟨G, hfirst.append_collapse is⟩
      | consistent =>
        apply (ih hL').mono
        · rintro r p ⟨H, h⟩
          exact ⟨G ++ H, hfirst.append h⟩
        · rintro f p ⟨done, left, H, h⟩
          exact ⟨[i] ++ done, left, G ++ H, hfirst.stopsShort h⟩
    · rintro f p ⟨habreast, H, hH⟩
      exact ⟨[], i :: is, {}, rfl, List.cons_ne_nil i is, ⟨H, hH⟩,
        mirrors_goThrough_nil _ _ habreast⟩

end World

/-! ### What comes of all that is set -/

theorem items_of_orders {settings : Settings} {qs : List Query} {Ns : List Network}
    (h : L.orders = ⟨settings, qs, Ns⟩) : L.items = qs.map .query ++ Ns.map .strategy := by
  obtain ⟨-, hreplay, hstrategies⟩ := Orders.mk.inj h
  rw [items, hreplay, hstrategies]

theorem abreast_replay (L : Learner) (qs : List Query) : L.Abreast { L with replay := qs } :=
  ⟨rfl, rfl, rfl, rfl, rfl, rfl⟩

theorem abreast_strategies (L : Learner) (Ns : List Network) :
    L.Abreast { L with strategies := Ns } := ⟨rfl, rfl, rfl, rfl, rfl, rfl⟩

theorem abreast_limits (L : Learner) (l : Limit) (b : Bool) :
    L.Abreast { L with deadline := l, timedOut := b } := ⟨rfl, rfl, rfl, rfl, rfl, rfl⟩

theorem Wf.without_replay (hL : L.Wf issued s) : { L with replay := [] }.Wf issued s :=
  have halike : L.Alike { L with replay := [] } :=
    ⟨rfl, rfl, rfl, rfl, rfl, fun _ => id, rfl, rfl, rfl⟩
  halike.wf hL

theorem Wf.without_strategies (hL : L.Wf issued s) : { L with strategies := [] }.Wf issued s :=
  have halike : L.Alike { L with strategies := [] } :=
    ⟨rfl, rfl, rfl, rfl, rfl, nofun, rfl, rfl, rfl⟩
  halike.wf hL

/-- Learning before generation that was cut short, and what is set to be learnt from after it: the
strategies if it was cut short in the replay, and nothing otherwise. -/
structure LeavesOff (log : σ → Script) (done left : List Item) (G : Script) (p p' : Learner × σ) :
    Prop extends StopsShort log p.1.items done left G p p' where
  remaining : p'.1.items =
    if done.length < p.1.replay.length then p.1.strategies.map .strategy else []

/-- When nothing is set after the cut, although there were strategies, it did not come in the
replay. -/
theorem LeavesOff.replayed {done left : List Item} (h : LeavesOff log done left G p p')
    (hset : p.1.strategies ≠ []) (hitems : p'.1.items = []) :
    p.1.replay.length ≤ done.length := by
  have hremaining := h.remaining
  rw [hitems] at hremaining
  split at hremaining
  · exact absurd (List.map_eq_nil_iff.1 hremaining.symm) hset
  · next hdone => exact Nat.le_of_not_lt hdone

theorem leads_preprocess_items (hlog : Transcribes log B oracle) (hk : B.cp.Keeps issued)
    (horacle : oracle.Keeps issued) (hL : L.Wf issued s) :
    Action.Leads (preprocess B.cp oracle) (L, s)
      (fun r p => ∃ G, GoesThrough issued log L.items G r (L, s) p)
      fun _ p => ∃ done left G, LeavesOff log done left G (L, s) p := by
  have hreplayed := rests_learnReplayed oracle aloof_orders L.replay
    ({ L with replay := [] }, s) rfl
  have habreast := (L.abreast_replay []).symm
  rw [learnReplayed_eq B.cp] at hreplayed
  rw [preprocess, Action.leads_bind, leads_own, Action.leads_bind, leads_update, Action.leads_bind,
    learnReplayed_eq B.cp]
  apply ((leads_goThrough hlog hk horacle _ hL.without_replay).and hreplayed).mono
  · rintro r ⟨L', t⟩ ⟨⟨G, h⟩, horders⟩
    replace h : GoesThrough issued log _ G r (L, s) (L', t) := h.congr habreast rfl
    cases r with
    | collapse => exact ⟨G, h.append_collapse _⟩
    | consistent =>
      obtain ⟨-, hreplay, hstrategies⟩ := Orders.mk.inj horders
      have hlearnt := rests_learnStrategies oracle aloof_orders B.cp L.strategies
        ({ L' with strategies := [] }, t) rfl
      have habreast' := (L'.abreast_strategies []).symm
      rw [learnStrategies_eq] at hlearnt
      rw [if_neg (by simp), Action.leads_bind, leads_own, Action.leads_bind, leads_update,
        hstrategies, learnStrategies_eq]
      apply ((leads_goThrough hlog hk horacle _ h.wf.without_strategies).and hlearnt).mono
      · rintro r p ⟨⟨H, h'⟩, -⟩
        exact ⟨G ++ H, h.append (h'.congr habreast' rfl)⟩
      · rintro f p ⟨⟨done, left, H, h'⟩, horders'⟩
        -- Neither list is set any more, however many of the strategies were not learnt from.
        refine ⟨_, left, G ++ H, h.stopsShort (h'.congr habreast' rfl), ?_⟩
        rw [items_of_orders horders', hreplay, if_neg (by simp)]
        rfl
  · rintro f p ⟨⟨done, left, G, h⟩, horders⟩
    -- The strategies are taken after the replay only, and so they are still set.
    have hstops : StopsShort log _ done left G (L, s) p := h.congr habreast rfl
    refine ⟨done, left ++ L.strategies.map .strategy, G, hstops.extend _, ?_⟩
    have hlength : done.length < L.replay.length := by
      have hsplit := congrArg List.length h.split
      have hleft := List.length_pos_iff.2 h.left
      rw [List.length_map, List.length_append] at hsplit
      omega
    rw [items_of_orders horders, if_pos hlength]
    rfl

/-! ### A run that goes on -/

/-- To set the limits changes nothing that learning hangs on, and nothing is given meanwhile. -/
theorem leads_setLimits_log (hB : B.Lawful issued dom Err) (hlog : Transcribes log B oracle)
    (L : Learner) (s : σ) :
    Action.Leads (setLimits B) (L, s)
      (fun _ p => (∃ l, p.1 = { L with deadline := l, timedOut := false }) ∧
        issued.Grows s p.2 ∧ log p.2 = log s)
      fun _ _ => True := by
  rw [setLimits, Action.leads_bind, leads_update, Action.leads_bind, leads_own,
    Action.leads_bind, leads_call]
  apply ((hB.sat.solves.setLimit _ s).and (hlog.sat _ s)).mono _ fun _ _ _ => trivial
  rintro _ t ⟨hgrows, hsame⟩
  rw [leads_call]
  apply ((hB.keeps.setLimit _ t).and (hlog.cp _ t)).mono _ fun _ _ _ => trivial
  rintro _ u ⟨hgrows', hsame'⟩
  exact ⟨⟨_, rfl⟩, hgrows.trans hgrows', hsame'.trans hsame⟩

/-- A run of a learner that sets its limits and learns from what is set for that, up to a failure
perhaps. Meanwhile it is given `G`. -/
structure Prepares (B : Backends σ) (issued : Issued σ) (log : σ → Script) (oracle : Oracle σ)
    (G : Script) (p : Learner × σ) (r : Except Failure Learnt) (p' : Learner × σ) : Prop where
  reachable : Reachable B issued p
  keeps : oracle.Keeps issued
  transcribes : Transcribes log B oracle
  outcome : ∃ p₀, Action.outcome (setLimits B) p = (.ok (), p₀) ∧
    Action.outcome (preprocess B.cp oracle) p₀ = (r, p')
  gained : log p'.2 = log p.2 ++ G

/-- A run that is cut short before generation ends there. -/
theorem Prepares.ends (h : Prepares B issued log oracle G p (.error f) p') (fuel : Nat) :
    ∃ b, (Action.outcome (process B oracle fuel) p).2 = ({ p'.1 with timedOut := b }, p'.2) := by
  obtain ⟨p₀, hset, hpreprocess⟩ := h.outcome
  have hends : Action.Leads (process B oracle fuel) p (fun _ u => ∃ b, u = ({ p'.1 with
      timedOut := b }, p'.2)) fun _ u => ∃ b, u = ({ p'.1 with timedOut := b }, p'.2) := by
    rw [process_eq, Action.leads_bind, Action.Leads, hset]
    dsimp only
    rw [Action.leads_bind, Action.leads_attempt, run, Action.leads_bind, Action.Leads,
      hpreprocess]
    dsimp only
    split
    · next e => cases e
    · exact ⟨true, rfl⟩
    · exact ⟨p'.1.timedOut, rfl⟩
    · exact ⟨p'.1.timedOut, rfl⟩
  exact hends.outcome (fun _ _ h => h) fun _ _ h => h

section Runs

variable (hB : B.Lawful issued dom Err)
include hB

theorem Prepares.starts {r : Except Failure Learnt} (h : Prepares B issued log oracle G p r p') :
    ∃ L s, L.Wf issued s ∧ (∃ l, L = { p.1 with deadline := l, timedOut := false }) ∧
      log s = log p.2 ∧ Action.outcome (preprocess B.cp oracle) (L, s) = (r, p') := by
  obtain ⟨⟨L, s⟩, hset, hpreprocess⟩ := h.outcome
  obtain ⟨⟨l, rfl⟩, hgrows, hsame⟩ := (leads_setLimits_log hB h.transcribes p.1 p.2).of_ok hset
  have halike := p.1.alike_limits l false
  have hwf := (h.reachable.sane hB).wf
  exact ⟨_, s, halike.wf (hwf.grows hgrows), ⟨l, rfl⟩, hsame, hpreprocess⟩

theorem Prepares.goesThrough (h : Prepares B issued log oracle G p (.ok r) p') :
    GoesThrough issued log p.1.items G r p p' := by
  obtain ⟨_, s, hwf, ⟨l, rfl⟩, hsame, hpreprocess⟩ := h.starts hB
  obtain ⟨G', hgoes⟩ :=
    (leads_preprocess_items h.transcribes hB.keeps h.keeps hwf).of_ok hpreprocess
  replace hgoes : GoesThrough issued log p.1.items G' r p p' :=
    hgoes.congr (p.1.abreast_limits l false).symm hsame
  rwa [Script.append_cancel (h.gained.symm.trans hgoes.gained)]

theorem Prepares.leavesOff (h : Prepares B issued log oracle G p (.error f) p') :
    ∃ done left G₁ G₂, G = G₁ ++ G₂ ∧ LeavesOff log done left G₁ p p' := by
  obtain ⟨_, s, hwf, ⟨l, rfl⟩, hsame, hpreprocess⟩ := h.starts hB
  obtain ⟨done, left, G₁, hleaves⟩ :=
    (leads_preprocess_items h.transcribes hB.keeps h.keeps hwf).of_error hpreprocess
  have hstops : StopsShort log p.1.items done left G₁ p p' :=
    hleaves.toStopsShort.congr (p.1.abreast_limits l false).symm hsame
  obtain ⟨G₂, hgained⟩ := hstops.gained
  exact ⟨done, left, G₁, G₂, Script.append_cancel (h.gained.symm.trans hgained), hstops,
    hleaves.remaining⟩

/-- A run that is cut short before it generates a query has come to what comes of the items that
are done. If it was cut short in the replay, the strategies are still set to be learnt from, and
otherwise nothing is. The next run goes on with what is set then. It comes to what a run comes to
that is not cut short, for which the items that are done are set and then those, and which is given
the same. So nothing is lost if what is left is set again. -/
theorem interrupted_resumes (hcut : Prepares B issued log oracle G p (.error f) p') (fuel : Nat) :
    (∃ b, (Action.outcome (process B oracle fuel) p).2 = ({ p'.1 with timedOut := b }, p'.2)) ∧
    ∃ done left G₁ G₂, G = G₁ ++ G₂ ∧ LeavesOff log done left G₁ p p' ∧
      ∀ oracle' H q r q', Prepares B issued log oracle' H q (.ok r) q' → p'.1.Abreast q.1 →
        Mirrors (goThrough Script.cp Script.oracle (done ++ q.1.items)) p.1 (G₁ ++ H) r q'.1 ∧
        ∀ oracle'' u r' u', Prepares B issued log oracle'' (G₁ ++ H) u (.ok r') u' →
          p.1.Abreast u.1 → u.1.items = done ++ q.1.items → r' = r ∧ q'.1.Abreast u'.1 := by
  obtain ⟨done, left, G₁, G₂, hG, hleaves⟩ := hcut.leavesOff hB
  refine ⟨hcut.ends fuel, done, left, G₁, G₂, hG, hleaves, ?_⟩
  intro oracle' H q r q' hq habreast
  have hrest := (hq.goesThrough hB).mirrors.congr habreast.symm
  have hall := hleaves.mirrors.append hrest
  refine ⟨hall, ?_⟩
  intro oracle'' u r' u' hu habreast' hitems
  have hagain := (hu.goesThrough hB).mirrors
  rw [hitems] at hagain
  obtain ⟨hr, -, hstate⟩ := hall.unique (R := {}) (S := {}) hagain habreast' rfl
  exact ⟨hr, hstate⟩

end Runs

end Learner

/-! ### A world that is transcribed -/

/-- Backends of which the witnesses are written down beside the world. -/
def Backends.transcribed (B : Backends σ) : Backends (σ × Script) where
  sat := (B.beside Script).sat
  cp :=
    { witness := fun A N => do
        let r ← (B.cp.witness A N).beside Script
        modify fun p => (p.1, p.2 ++ ⟨[], [r]⟩)
        return r
      setLimit := (B.beside Script).cp.setLimit
      timedOut := (B.beside Script).cp.timedOut }
  draws := (B.beside Script).draws

/-- An oracle that looks at what was written down, and writes down what it answers. -/
def Oracle.transcribed (answer : Script → Query → Answer) : Oracle (σ × Script) := fun q => do
  let p ← get
  let a := answer p.2 q
  set (p.1, p.2 ++ ⟨[a], []⟩)
  return a

theorem Backends.Lawful.transcribed (h : B.Lawful issued dom Err) :
    B.transcribed.Lawful (fun p => issued p.1) dom fun f p => Err f p.1 where
  sat := (h.beside Script).sat
  cp := ⟨fun A N p hA hN => by
    rw [Backends.transcribed, Action.leads_bind, Action.leads_beside]
    exact h.cp.witness A N p.1 hA hN⟩
  keeps :=
    { witness := fun A N p => by
        rw [Backends.transcribed, Action.leads_bind, Action.leads_beside]
        exact h.keeps.witness A N p.1
      setLimit := (h.beside Script).keeps.setLimit }
  setLimit := (h.beside Script).setLimit

theorem Oracle.transcribed_keeps (answer : Script → Query → Answer) (issued : Issued σ) :
    (Oracle.transcribed answer).Keeps fun p => issued p.1 := fun _ p => .refl issued p.1

theorem transcribes_transcribed (B : Backends σ) (answer : Script → Query → Answer) :
    Transcribes Prod.snd B.transcribed (Oracle.transcribed answer) where
  oracle := fun _ _ => rfl
  witness := fun A N p => by
    rw [Backends.transcribed, Action.leads_bind, Action.leads_beside]
    exact ((B.cp.witness A N).leads_trivial p.1).mono (fun _ _ _ => rfl) fun _ _ _ => rfl
  sat := fun l p => (B.sat.setLimit l).preserves_beside (· = p.2) p rfl
  cp := fun l p => (B.cp.setLimit l).preserves_beside (· = p.2) p rfl

namespace Exhaustive

open Learner

/-- A query without a verdict. -/
def doubtful : Query := .ofPairs [(0, 0), (1, 0)]

/-- The same query once it is rejected. -/
def denied : Query := { doubtful with verdict := some false }

/-- A witness of the wanted network. -/
def sound : Query := .ofPairs [(0, 0), (1, 1)]

theorem closed_wanted : wanted.Closed sample := by
  have h : Network.ofList sample (.ofList [0, 1]) [0, 4] = .ok wanted := by decide +kernel
  exact Network.closed_ofList h

/-- The backends that try everything, transcribed. -/
def transcribing : Backends (World × Script) := (backends bits).transcribed

/-- The constraints of the atoms handed out, beside a script. -/
def allotted : Issued (World × Script) := fun w => Exhaustive.issued w.1

/-- An oracle that goes by the wanted network. -/
def knowing : Oracle (World × Script) :=
  .transcribed fun _ q => .ofBool (decide (wanted.Holds sample q.valuation))

/-- The same oracle, which does not know what to say once it gave an answer. -/
def stumbling : Oracle (World × Script) :=
  .transcribed fun G q =>
    if G.answers = [] then .ofBool (decide (wanted.Holds sample q.valuation)) else .unknown

/-- A learner once its limits are set. -/
def limited (p : Learner × World × Script) : Learner × World × Script :=
  ({ p.1 with deadline := .after p.1.settings.timeLimit.value, timedOut := false }, p.2)

theorem prepares_of_outcome {answer : Script → Query → Answer} {G : Script}
    {r : Except Failure Learnt} {p p' : Learner × World × Script}
    (hp : Reachable transcribing allotted p)
    (h : Action.outcome (preprocess transcribing.cp (.transcribed answer)) (limited p) = (r, p'))
    (hgained : p'.2.2 = p.2.2 ++ G) :
    Prepares transcribing allotted Prod.snd (.transcribed answer) G p r p' where
  reachable := hp
  keeps := Oracle.transcribed_keeps answer Exhaustive.issued
  transcribes := transcribes_transcribed (backends bits) answer
  outcome := ⟨limited p, rfl, h⟩
  gained := hgained

/-- A run learns from a replayed query and stumbles over the answer to a strategy. Nothing is set
to be learnt from any more. Once the strategy is set again, the next run comes to what the run
would have come to without that. -/
theorem resumes_sample : ∃ p p' q q' u' : Learner × World × Script,
    Prepares transcribing allotted Prod.snd stumbling
      ⟨[.reject, .unknown], [some sound]⟩ p (.error (.error .oracleUnknown)) p' ∧
    p.1.items = [.query doubtful, .strategy wanted] ∧ p'.1.items = [] ∧
    p'.1.Abreast q.1 ∧ q.1.items = [.strategy wanted] ∧
    Prepares transcribing allotted Prod.snd knowing ⟨[.accept], [some sound]⟩ q
      (.ok .consistent) q' ∧
    Prepares transcribing allotted Prod.snd knowing
      ⟨[.reject, .accept], [some sound]⟩ p (.ok .consistent) u' ∧
    q'.1.Abreast u'.1 := by
  have hruns : (start transcribing.sat {} sample plain {}).Leads ([], {})
      (fun L t => t.2 = {} ∧
        Action.Leads (preprocess transcribing.cp stumbling)
          (limited ({ L with replay := [doubtful], strategies := [wanted] }, t))
          (fun _ _ => False)
          (fun f p' => (f = .error .oracleUnknown ∧
              p'.2.2 = ⟨[.reject, .unknown], [some sound]⟩ ∧
              p'.1.replay = [] ∧ p'.1.strategies = []) ∧
            Action.Leads (preprocess transcribing.cp knowing)
              (limited ({ p'.1 with strategies := [wanted] }, p'.2))
              (fun r q' => r = .consistent ∧
                q'.2.2 = p'.2.2 ++ ⟨[.accept], [some sound]⟩)
              fun _ _ => False) ∧
        Action.Leads (preprocess transcribing.cp knowing)
          (limited ({ L with replay := [doubtful], strategies := [wanted] }, t))
          (fun r u' => r = .consistent ∧ u'.2.2 = ⟨[.reject, .accept], [some sound]⟩)
          (fun _ _ => False) ∧
        Action.Leads (preprocess transcribing.cp knowing)
          (limited ({ L with replay := [doubtful] }, t))
          (fun r v' => r = .consistent ∧ v'.2.2 = ⟨[.reject], []⟩)
          fun _ _ => False)
      (fun _ _ => False) := by
    decide +kernel
  have hB : transcribing.Lawful allotted bits.Allows fun _ _ => False :=
    (backends_lawful bits fun _ _ => False).transcribed
  have hstarted := leads_start (s := ([], {})) hB.sat {} built_sample closed_plain
    (Network.closed_ofScope sample .empty)
  obtain ⟨L, t, hL, hnothing, hcut, hwhole, hpart⟩ := hruns.exists_outcome
  obtain ⟨-, hfresh⟩ := hstarted.of_ok hL
  obtain ⟨_, p', hp', ⟨rfl, hgained, hreplay, hstrategies⟩, hresumed⟩ := hcut.exists_failure
  obtain ⟨_, q', hq', rfl, hgained'⟩ := hresumed.exists_outcome
  obtain ⟨_, u', hu', rfl, hgained''⟩ := hwhole.exists_outcome
  obtain ⟨_, v', hv', rfl, hgained'''⟩ := hpart.exists_outcome
  have hreplayed : Reachable transcribing allotted ({ L with replay := [doubtful] }, t) :=
    .step (.start built_sample closed_plain (Network.closed_ofScope sample .empty) hL)
      (.replay [doubtful])
  have hset : Reachable transcribing allotted
      ({ L with replay := [doubtful], strategies := [wanted] }, t) :=
    .step hreplayed (.strategies (by simpa [hfresh.arena] using closed_wanted))
  have hfirst : Prepares transcribing allotted Prod.snd stumbling
      ⟨[.reject, .unknown], [some sound]⟩ _ (.error (.error .oracleUnknown)) p' :=
    prepares_of_outcome hset hp' (by rw [hnothing]; exact hgained)
  have hpart : Prepares transcribing allotted Prod.snd knowing ⟨[.reject], []⟩ _
      (.ok .consistent) v' :=
    prepares_of_outcome hreplayed hv' (by rw [hnothing]; exact hgained''')
  obtain ⟨⟨b, hends⟩, done, left, G₁, G₂, hG, hleaves, hresumes⟩ :=
    interrupted_resumes hB hfirst 0
  have hitems : p'.1.items = [] := by
    rw [items, hreplay, hstrategies]
    rfl
  have hsplit : [Item.query doubtful] ++ [.strategy wanted] = done ++ left := hleaves.split
  have hlength : [Item.query doubtful].length = done.length := by
    have hsum := congrArg List.length hsplit
    have hleft := List.length_pos_iff.2 hleaves.left
    have hdone := hleaves.replayed (List.cons_ne_nil wanted []) hitems
    simp only [List.length_cons, List.length_nil, List.length_append] at hsum hdone ⊢
    omega
  obtain ⟨rfl, rfl⟩ := List.append_inj hsplit hlength
  -- A run for which only the replay is set is given just what was given for it before.
  have hpart := (hpart.goesThrough hB).mirrors
  rw [items, hfresh.strategies] at hpart
  obtain ⟨-, rfl, -⟩ := hpart.unique (R := ⟨[.unknown], [some sound]⟩) hleaves.mirrors
    ⟨rfl, rfl, rfl, rfl, rfl, rfl⟩ hG
  have hstep : Step transcribing allotted
      ({ L with replay := [doubtful], strategies := [wanted] }, t)
      ({ p'.1 with timedOut := b }, p'.2) := hends ▸ .process 0 hfirst.keeps
  have harena : p'.1.arena = sample :=
    (hstep.sane hB (hset.sane hB)).2.arena.trans hfresh.arena
  have hagain : Reachable transcribing allotted
      ({ p'.1 with timedOut := b, strategies := [wanted] }, p'.2) :=
    .step (.step hset hstep) (.strategies (by simpa [harena] using closed_wanted))
  have hsecond : Prepares transcribing allotted Prod.snd knowing ⟨[.accept], [some sound]⟩ _
      (.ok .consistent) q' := prepares_of_outcome hagain hq' hgained'
  have hthird : Prepares transcribing allotted Prod.snd knowing
      ⟨[.reject, .accept], [some sound]⟩ _ (.ok .consistent) u' :=
    prepares_of_outcome hset hu' (by rw [hnothing]; exact hgained'')
  have hleft : items { p'.1 with timedOut := b, strategies := [wanted] } = [.strategy wanted] := by
    rw [items, hreplay]
    rfl
  have habreast : p'.1.Abreast { p'.1 with timedOut := b, strategies := [wanted] } :=
    ⟨rfl, rfl, rfl, rfl, rfl, rfl⟩
  obtain ⟨-, hsame⟩ := hresumes _ _ _ _ _ hsecond habreast
  obtain ⟨-, hagree⟩ := hsame _ _ _ _ hthird (.refl _) (by rw [hleft]; rfl)
  exact ⟨_, p', ({ p'.1 with timedOut := b, strategies := [wanted] }, p'.2), q', u', hfirst, rfl,
    hitems, habreast, hleft, hsecond, hthird, hagree⟩

/-- An oracle that gives one answer to every query. -/
def always (a : Answer) : Oracle World := fun _ => pure a

/-- Of two replayed queries the second has no verdict, and the oracle does not know either. A
second run, with an oracle that rejects it, does not learn from that query. It converges without
the constraint that a run that is not cut short learns from it. -/
theorem interruption_drops_query : ∃ p p' q' u' : Learner × World,
    Reachable (backends bits) Exhaustive.issued p ∧
    p.1.items = [.query refused, .query doubtful] ∧
    Action.outcome (process (backends bits) (always .unknown) 0) p =
      (.error (.error .oracleUnknown), p') ∧
    p'.1.asked = [refused] ∧ p'.1.items = [] ∧
    Action.outcome (process (backends bits) (always .reject) 0) p' = (.ok .converged, q') ∧
    Action.outcome (process (backends bits) (always .reject) 0) p = (.ok .converged, u') ∧
    q'.1.asked = [refused] ∧ u'.1.asked = [refused, denied] ∧
    q'.1.theory.size = 1 ∧ u'.1.theory.size = 2 ∧
    q'.1.learned.any (·.contains 4) = false ∧ u'.1.learned.any (·.contains 4) = true := by
  have hfirst : (start (backends bits).sat {} sample plain {}).Leads []
      (fun L t => L.strategies = [] ∧
        Action.Leads (process (backends bits) (always .unknown) 0)
          ({ L with replay := [refused, doubtful], passive := true }, t)
          (fun _ _ => False)
          fun f p' => f = .error .oracleUnknown ∧ p'.1.asked = [refused] ∧ p'.1.replay = [] ∧
            p'.1.strategies = [])
      (fun _ _ => False) := by
    decide +kernel
  have hsecond : (start (backends bits).sat {} sample plain {}).Leads []
      (fun L t => Action.Leads (process (backends bits) (always .unknown) 0)
        ({ L with replay := [refused, doubtful], passive := true }, t)
        (fun _ _ => False)
        fun _ p' => Action.Leads (process (backends bits) (always .reject) 0) p'
          (fun o q' => o = .converged ∧ q'.1.asked = [refused] ∧ q'.1.theory.size = 1 ∧
            q'.1.learned.any (·.contains 4) = false)
          fun _ _ => False)
      (fun _ _ => False) := by
    decide +kernel
  have hwhole : (start (backends bits).sat {} sample plain {}).Leads []
      (fun L t => Action.Leads (process (backends bits) (always .reject) 0)
        ({ L with replay := [refused, doubtful], passive := true }, t)
        (fun o u' => o = .converged ∧ u'.1.asked = [refused, denied] ∧ u'.1.theory.size = 2 ∧
          u'.1.learned.any (·.contains 4) = true)
        fun _ _ => False)
      (fun _ _ => False) := by
    decide +kernel
  obtain ⟨L, t, hL, hstrategies, hfirst⟩ := hfirst.exists_outcome
  obtain ⟨_, p', hp', rfl, hasked, hreplay, hleft⟩ := hfirst.exists_failure
  obtain ⟨_, q', hq', rfl, hone, hshort, hwithout⟩ :=
    ((hsecond.of_ok hL).of_error hp').exists_outcome
  obtain ⟨_, u', hu', rfl, hboth, hlong, hwith⟩ := (hwhole.of_ok hL).exists_outcome
  have hp : Reachable (backends bits) Exhaustive.issued
      ({ L with replay := [refused, doubtful], passive := true }, t) :=
    .step (.step (.start built_sample closed_plain (Network.closed_ofScope sample .empty) hL)
      (.replay [refused, doubtful])) (.configure L.settings true)
  refine ⟨_, p', q', u', hp, ?_, hp', hasked, ?_, hq', hu', hone, hboth, hshort, hlong, hwithout,
    hwith⟩
  · rw [items, hstrategies]
    rfl
  · rw [items, hreplay, hleft]
    rfl

end Exhaustive

end Acquisition
