import Acquisition.Proofs.Abreast
import Acquisition.Proofs.Rules

/-!
# Learning by a script

What is learnt before any query is generated hangs on the items that are gone through, on the
answers and on the witnesses that are given. These are written down in a script. In the world
of a script the oracle and the constraint backend give what comes next in it, whatever they are
asked about.

Whoever learns in some world with a log of what was given comes to the same by the script of
that log. If learning fails at some item, it comes to the same as far as the items before it.
-/
namespace Acquisition

/-- Answers and witnesses in the order in which they are given. -/
structure Script where
  answers : List Answer := []
  witnesses : List (Option Query) := []
deriving DecidableEq

namespace Script

instance : Append Script := ⟨fun G H => ⟨G.answers ++ H.answers, G.witnesses ++ H.witnesses⟩⟩

theorem append_def (G H : Script) :
    G ++ H = ⟨G.answers ++ H.answers, G.witnesses ++ H.witnesses⟩ := rfl

@[simp] theorem append_nil (G : Script) : G ++ ({} : Script) = G := by
  simp [append_def]

theorem append_cancel {G H I : Script} (h : G ++ H = G ++ I) : H = I := by
  obtain ⟨hanswers, hwitnesses⟩ := mk.inj h
  rw [show H = ⟨H.answers, H.witnesses⟩ from rfl, List.append_cancel_left hanswers,
    List.append_cancel_left hwitnesses]

theorem append_cancel_right {G H I : Script} (h : G ++ I = H ++ I) : G = H := by
  obtain ⟨hanswers, hwitnesses⟩ := mk.inj h
  rw [show G = ⟨G.answers, G.witnesses⟩ from rfl, List.append_cancel_right hanswers,
    List.append_cancel_right hwitnesses]

theorem append_assoc (G H I : Script) : G ++ H ++ I = G ++ (H ++ I) := by
  simp [append_def]

/-- The oracle that gives the answers of the script, and knows nothing once there are none. -/
def oracle : Oracle Script := fun _ => do
  match (← get).answers with
  | [] => return .unknown
  | a :: rest => do
    modify ({ · with answers := rest })
    return a

/-- The constraint backend that gives the witnesses of the script. -/
def cp : CpBackend Script where
  witness := fun _ _ => do
    match (← get).witnesses with
    | [] => return none
    | q :: rest => do
      modify ({ · with witnesses := rest })
      return q
  setLimit := fun _ => pure ()
  timedOut := fun _ => false

end Script

/-- A world keeps a log of the answers and witnesses that are given in it, and to set limits
leaves the log as it is. -/
structure Transcribes {σ : Type} (log : σ → Script) (B : Backends σ) (oracle : Oracle σ) :
    Prop where
  oracle : ∀ q s, (oracle q).Leads s (fun a t => log t = log s ++ ⟨[a], []⟩)
    fun _ t => log t = log s
  witness : ∀ A N s, (B.cp.witness A N).Leads s (fun r t => log t = log s ++ ⟨[], [r]⟩)
    fun _ t => log t = log s
  sat : ∀ l s, (B.sat.setLimit l).Leads s (fun _ t => log t = log s) fun _ t => log t = log s
  cp : ∀ l s, (B.cp.setLimit l).Leads s (fun _ t => log t = log s) fun _ t => log t = log s

namespace Learner

open Procedure

variable {σ α β : Type} {issued : Issued σ} {s : σ} {log : σ → Script} {L L' L'' : Learner}
  {G H : Script} {a : α} {b : β}

/-! ### What comes of a script -/

/-- By a script that starts with `G` the procedure comes to `a` and to what `L'` knows, if it
starts from what `L` knows and is not pressed for time. It uses up just `G`. -/
def Mirrors (x : Procedure Learner Script α) (L : Learner) (G : Script) (a : α) (L' : Learner) :
    Prop :=
  ∀ K R, L.Abreast K → K.deadline = .unbounded → ∃ K',
    Action.outcome x (K, G ++ R) = (.ok a, (K', R)) ∧ L'.Abreast K' ∧ K'.deadline = .unbounded

theorem Mirrors.bind {x : Procedure Learner Script α} {f : α → Procedure Learner Script β}
    (hx : Mirrors x L G a L') (hf : Mirrors (f a) L' H b L'') :
    Mirrors (x >>= f) L (G ++ H) b L'' := by
  intro K R hK hdeadline
  rw [Script.append_assoc]
  obtain ⟨K', houtcome, hK', hdeadline'⟩ := hx K (H ++ R) hK hdeadline
  rw [Action.outcome_bind, houtcome]
  exact hf K' R hK' hdeadline'

theorem Mirrors.bind_silent {x : Procedure Learner Script α} {f : α → Procedure Learner Script β}
    (hx : Mirrors x L G a L') (hf : Mirrors (f a) L' {} b L'') : Mirrors (x >>= f) L G b L'' := by
  have h := hx.bind hf
  rwa [Script.append_nil] at h

theorem mirrors_pure (a : α) (hL : L.Abreast L') :
    Mirrors (pure a : Procedure Learner Script α) L {} a L' :=
  fun K _ hK hdeadline => ⟨K, rfl, hL.symm.trans hK, hdeadline⟩

theorem Mirrors.congr {K : Learner} {x : Procedure Learner Script α} (h : Mirrors x L G a L')
    (hL : L.Abreast K) : Mirrors x K G a L' :=
  fun M R hM => h M R (hL.trans hM)

/-- Of two scripts that start one script the procedure comes to the same by both, for they are one
and the same. -/
theorem Mirrors.unique {x : Procedure Learner Script α} {a' : α} {K K' : Learner} {R S : Script}
    (h : Mirrors x L G a L') (h' : Mirrors x K H a' K') (hL : L.Abreast K)
    (hsame : G ++ R = H ++ S) : a' = a ∧ H = G ∧ L'.Abreast K' := by
  obtain ⟨M, hM, hL', -⟩ := h { L with deadline := .unbounded } R ⟨rfl, rfl, rfl, rfl, rfl, rfl⟩ rfl
  obtain ⟨M', hM', hK', -⟩ := (h'.congr hL.symm) { L with deadline := .unbounded } S
    ⟨rfl, rfl, rfl, rfl, rfl, rfl⟩ rfl
  rw [hsame] at hM
  obtain ⟨hr, hstate⟩ := Prod.mk.inj (hM.symm.trans hM')
  obtain ⟨rfl, rfl⟩ := Prod.mk.inj hstate
  cases hr
  exact ⟨rfl, (Script.append_cancel_right hsame).symm, hL'.trans hK'.symm⟩

theorem mirrors_poll (L : Learner) : Mirrors poll L {} () L := by
  intro K R hK hdeadline
  refine ⟨K, ?_, hK, hdeadline⟩
  change Action.outcome (Procedure.call (K.deadline.poll)) (K, R) = _
  rw [hdeadline]
  rfl

theorem Mirrors.after_poll {x : Procedure Learner Script α} (h : Mirrors x L G a L') :
    Mirrors (do poll; x) L G a L' := (mirrors_poll L).bind h

/-- What concurs with a procedure does as it does, and neither calls out to its world. -/
theorem Concur.mirrors {x : Procedure Learner σ α} {y : Procedure Learner Script α}
    (h : Concur x y) (hkeeps : ∀ l, Keeps (Rests (·.deadline = l)) y) {p : Learner × σ}
    (hx : Action.outcome x (L, s) = (.ok a, p)) : p.2 = s ∧ Mirrors y L {} a p.1 := by
  constructor
  · obtain ⟨r, L', K', hL', -⟩ := h L L s {} (.refl L)
    exact congrArg (·.2.2) (hx.symm.trans hL')
  · intro K R hK hdeadline
    obtain ⟨r, L', K', hL', hK', habreast⟩ := h L K s R hK
    obtain ⟨rfl, rfl⟩ := Prod.mk.inj (hx.symm.trans hL')
    have hrests := (hkeeps .unbounded (K, R) hdeadline).of_ok hK'
    exact ⟨K', hK', habreast, hrests⟩

/-! ### What comes of a world -/

/-- The learner knows what it knew, and no atom was lost. Meanwhile something of `P` was given. -/
structure Receives (issued : Issued σ) (log : σ → Script) (L : Learner) (s : σ)
    (P : Script → Prop) (p : Learner × σ) : Prop where
  alike : L.Alike p.1
  asked : p.1.asked = L.asked
  grows : issued.Grows s p.2
  gained : ∃ G, log p.2 = log s ++ G ∧ P G

theorem Receives.abreast {P : Script → Prop} {p : Learner × σ}
    (h : Receives issued log L s P p) : L.Abreast p.1 :=
  ⟨h.alike.arena, h.alike.atoms, h.alike.known, h.alike.undecided, h.alike.theory, h.asked⟩

theorem receives_counters {P : Script → Prop} {t : σ} (k : Counters) (ht : issued.Grows s t)
    (hgained : ∃ G, log t = log s ++ G ∧ P G) :
    Receives issued log L s P ({ L with counters := k }, t) :=
  ⟨L.alike_counters k, rfl, ht, hgained⟩

theorem Receives.trans {P Q R : Script → Prop} {p p' : Learner × σ}
    (h : Receives issued log L s P p) (h' : Receives issued log p.1 p.2 Q p')
    (hR : ∀ G H, P G → Q H → R (G ++ H)) : Receives issued log L s R p' where
  alike := h.alike.trans h'.alike
  asked := h'.asked.trans h.asked
  grows := h.grows.trans h'.grows
  gained := by
    obtain ⟨G, hG, hP⟩ := h.gained
    obtain ⟨H, hH, hQ⟩ := h'.gained
    exact ⟨G ++ H, by rw [hH, hG, Script.append_assoc], hR G H hP hQ⟩

/-- The procedures learn nothing. What the first comes to in its world, the second comes to by
what was given there. -/
def Tracks (issued : Issued σ) (log : σ → Script) (x : Procedure Learner σ α)
    (y : Procedure Learner Script α) : Prop :=
  ∀ L s, Action.Leads x (L, s)
    (fun a p => Receives issued log L s (fun G => Mirrors y L G a p.1) p)
    fun _ p => Receives issued log L s (fun _ => True) p

theorem tracks_pure (a : α) : Tracks issued log (pure a) (pure a) := fun L s =>
  receives_counters L.counters (.refl issued s)
    ⟨{}, (Script.append_nil _).symm, mirrors_pure a (.refl L)⟩

theorem tracks_ofForeseen (r : Except ErrorKind α) :
    Tracks issued log (Action.ofForeseen r) (Action.ofForeseen r) := by
  cases r with
  | ok a => exact tracks_pure a
  | error e =>
    exact fun L s => receives_counters L.counters (.refl issued s)
      ⟨{}, (Script.append_nil _).symm, trivial⟩

theorem Tracks.bind {x : Procedure Learner σ α} {y : Procedure Learner Script α}
    {f : α → Procedure Learner σ β} {g : α → Procedure Learner Script β}
    (hx : Tracks issued log x y) (hf : ∀ a, Tracks issued log (f a) (g a)) :
    Tracks issued log (x >>= f) (y >>= g) := by
  intro L s
  rw [Action.leads_bind]
  apply (hx L s).mono _ fun _ _ h => h
  rintro a ⟨L', t⟩ h
  apply (hf a L' t).mono
  · exact fun b p h' => h.trans h' fun G H hG hH => hG.bind hH
  · exact fun f p h' => h.trans h' fun G H _ _ => trivial

theorem tracks_count (f : Counters → Counters) :
    Tracks issued log (count f : Procedure Learner σ Unit) (count f) := by
  intro L s
  rw [leads_count]
  refine receives_counters _ (.refl issued s) ⟨{}, (Script.append_nil _).symm, ?_⟩
  exact fun K R hK hdeadline => ⟨{ K with counters := f K.counters }, rfl,
    ⟨hK.arena, hK.atoms, hK.known, hK.undecided, hK.theory, hK.asked⟩, hdeadline⟩

section World

variable {B : Backends σ} {oracle : Oracle σ} (hlog : Transcribes log B oracle)
include hlog

theorem tracks_classify (horacle : oracle.Keeps issued) (q : Query) :
    Tracks issued log (classify oracle q) (classify Script.oracle q) := by
  have hask : Tracks issued log (call (oracle q)) (call (Script.oracle q)) := by
    intro L s
    rw [leads_call]
    apply ((hlog.oracle q s).and (horacle q s)).mono
    · rintro a t ⟨hgained, hgrows⟩
      refine receives_counters L.counters hgrows ⟨_, hgained, ?_⟩
      exact fun K R hK hdeadline => ⟨K, rfl, hK, hdeadline⟩
    · rintro f t ⟨hsame, hgrows⟩
      exact receives_counters L.counters hgrows
        ⟨{}, hsame.trans (Script.append_nil _).symm, trivial⟩
  rw [classify, classify]
  apply (tracks_count _).bind
  intro _
  apply hask.bind
  intro a
  cases a with
  | accept => exact tracks_ofForeseen _
  | reject => exact tracks_ofForeseen _
  | unknown => exact tracks_ofForeseen (.error .oracleUnknown)

/-- A witness of a network together with what is known. -/
theorem tracks_witness (hk : B.cp.Keeps issued) (N : Network) :
    Tracks issued log (do witness B.cp (N.union (← own).known))
      (do witness Script.cp (N.union (← own).known)) := by
  intro L s
  rw [Action.leads_bind, leads_own, witness, Action.leads_bind, leads_count]
  change Action.Leads (call (B.cp.witness L.arena (N.union L.known))) _ _ _
  rw [leads_call]
  apply ((hlog.witness _ _ s).and (hk.witness _ _ s)).mono
  · rintro r t ⟨hgained, hgrows⟩
    refine receives_counters _ hgrows ⟨_, hgained, ?_⟩
    intro K R hK hdeadline
    refine ⟨{ K with counters := { K.counters with cpCalls := K.counters.cpCalls + 1 } }, rfl, ?_,
      hdeadline⟩
    exact ⟨hK.arena, hK.atoms, hK.known, hK.undecided, hK.theory, hK.asked⟩
  · rintro f t ⟨hsame, hgrows⟩
    exact receives_counters _ hgrows ⟨{}, hsame.trans (Script.append_nil _).symm, trivial⟩

end World

end Learner

end Acquisition
