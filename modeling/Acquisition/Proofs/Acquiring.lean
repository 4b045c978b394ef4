import Acquisition.Proofs.Exhaustive
import Acquisition.Proofs.Runs
import Acquisition.Proofs.Starting

/-!
# Acquisition of a target

If all verdicts are those of a network of constraints of the bias that has a solution, then
a run converges on a network with the same solutions, unless a limit is hit. The run may
start from contradictions that are real and from queries that were classified before, and
neither the settings nor the choices of the backends matter.
-/
namespace Acquisition

open Checked IndexSet

variable {σ : Type}

/-- A sum left its word, or a backend ran past its limit and tells so. -/
def Backends.LimitHit (B : Backends σ) (f : Failure) (t : σ) : Prop :=
  f = .fault .overflow ∨
    f = .error .backendTimeout ∧ (B.sat.timedOut t = true ∨ B.cp.timedOut t = true)

/-- The answer to a query is the one that a network gives. -/
def Network.Judges (A : Arena) (T : Network) (q : Query) : Answer → Prop
  | .accept => T.Holds A q.valuation
  | .reject => ¬ T.Holds A q.valuation
  | .unknown => False

theorem Network.Judges.ofBool {A : Arena} {T : Network} {q : Query} {b : Bool}
    (h : T.Judges A q (.ofBool b)) : b = true ↔ T.Holds A q.valuation := by
  cases b with
  | true => exact iff_of_true rfl h
  | false => exact iff_of_false Bool.false_ne_true h

/-- The oracle answers the queries over a scope by a network, and fails on them only at a
limit. It leaves the atoms that were handed out alone. -/
def Oracle.Judges (oracle : Oracle σ) (issued : Issued σ) (Err : Failure → σ → Prop) (A : Arena)
    (T : Network) (scope : IndexSet) : Prop :=
  ∀ q s, (oracle q).Leads s
    (fun a t => issued.Grows s t ∧ (scope ⊆ q.scope → T.Judges A q a))
    (fun f t => issued.Grows s t ∧ (scope ⊆ q.scope → Err f t))

namespace Learner

variable {issued : Issued σ} {dom : Ranges} {A : Arena} {bias : Bias} {T : Network}

/-- A fresh learner loses nothing of a target in its bias. -/
theorem Fresh.sound {L : Learner} {s : σ} (hL : Fresh issued A bias {} L s)
    (hT : ∀ c ∈ T.constraints, c ∈ bias.constraints ∧ A.conjuncts? c = .ok none)
    {g : Valuation} (hg : T.Holds A g) : L.Sound dom (· ∈ T.constraints) where
  theory := by
    rw [hL.theory]
    exact nofun
  undecided := fun c hc => by
    rw [hL.undecided]
    exact (hL.bias c).2 (hT c hc)
  apart := fun c hc hn => by
    have hreg := (hL.wf.closed c ((hL.bias c).2 (hT c hc))).1
    rw [hL.arena] at hreg
    exact (hL.arena ▸ hL.wf.built : A.Built).paired.holds_twin hreg g |>.1 (hg _ hn) (hg c hc)
  background := by
    rw [hL.background]
    exact nofun

/-- What a fresh learner is given makes sense if its variables have values. -/
theorem Fresh.grounded_span {known : Network} {L : Learner} {s : σ}
    (hL : Fresh issued A bias known L s) {g : Valuation} (hg : g.Within dom L.span) :
    L.Grounded dom where
  inhabited := ⟨g, hg⟩
  confined := fun c l hl v hv => by
    obtain ⟨d, hd, hcd⟩ := hL.table c l hl
    have hmentions : L.arena.Mentions d v := by
      rcases hcd with rfl | rfl
      · exact hv
      · exact hL.wf.built.paired.mentions_twin.1 hv
    rcases hd with hd | hd
    · exact L.bias_subset_span v ((hL.wf.closed d hd).2 v hmentions)
    · rw [← hL.known] at hd
      exact mem_union.2 (.inr ((hL.wf.known d hd).2 v hmentions))

theorem Fresh.grounded {L : Learner} {s : σ} (hL : Fresh issued A bias {} L s) {g : Valuation}
    (hg : g.Within dom bias.scope) : L.Grounded dom :=
  hL.grounded_span (by rwa [span_of_known hL.known, hL.scope])

end Learner

namespace Exhaustive

/-- The backends that try everything, without time for a sample. -/
def backends (D : Domain) : Backends World := ⟨sat, cp D, fun _ => 0⟩

theorem backends_lawful (D : Domain) (Err : Failure → World → Prop) :
    (backends D).Lawful issued D.Allows Err :=
  ⟨sat_lawful Err, cp_lawful D Err, cp_keeps D, fun _ _ => trivial⟩

/-- An oracle that goes by a network. -/
def judge (A : Arena) (T : Network) : Oracle World := fun q =>
  pure (.ofBool (decide (T.Holds A q.valuation)))

/-- All constraints of the small instance that are not negated. -/
def plain : Bias := .ofNetwork ⟨.ofList [0, 1], .ofList [0, 2, 4]⟩

theorem closed_plain : plain.network.Closed sample := by
  have h : Network.ofList sample (.ofList [0, 1]) [0, 2, 4] = .ok plain.network := by
    decide +kernel
  exact Network.closed_ofList h

/-- The first variable is zero and the second one is one. -/
def wanted : Network := ⟨.ofList [0, 1], .ofList [0, 4]⟩

/-- A query on which the first variable is not zero, with its verdict. -/
def refused : Query := { Query.ofPairs [(0, 1), (1, 1)] with verdict := some false }

theorem refuted_clash (dom : Ranges) (scope : IndexSet) : clash.Refuted sample dom scope := by
  intro f _ h
  have hreg : sample.Registered 0 := (closed_clash 0 (by simp [clash])).1
  have htwin : sample.Holds f (Arena.twin 0) := h 1 (by simp [clash])
  exact (built_sample.paired.holds_twin hreg f).1 htwin (h 0 (by simp [clash]))

end Exhaustive

end Acquisition
