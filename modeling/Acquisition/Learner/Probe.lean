import Acquisition.Learner.State

/-!
# Probing

When every clause of the theory is a single literal, what is left is to find the
undecided constraints that follow from what is learnt.

First, as long as there is time for it, witnesses of the learnt and known
constraints are drawn, up to one that violates an undecided constraint. Then each
undecided constraint is probed: a witness of what is learnt on which the
constraint fails is an informative query, and if there is none the constraint is
implied, and is learnt.
-/
namespace Acquisition.Learner

variable {σ : Type}

/-- A witness of a network, counted as a call. -/
def witness (cp : CpBackend σ) (N : Network) : Procedure Learner σ (Option Query) := do
  count fun k => { k with cpCalls := k.cpCalls + 1 }
  Procedure.callWith fun L => cp.witness L.arena N

/-- Draws witnesses up to one that violates an undecided constraint that is not
ruled out, as long as there are any and there is time. -/
def sample (cp : CpBackend σ) (learned : Network) (ruledOut : IndexSet) :
    Nat → Procedure Learner σ (Option Query)
  | 0 => return none
  | draws + 1 => do
    poll
    match ← witness cp learned with
    | none => return none
    | some q => do
      let kappa ← Procedure.check fun L => L.undecided.kappa L.arena q
      if (kappa.diff ruledOut).isEmpty then sample cp learned ruledOut draws else return some q

/-- Probes each of the given constraints, up to one that fails on some witness. -/
def probe (cp : CpBackend σ) : Network → List ConstraintId → Procedure Learner σ (Option Query)
  | _, [] => return none
  | learned, c :: cs => do
    poll
    let n ← negation c
    let extended ← Procedure.check fun L => learned.add L.arena n
    match ← witness cp extended with
    | some q => return some q
    | none => do
      let l ← literal c
      Procedure.update fun L => { L with theory := L.theory.adding (.ofLiteral l) }
      probe cp (if learned.contains n then extended else extended.remove n) cs

/-- An informative query over a theory of single literals, if there is one. -/
def probeQuery (B : Backends σ) : Procedure Learner σ (Option Query) := do
  let positives ← Procedure.check (·.theory.positives)
  let learned ← Procedure.check fun L =>
    (·.union L.known) <$> Network.ofList L.arena L.bias.scope positives
  let ruledOut := IndexSet.ofList (← Procedure.check (·.theory.negatives))
  let budget := (← Procedure.own).settings.samplingBudget.value
  if budget ≠ .zero && !(Limit.after budget).isPassed then
    let draws ← Procedure.call (B.draws <$> get)
    if let some q ← sample B.cp learned ruledOut draws then return some q
  probe B.cp learned ((← Procedure.own).undecided.toList.filter (!learned.contains ·))

end Acquisition.Learner
