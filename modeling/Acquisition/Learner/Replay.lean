import Acquisition.Learner.Answer
import Acquisition.Learner.Probe

/-!
# Learning before any query is generated

Queries set for replay are learnt from in order, and only those without a verdict
are put to the oracle. Then a witness of each strategy network, together with
what is known, is put to the oracle; a strategy without a witness is passed over.

Clauses are added in place of those that they subsume. A rejected query whose
kappa is that of an earlier rejected query adds nothing, and is only noted.
-/
namespace Acquisition.Learner

variable {σ : Type}

/-- Whether some query rejected before has the kappa of a rejected query. -/
def isRepeated (L : Learner) (q : Query) : Checked Bool := do
  let kappa ← L.undecided.kappa L.arena q
  if kappa.isEmpty then return false
  L.rejected.anyM fun earlier => return (← L.undecided.kappa L.arena earlier) == kappa

/-- Learns from a classified query, unless it is rejected and repeats another. -/
def learnEarly (q : Query) : Procedure Learner σ Learnt := do
  if q.isNegative then
    if ← Procedure.check (·.isRepeated q) then
      noteAsked q
      return .consistent
  learn q true

/-- Learns from replayed queries, up to a collapse. -/
def learnReplayed (oracle : Oracle σ) : List Query → Procedure Learner σ Learnt
  | [] => return .consistent
  | q :: rest => do
    poll
    let classified ←
      if q.isClassified then do
        count fun k => { k with queries := k.queries + 1 }
        pure q
      else classify oracle q
    if (← learnEarly classified) = .collapse then return .collapse
    learnReplayed oracle rest

/-- Learns from witnesses of strategies, up to a collapse. -/
def learnStrategies (cp : CpBackend σ) (oracle : Oracle σ) :
    List Network → Procedure Learner σ Learnt
  | [] => return .consistent
  | strategy :: rest => do
    poll
    let known := (← Procedure.own).known
    match ← witness cp (strategy.union known) with
    | none => learnStrategies cp oracle rest
    | some q => do
      let classified ← classify oracle q
      if (← learnEarly classified) = .collapse then return .collapse
      learnStrategies cp oracle rest

/-- Learns from what is set for replay and then from the strategies. Either list is
taken from the learner before the first of its items is learnt from. -/
def preprocess (cp : CpBackend σ) (oracle : Oracle σ) : Procedure Learner σ Learnt := do
  let replay := (← Procedure.own).replay
  Procedure.update ({ · with replay := [] })
  if (← learnReplayed oracle replay) = .collapse then return .collapse
  let strategies := (← Procedure.own).strategies
  Procedure.update ({ · with strategies := [] })
  learnStrategies cp oracle strategies

end Acquisition.Learner
