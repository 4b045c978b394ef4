import Acquisition.Effect
import Acquisition.Network

/-!
# Oracles

An oracle classifies queries. It may hold a network of its own, written in an
arena of its own, and accept what the network allows; it may accept the queries
with certain values; or it may have its answers lined up from the start. An
oracle keeps each query that it was asked together with the answer.
-/
namespace Acquisition

inductive Answer
  | accept
  | reject
  | unknown
deriving DecidableEq, Repr

namespace Answer

def name : Answer → String
  | accept => "Accept"
  | reject => "Reject"
  | unknown => "Unknown"

def ofBool (accepted : Bool) : Answer := if accepted then accept else reject

end Answer

/-- How queries are classified in a world with states of `σ`. -/
abbrev Oracle (σ : Type) := Query → Action σ Answer

/-- What an oracle goes by. -/
inductive Judgement
  /-- A query is accepted if every constraint of the network holds on it. -/
  | network (A : Arena) (N : Network)
  /-- A query is accepted if its values are listed. -/
  | values (accepted : List (List Value))
  /-- The answers in the order in which they are given. The last one is given
  again and again; without any, nothing is known. -/
  | answers (given : List Answer)

structure Respondent where
  judgement : Judgement
  /-- The queries asked so far with their answers. -/
  asked : List (Query × Answer) := []

namespace Respondent

/-- The answer to a query asked after `count` others. -/
def answer (count : Nat) (q : Query) : Judgement → Checked Answer
  | .network A N => .ofBool <$> N.check A q
  | .values accepted => .ok (.ofBool (accepted.contains q.values))
  | .answers given => .ok ((given[min count (given.length - 1)]?).getD .unknown)

def ask : Oracle Respondent := fun q => do
  let R ← get
  let a ← Action.ofChecked (answer R.asked.length q R.judgement)
  set { R with asked := R.asked ++ [(q, a)] }
  return a

end Respondent

end Acquisition
