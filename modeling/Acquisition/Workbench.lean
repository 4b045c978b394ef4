import Acquisition.Concept
import Acquisition.Sat.Dpll
import Acquisition.Subsets.Dualization
import Acquisition.Witness.Search

/-!
# The workbench

The backends of this library and an oracle, side by side in one world, with a
log of the calls made to the backends. The constraint backend may be given a
number of calls after which it times out.
-/
namespace Acquisition

-- Powers are those of the core language, also where others are in scope.
attribute [local instance (high)] instPowNat

structure Workbench where
  sat : Sat.Dpll := {}
  cp : Witness.Searcher
  oracle : Respondent := { judgement := .answers [] }
  /-- The calls of the constraint backend that are left, if they are counted. -/
  callsLeft : Option Nat := none
  /-- The calls made so far, the last one first. -/
  log : List Call := []

namespace Workbench

def note (call : Call) (W : Workbench) : Workbench := { W with log := call :: W.log }

def spend (W : Workbench) : Workbench := { W with callsLeft := W.callsLeft.map (· - 1) }

/-- The propositional backend. Each call is logged. -/
def satBackend : SatBackend Workbench :=
  let on {α : Type} (x : Action Sat.Dpll α) : Action Workbench α :=
    x.zoom (·.sat) (fun D W => { W with sat := D })
  SatBackend.traced
    { allocate := fun c name => on (Sat.Dpll.backend.allocate c name)
      solve := fun F => on (Sat.Dpll.backend.solve F)
      setLimit := fun l => on (Sat.Dpll.backend.setLimit l)
      timedOut := (·.sat.timedOut) }
    note

/-- The constraint backend. Each call that reaches it is logged. -/
def cpBackend : CpBackend Workbench :=
  let on {α : Type} (x : Action Witness.Searcher α) : Action Workbench α :=
    x.zoom (·.cp) (fun S W => { W with cp := S })
  CpBackend.limited
    (CpBackend.traced
      { witness := fun A N => on (Witness.Searcher.backend.witness A N)
        setLimit := fun l => on (Witness.Searcher.backend.setLimit l)
        timedOut := (·.cp.timedOut) }
      note)
    (·.callsLeft) spend

/-- The backends, with time for as many draws as are ever made. -/
def backends : Backends Workbench := ⟨satBackend, cpBackend, fun _ => 10 ^ (9 : Nat)⟩

def ask : Oracle Workbench := fun q =>
  (Respondent.ask q).zoom (·.oracle) (fun R W => { W with oracle := R })

end Workbench

end Acquisition
