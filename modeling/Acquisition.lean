import Acquisition.Workbench
import Acquisition.Proofs.MapSearch
import Acquisition.Proofs.Dualization
import Acquisition.Proofs.Informing
import Acquisition.Proofs.MinimalConflict
import Acquisition.Proofs.VersionSpace
import Acquisition.Proofs.KnownConstraints
import Acquisition.Proofs.Simplification
import Acquisition.Proofs.Backtracking
import Acquisition.Proofs.Optimality
import Acquisition.Proofs.Concepts
import Acquisition.Proofs.Ending
import Acquisition.Proofs.Reordering
import Acquisition.Proofs.Generation
import Acquisition.Proofs.Operations
import Acquisition.Proofs.Sessions
import Acquisition.Proofs.Collapses
import Acquisition.Proofs.Registrations
import Acquisition.IndexSet.Commands
import Acquisition.Proofs.Words
import Acquisition.Proofs.Refinement
import Acquisition.Proofs.Fixpoint
import Acquisition.Proofs.Confluence
import Acquisition.Proofs.PartialQueries
import Acquisition.Proofs.Witnesses
import Acquisition.Proofs.Redundancy
import Acquisition.Proofs.Objectives
import Acquisition.Proofs.Resuming
import Acquisition.Proofs.Upkeep
import Acquisition.Proofs.Implications
import Acquisition.Proofs.Repeating
import Acquisition.Proofs.Leftovers
import Acquisition.Proofs.Columns
import Acquisition.Proofs.Counting
import Acquisition.Proofs.SmtLib
import Acquisition.Proofs.Retrying
import Acquisition.Proofs.Rotation
import Acquisition.Proofs.Noting
