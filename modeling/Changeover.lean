import Changeover.Main
import Changeover.Rehearsal.Step
import Changeover.Proofs.Undo.Watched
import Changeover.Proofs.Run.Complete
import Changeover.Proofs.Files.Saving
import Changeover.Proofs.Rollback.Saves
import Changeover.Proofs.Run.Conversions
import Changeover.Proofs.Run.Conditions
import Changeover.Proofs.Files.Below
import Changeover.Proofs.Rollback.Debts
import Changeover.Proofs.Rollback.Installed
import Changeover.Proofs.Rollback.Catalog
import Changeover.Proofs.Rollback.Complete
import Changeover.Proofs.Conversion.Errors
import Changeover.Proofs.Conversion.Success
import Changeover.Proofs.Plan.Acyclic
import Changeover.Proofs.Plan.Resolvable
import Changeover.Proofs.Conversion.Foreseen
import Changeover.Proofs.Run.Modes
import Changeover.Proofs.Run.Isolation
import Changeover.Proofs.Rollback.Locks
import Changeover.Proofs.Rollback.Orders
import Changeover.Proofs.Conversion.Orders
import Changeover.Proofs.Conversion.Interrupts
import Changeover.Proofs.Conversion.Statuses
import Changeover.Proofs.Lock.Exclusion
import Changeover.Proofs.Run.Allowances
import Changeover.Proofs.Run.Turns
import Changeover.Proofs.Files.Directories
import Changeover.Proofs.Lock.File
import Changeover.Proofs.Lock.Draft
import Changeover.Proofs.Lock.Handling
import Changeover.Proofs.Run.Interruptions
import Changeover.Proofs.Undo.Phases
import Changeover.Proofs.Run.Pushes
import Changeover.Proofs.Rollback.PackageSets
import Changeover.Proofs.Plan.Canonical
import Changeover.Proofs.Plan.Cycles
import Changeover.Proofs.Run.Parallel
import Changeover.Proofs.Run.Narration
import Changeover.Proofs.Run.Causes
import Changeover.Proofs.Conversion.Outcomes
import Changeover.Proofs.Undo.Views
import Changeover.Proofs.Undo.Unwinding
import Changeover.Proofs.Undo.Scopes
import Changeover.Proofs.Undo.Lives
import Changeover.Proofs.Files.Returns
import Changeover.Proofs.Change.Stages
import Changeover.Proofs.Report.Grouping
import Changeover.Proofs.Json.RoundTrip
import Changeover.Proofs.Mounts.Table
import Changeover.Proofs.Plan.Depths
import Changeover.Proofs.Conversion.Confined
import Changeover.Proofs.Files.Spellings
