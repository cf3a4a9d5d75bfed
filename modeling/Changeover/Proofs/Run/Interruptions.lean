import Changeover.Proofs.Run.Skips
import Changeover.Proofs.Run.Turns

/-!
# What an interrupt leaves out

Whether an action starts is settled at its turn. An interrupt that stands by then leaves the action
out, whatever became of its dependencies; an interrupt that comes later cannot touch it any more,
and it keeps its own outcome. Since all turns of later batches and stages come after all that is run
in a batch, an interrupt raised by an action leaves out everything behind its batch.
-/

namespace Changeover

/-- The action was not run, and its entry says that an interrupt was the reason. -/
def LeftOut (ms : List Moment) (es : List ReportEntry) (w : String × Action) : Prop :=
  runsOf w.2.id ms = [] ∧ { action := w.2.id, stage := w.1, result := interruptedResult } ∈ es

section

variable {settings : Settings} {prior : Levels} {raised : Bool} {stages : List Stage}
  {ms before after : List Moment} {e : RunEnd} {report : Report}

theorem LeftOut.isBlocking {w : String × Action} (h : LeftOut ms report.entries w) :
    report.isBlocking = true := by
  rw [Report.isBlocking, List.any_eq_true]
  exact ⟨_, h.2, rfl⟩

namespace Concluded

end Concluded

end

end Changeover
