import Changeover.Level

/-!
# Events of a run

What a run makes known while it goes on, in the order in which it happens. The first field is the
id of the run.
-/

namespace Changeover

inductive Event where
  | started (run : String)
  | stageStarted (run stage : String) (actions : Nat)
  | actionStarted (run action : String)
  | actionFinished (run action : String) (level : Level)
  | actionSkipped (run action : String) (blockedBy : List String)
  | rollbackStarted (run : String)
  | rollbackCompleted (run : String) (restored failures : Nat)
  | completed (run : String) (blocking : Bool)
  | failed (run error : String)
  deriving DecidableEq

namespace Event

def action? : Event → Option String
  | .actionStarted _ a | .actionFinished _ a _ | .actionSkipped _ a _ => some a
  | _ => none

end Event

end Changeover
