import Changeover.Finding
import Changeover.Fault

/-!
# What an action has reported so far

An action reports one result and any number of messages. The result is set once, and the level
`skip` is kept for actions that never ran.
-/

namespace Changeover

structure Tracker where
  result : Option Result := none
  messages : List Message := []
  unreserved : ∀ r ∈ result, r.level ≠ .skip := by rintro _ ⟨⟩
  deriving DecidableEq, Inhabited

inductive TrackerError where
  | alreadySet (action : String)
  | reservedLevel (action : String) (level : Level)
  deriving DecidableEq

def TrackerError.message : TrackerError → String
  | .alreadySet action => s!"Result for action {action} was already set"
  | .reservedLevel action level => s!"Actions may not report level {level.name} (action {action})"

def TrackerError.toFault (e : TrackerError) : Fault := ⟨e.message, []⟩

namespace Tracker

/-- Record the result of the action called `action`. A reserved level is refused first. -/
def setResult (t : Tracker) (action : String) (r : Result) : Except TrackerError Tracker :=
  if h : r.level = .skip then .error (.reservedLevel action r.level)
  else if t.result.isSome then .error (.alreadySet action)
  else .ok { t with result := some r, unreserved := by simpa using h }

def addMessage (t : Tracker) (m : Message) : Tracker :=
  { t with messages := t.messages ++ [m] }

end Tracker

end Changeover
