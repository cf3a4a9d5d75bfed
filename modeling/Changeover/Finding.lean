import Changeover.Level
import Changeover.Dictionary

/-!
# Findings, results and messages

A finding says what is wrong and what to do about it. Together with a level it is either the
result of an action, of which there is one, or a message beside it, of which there may be many.
-/

namespace Changeover

structure Finding where
  id : String := ""
  title : String := ""
  description : String := ""
  diagnosis : String := ""
  remediations : String := ""
  values : Dictionary String := .empty
  deriving DecidableEq, Inhabited

def Finding.headline (f : Finding) : String := f.title ++ ": " ++ f.description

structure Result where
  level : Level
  finding : Finding := {}
  deriving DecidableEq, Inhabited

/-- An advisory note of an action; it decides nothing. -/
structure Message where
  level : Level
  finding : Finding := {}
  deriving DecidableEq, Inhabited

def Result.success : Result := { level := .success }

def Result.toMessage (r : Result) : Message := ⟨r.level, r.finding⟩

def Message.toResult (m : Message) : Result := ⟨m.level, m.finding⟩

end Changeover
