import Changeover.Fault

/-!
# The life of a change

Every change is pending, then enabled, then restored. It never goes back.
-/

namespace Changeover

inductive Lifecycle where
  | pending
  | enabled
  | restored
  deriving DecidableEq, Inhabited

namespace Lifecycle

def rank : Lifecycle → Nat
  | .pending => 0
  | .enabled => 1
  | .restored => 2

def alreadyRestored (change : String) : Fault :=
  ⟨s!"{change} was already restored and cannot be enabled again", []⟩

end Lifecycle

end Changeover
