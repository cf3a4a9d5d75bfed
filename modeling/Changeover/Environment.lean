/-!
# Environment variables
-/

namespace Changeover

/-- Variables with their values; the first of a name counts. -/
structure Environment where
  bindings : List (String × String) := []
  deriving DecidableEq, Inhabited

namespace Environment

def get? (e : Environment) (name : String) : Option String := e.bindings.lookup name

/-- The home directory; where none is told, the superuser's. -/
def home (e : Environment) : String :=
  match e.get? "HOME" with
  | some h => if h.isEmpty then "/root" else h
  | none => "/root"

end Environment

end Changeover
