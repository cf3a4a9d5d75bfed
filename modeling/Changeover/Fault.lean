/-!
# Faults

Something unexpected goes wrong in two ways: an operation returns a fault, which is a text with
the texts of its causes, or it panics, which leaves at most one text. Expected trouble is a
finding, not a fault.
-/

namespace Changeover

/-- A failure: its own text, then the texts of its causes down to the root. -/
structure Fault where
  text : String
  causes : List String := []
  deriving DecidableEq, Inhabited

namespace Fault

def texts (f : Fault) : List String := f.text :: f.causes

def full (f : Fault) : String := ": ".intercalate f.texts

def within (f : Fault) (task : String) : Fault := ⟨task, f.texts⟩

end Fault

inductive Stop (ε : Type) where
  | failed (e : ε)
  | panicked (text : Option String)
  deriving Inhabited

namespace Stop

/-- What is reported of a panic; some leave no text. -/
def panicText (text : Option String) : String := text.getD "unknown panic payload"

def report : Stop Fault → String
  | .failed f => f.full
  | .panicked t => panicText t

def map {ε ε' : Type} (g : ε → ε') : Stop ε → Stop ε'
  | .failed e => .failed (g e)
  | .panicked t => .panicked t

end Stop

end Changeover
