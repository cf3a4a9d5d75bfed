import Changeover.Finding

/-!
# Reports

A report lists the outcome of every action of one run, or of several runs put together, in the
order the outcomes came in. Times are given from outside; nothing here reads a clock.
-/

namespace Changeover

structure ReportEntry where
  action : String
  stage : String
  result : Result
  messages : List Message := []
  milliseconds : Nat := 0
  deriving DecidableEq, Inhabited

/-- What ended how. Times are in seconds since the start of 1970, UTC. -/
structure Report where
  run : String
  allowOverridable : Bool
  started : Int := 0
  completed : Option Int := none
  entries : List ReportEntry := []
  deriving DecidableEq, Inhabited

namespace Report

def push (r : Report) (e : ReportEntry) : Report := { r with entries := r.entries ++ [e] }

def extend (r later : Report) : Report :=
  { r with
    entries := r.entries ++ later.entries
    completed := later.completed.or r.completed }

/-- The first entry of an action. -/
def entry? (r : Report) (action : String) : Option ReportEntry :=
  r.entries.find? (·.action == action)

def blockingEntries (r : Report) : List ReportEntry :=
  r.entries.filter (·.result.level.isBlocking r.allowOverridable)

def isBlocking (r : Report) : Bool := r.entries.any (·.result.level.isBlocking r.allowOverridable)

def blockingActions (r : Report) : List String := r.blockingEntries.map (·.action)

def levelsOf (e : ReportEntry) : List Level := e.result.level :: e.messages.map (·.level)

def maxLevel (r : Report) : Level := (r.entries.flatMap levelsOf).foldl max .success

end Report

end Changeover
