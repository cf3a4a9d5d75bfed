import Changeover.Environment
import Changeover.Files.System
import Changeover.Fault

/-!
# The host

Everything a conversion can change or look at: the file system, the environment, a package database
kept in memory with the calls made to it, the lines noted by rehearsed actions, and whether the
operator has asked to stop. An interrupt is never taken back; see `Host.noteInterrupt`.
-/

namespace Changeover

/-- Installed packages and the calls that were made, oldest first. -/
structure Ledger where
  installed : List String := []
  calls : List String := []
  deriving DecidableEq, Inhabited

namespace Ledger

def record (l : Ledger) (call : String) : Ledger := { l with calls := l.calls ++ [call] }

def add (l : Ledger) (packages : List String) : Ledger :=
  let insert (ps : List String) (p : String) : List String :=
    if ps.contains p then ps else ps ++ [p]
  { l with installed := packages.foldl insert l.installed }

def drop (l : Ledger) (packages : List String) : Ledger :=
  { l with installed := l.installed.filter (!packages.contains ·) }

end Ledger

structure Host where
  files : FileSystem := {}
  environment : Environment := {}
  packages : Ledger := {}
  journal : List String := []
  interrupted : Bool := false
  deriving Inhabited

namespace Host

def note (h : Host) (line : String) : Host := { h with journal := h.journal ++ [line] }

/-- The host after some work, where an interrupt raised before the work still stands. -/
def noteInterrupt (before after : Host) : Host :=
  { after with interrupted := before.interrupted || after.interrupted }

end Host

end Changeover
