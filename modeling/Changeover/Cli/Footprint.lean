import Changeover.Cli

/-!
# What a command touches

The files that a command looks at or changes, so that only these need be read before it runs; and
what it changed, so that only that need be written afterwards.
-/

namespace Changeover

namespace Path

/-- The names that a path leads through, from a directory on, as far as names tell. -/
def locationFrom (directory : Location) (p : Path) : Location :=
  p.components.foldl
    (fun l c => match c with
      | .root => []
      | .here => l
      | .up => l.dropLast
      | .name s => l ++ [s]) directory

end Path

namespace Location

def text (l : Location) : String := "/" ++ "/".intercalate l

def way (l : Location) : List Location := (List.range l.length).map fun n => l.take (n + 1)

end Location

namespace Cli

def pathsTouched (c : Config) : List Path :=
  let lock := c.lockDirectory.join ⟨"crossgrade.pid"⟩
  let programs := [c.manager.command, c.manager.rpm].map Path.mk
  [⟨"/proc/mounts"⟩, ⟨VersionLocks.listPath⟩, lock] ++ releaseFiles ++ c.backupFiles ++
    c.createdFiles ++ programs

def directoriesTouched (c : Config) : List Path :=
  [c.backupDirectory, c.workDirectory, c.reportDirectory]

def isYes (line : String) : Bool := ["y", "yes"].contains (Text.trim line).toLower

def question : String :=
  "The system is ready for conversion. Changes made from now on cannot be rolled back. " ++
    "Continue? [y/N] "

end Cli

namespace FileTree

/-- Locations of the one tree where the other tree has nothing, the deepest first. -/
def gone (before after : FileTree) : List Location :=
  let ls := (before.entries.map (·.1)).filter fun l => (after.node? l).isNone
  ls.mergeSort fun l m => decide (m.length ≤ l.length)

/-- What is new or different in a tree, directories before what is in them. -/
def fresh (before after : FileTree) : List (Location × Node) :=
  let es := after.entries.filter fun e => decide (before.node? e.1 ≠ some e.2)
  es.mergeSort fun e f => decide (e.1.length ≤ f.1.length)

end FileTree

end Changeover
