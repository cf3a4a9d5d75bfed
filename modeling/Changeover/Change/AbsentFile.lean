import Changeover.Change.SavedFile

/-!
# Absent files

A path where nothing is yet. If a file has appeared there by the time the change is restored, it
is removed. A directory that has appeared is left alone.
-/

namespace Changeover

structure AbsentFile where
  path : Path
  state : Lifecycle := .pending
  deriving DecidableEq

namespace AbsentFile

def describe (f : AbsentFile) : String := s!"missing file {f.path.text}"

def enabled (f : AbsentFile) : Bool := f.state = .enabled

/-- Take note that nothing is there. A path where something is stays pending. -/
def enable (f : AbsentFile) (fs : FileSystem) : Except Fault Unit × AbsentFile :=
  match f.state with
  | .enabled => (.ok (), f)
  | .restored => (.error (Lifecycle.alreadyRestored f.describe), f)
  | .pending => if fs.holds f.path then (.ok (), f) else (.ok (), { f with state := .enabled })

def restore (f : AbsentFile) (fs : FileSystem) : Except Fault Unit × AbsentFile × FileSystem :=
  if f.state ≠ .enabled then (.ok (), f, fs)
  else if fs.isFile f.path then
    match fs.removeFile f.path with
    | .error e => (.error (SavedFile.taskFault s!"Failed to remove {f.path.text}" e), f, fs)
    | .ok fs' => (.ok (), { f with state := .restored }, fs')
  else (.ok (), { f with state := .restored }, fs)

end AbsentFile

end Changeover
