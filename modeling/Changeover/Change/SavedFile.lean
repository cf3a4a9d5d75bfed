import Changeover.Change.Lifecycle
import Changeover.Files.System
import Changeover.Sha256

/-!
# Saved files

A file is copied to the backup directory and copied back on restore. Its place there is named by
the digest of its parent directory, so files of the same name from different directories do not
meet. Two changes that save the same path share one place.
-/

namespace Changeover

inductive SaveRefusal where
  | notAbsolute (path : Path)
  | isDirectory (path : Path)
  deriving DecidableEq

def SaveRefusal.message : SaveRefusal → String
  | .notAbsolute p => s!"Filepath needs to be an absolute path: {p.text}"
  | .isDirectory p => s!"Path must be a file not a directory: {p.text}"

structure SavedFile where
  path : Path
  backupDirectory : Path
  copy : Option Path := none
  state : Lifecycle := .pending
  deriving DecidableEq

namespace SavedFile

/-- The change for a path, which must be absolute and must not be a directory now. -/
def new? (fs : FileSystem) (path backupDirectory : Path) : Except SaveRefusal SavedFile :=
  if !path.isAbsolute then .error (.notAbsolute path)
  else if fs.isDirectory path then .error (.isDirectory path)
  else .ok { path, backupDirectory }

def describe (f : SavedFile) : String := s!"file {f.path.text}"

def enabled (f : SavedFile) : Bool := f.state = .enabled

/-- The directory of the copy: one for each parent directory. -/
def copyDirectory (f : SavedFile) : Path :=
  f.backupDirectory.join ⟨Sha256.ofText ((f.path.parent?.getD ⟨"/"⟩).text)⟩

def taskFault (task : String) (e : OsError) : Fault := ⟨task, [e.message]⟩

/-- Copy the file to the backup directory. A path without a file stays pending. -/
def enable (f : SavedFile) (fs : FileSystem) : Except Fault Unit × SavedFile × FileSystem :=
  match f.state with
  | .enabled => (.ok (), f, fs)
  | .restored => (.error (Lifecycle.alreadyRestored f.describe), f, fs)
  | .pending =>
    if !fs.isFile f.path then (.ok (), f, fs)
    else match f.path.fileName? with
      | none => (.error ⟨s!"{f.path.text} has no file name", []⟩, f, fs)
      | some name =>
        let directory := f.copyDirectory
        match fs.makeDirectories directory with
        | (.error e, fs') =>
          (.error (taskFault s!"Cannot create backup directory {directory.text}" e), f, fs')
        | (.ok (), fs') =>
          let copy := directory.join ⟨name⟩
          match fs'.copy f.path copy with
          | .error e =>
            (.error (taskFault s!"Failed to back up {f.path.text} to {copy.text}" e), f, fs')
          | .ok fs'' => (.ok (), { f with copy := some copy, state := .enabled }, fs'')

/-- Copy the file back and remove the copy. A copy that is gone is not an error. -/
def restore (f : SavedFile) (fs : FileSystem) : Except Fault Unit × SavedFile × FileSystem :=
  if f.state ≠ .enabled then (.ok (), f, fs)
  else match f.copy.filter fs.isFile with
    | none => (.ok (), f, fs)
    | some copy =>
      match fs.copy copy f.path with
      | .error e => (.error (taskFault s!"Failed to restore {f.path.text}" e), f, fs)
      | .ok fs' =>
        match fs'.removeFile copy with
        | .error e => (.error (taskFault s!"Failed to remove backup {copy.text}" e), f, fs')
        | .ok fs'' => (.ok (), { f with copy := none, state := .restored }, fs'')

end SavedFile

end Changeover
