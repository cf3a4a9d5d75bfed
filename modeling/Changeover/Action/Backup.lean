import Changeover.Action
import Changeover.Site

/-!
# Actions that save files

Before anything is changed, the backup directory must be writable, and the files that identify the
distribution, those the operator named and those that are going to be created are tracked.
-/

namespace Changeover

def backupDirectoryInhibitor (directory : Path) (e : OsError) : Result where
  level := .error
  finding := {
    id := "BACKUP_DIR_NOT_WRITABLE"
    title := "The backup directory is not writable."
    description :=
      "Files changed by the conversion cannot be saved, so a rollback would be impossible."
    diagnosis := s!"Cannot write to {directory.text}: {e.message}"
    remediations := "Make sure the configured backup_dir is on a writable file system."
    values := .ofList [("backup_dir", directory.text)] }

/-- Create the backup directory. A directory that is there can be written to. -/
def checkBackupDirectory (site : Site) : Action where
  id := "BACKUP_DIR_WRITABLE"
  run _ := do
    let directory := site.backupDirectory
    let r ← Procedure.onHost fun h =>
      let (r, fs) := h.files.makeDirectories directory
      (r, { h with files := fs })
    match r with
    | .ok () => pure ()
    | .error e => Procedure.setResult "BACKUP_DIR_WRITABLE" (backupDirectoryInhibitor directory e)

def invalidPath (e : SaveRefusal) : Finding where
  id := "INVALID_BACKUP_PATH"
  title := "Cannot back up the requested path."
  diagnosis := e.message

def notSaved (path : Path) (e : UndoError) : Finding where
  id := "FAILED_TO_SAVE_FILE_TO_BACKUP_DIR"
  title := "Failed to copy file to the backup directory."
  description :=
    "Copying the current file has failed. The file could not be restored on rollback, so it is " ++
    "unsafe to continue."
  diagnosis := s!"Failed to back up {path.text}: {e.message}"
  values := .ofList [("path", path.text)]

def saveFile (site : Site) (path : Path) : Procedure (Option Finding) := do
  match SavedFile.new? (← get).host.files path site.backupDirectory with
  | .error e => pure (some (invalidPath e))
  | .ok f =>
    match ← Procedure.tryPush (.file f) with
    | .ok () => pure none
    | .error e => pure (some (notSaved path e))

/-- Track files in turn up to the first that cannot be saved. -/
def saveFiles (site : Site) : List Path → Procedure (Option Finding)
  | [] => pure none
  | p :: ps => do
    match ← saveFile site (site.path p) with
    | none => saveFiles site ps
    | some f => pure (some f)

def releaseFiles : List Path := [⟨"/etc/os-release"⟩, ⟨"/etc/system-release"⟩]

def saveReleaseFiles (site : Site) : Action where
  id := "BACKUP_RELEASE_FILES"
  dependencies := ["BACKUP_DIR_WRITABLE"]
  run _ := do
    match ← saveFiles site releaseFiles with
    | some f => Procedure.setResult "BACKUP_RELEASE_FILES" ⟨.error, f⟩
    | none => pure ()

def saveConfiguredFiles (site : Site) : Action where
  id := "BACKUP_CONFIGURED_FILES"
  dependencies := ["BACKUP_DIR_WRITABLE"]
  run _ := do
    match ← saveFiles site site.config.backupFiles with
    | some f => Procedure.setResult "BACKUP_CONFIGURED_FILES" ⟨.error, f⟩
    | none =>
      site.config.createdFiles.forM fun p => Procedure.push (.absent { path := site.path p })

end Changeover
