import Changeover.Action
import Changeover.Site

/-!
# Removing the work directory

Done after the point of no return. It never blocks: a directory that cannot be removed is a warning.
-/

namespace Changeover

def workDirectoryLeft (directory : Path) (e : OsError) : Message where
  level := .warning
  finding := {
    id := "UNSUCCESSFUL_REMOVE_TMP_DIR"
    title := s!"Temporary folder {directory.text} wasn't removed."
    description := s!"The folder {directory.text} is left untouched. You may remove the folder " ++
      "manually after you ensure there is no preserved data you would need."
    diagnosis := e.message }

def removeWorkDirectory (site : Site) : Action where
  id := "REMOVE_TMP_DIR"
  dependencies := ["INSTALL_VENDOR_PACKAGES"]
  run _ := do
    let directory := site.workDirectory
    let r ← Procedure.onHost fun h =>
      let (r, fs) := h.files.removeTree directory
      (r, { h with files := fs })
    match r with
    | .ok () | .error .notFound => pure ()
    | .error e => Procedure.addMessage (workDirectoryLeft directory e)

end Changeover
