import Changeover.Action.Backup
import Changeover.Action.Mounts

/-!
# Package version locks

Locked versions make the installation of the vendor's packages fail. They are cleared only if the
operator allows overridable findings, and come back on rollback.
-/

namespace Changeover

namespace VersionLocks

def listPath : String := "/etc/yum/pluginconf.d/versionlock.list"

/-- Lines that are neither empty nor comments. -/
def count (content : String) : Nat :=
  ((Text.lines content).map Text.trim).countP fun l => !l.isEmpty && l.toList.head? != some '#'

def inhibitor (entries : Nat) : Result where
  level := .overridable
  finding := {
    id := "VERSIONLOCK_PRESENT"
    title := "Package version locks are present."
    description := "Locked package versions prevent the vendor packages from being installed."
    diagnosis := s!"{entries} entries found in {listPath}"
    remediations :=
      "Clear the locks with 'yum versionlock clear', or allow overridable findings to have " ++
      "them cleared and restored on rollback."
    values := .ofList [("entries", toString entries)] }

def cleared (entries : Nat) : Message where
  level := .warning
  finding := {
    id := "VERSIONLOCK_CLEARED"
    title := "Package version locks were cleared."
    description := s!"{entries} version locks were removed and will be restored on rollback." }

def clear (site : Site) (path : Path) (entries : Nat) : Procedure Unit := do
  match ← saveFile site path with
  | some f => Procedure.setResult "CLEAR_VERSIONLOCK" ⟨.error, f⟩
  | none =>
    match (← get).host.files.write path .empty with
    | .error e => Procedure.fail ⟨s!"Cannot clear {path.text}", [e.message]⟩
    | .ok fs =>
      Procedure.onHost fun h => ((), { h with files := fs })
      Procedure.addMessage (cleared entries)

end VersionLocks

def clearVersionLocks (site : Site) : Action where
  id := "CLEAR_VERSIONLOCK"
  dependencies := ["BACKUP_DIR_WRITABLE"]
  resources := ["yum-config"]
  run settings := do
    let path := site.path ⟨VersionLocks.listPath⟩
    if (← get).host.files.isFile path then
      let entries := VersionLocks.count (← readHostText path)
      if entries ≠ 0 then
        if settings.allowOverridable then VersionLocks.clear site path entries
        else Procedure.setResult "CLEAR_VERSIONLOCK" (VersionLocks.inhibitor entries)

end Changeover
