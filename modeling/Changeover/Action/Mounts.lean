import Changeover.Action
import Changeover.Site
import Changeover.Text.Blank

/-!
# Checks of mount points

A conversion writes below `/mnt` and `/sys`, so neither may be mounted read-only. The mount table
has one mount a line, with the mount point as second word and the options as fourth.
-/

namespace Changeover

namespace MountTable

/-- Whether a line mounts exactly this point with the option `ro`. -/
def isReadOnlyLine (point line : String) : Bool :=
  match Text.words line with
  | _ :: target :: _ :: options :: _ =>
    target == point && (Text.splitAt ',' options).any (· == "ro")
  | _ => false

def isReadOnly (table point : String) : Bool := (Text.lines table).any (isReadOnlyLine point)

end MountTable

structure MountCheck where
  action : String
  point : String
  finding : String
  remedy : String

namespace MountCheck

def mnt : MountCheck where
  action := "READ_ONLY_MOUNTS_MNT"
  point := "/mnt"
  finding := "MNT_DIR_READONLY_MOUNT"
  remedy := "Mount at a subdirectory of /mnt to have /mnt writeable."

def sys : MountCheck where
  action := "READ_ONLY_MOUNTS_SYS"
  point := "/sys"
  finding := "SYS_DIR_READONLY_MOUNT"
  remedy := "Ensure mount point is writable before executing the conversion."

def inhibitor (c : MountCheck) : Result where
  level := .error
  finding := {
    id := c.finding
    title := s!"Read-only {c.point} mount detected"
    description := s!"Stopping conversion due to read-only mount to {c.point} directory."
    remediations := c.remedy
    values := .ofList [("mount_point", c.point)] }

end MountCheck

/-- Text of a file; a file that cannot be read is a fault. -/
def readHostText (p : Path) : Procedure String := do
  match (← get).host.files.readText p with
  | .ok s => pure s
  | .error e => Procedure.fail ⟨s!"Cannot read {p.text}", [e.message]⟩

def MountCheck.toAction (c : MountCheck) (site : Site) : Action where
  id := c.action
  run _ := do
    let table ← readHostText (site.path ⟨"/proc/mounts"⟩)
    if MountTable.isReadOnly table c.point then
      Procedure.setResult c.action c.inhibitor

end Changeover
