import Changeover.Action.VendorPackages
import Changeover.Action.VersionLocks
import Changeover.Action.WorkDirectory

/-!
# The catalog of actions

The stages of a conversion with their actions, before and after the point of no return.
-/

namespace Changeover

/-- Stages whose changes can still be undone. -/
def stagesBefore (site : Site) : List Stage := [
  ⟨"system_checks",
    [MountCheck.mnt.toAction site, MountCheck.sys.toAction site, checkBackupDirectory site]⟩,
  ⟨"pre_ponr_changes",
    [saveReleaseFiles site, saveConfiguredFiles site, clearVersionLocks site,
      installVendorPackages site]⟩]

/-- Stages after the point of no return. -/
def stagesAfter (site : Site) : List Stage := [⟨"post_ponr_changes", [removeWorkDirectory site]⟩]

structure CatalogEntry where
  id : String
  stage : String
  dependencies : List String
  deriving DecidableEq

def catalog (site : Site) : List CatalogEntry :=
  (stagesBefore site ++ stagesAfter site).flatMap fun s =>
    s.actions.map fun a => ⟨a.id, s.name, a.dependencies⟩

end Changeover
