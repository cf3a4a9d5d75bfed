import Changeover.Action
import Changeover.Site

/-!
# Installing the vendor's packages
-/

namespace Changeover

def installationInhibitor (packages : List String) (cause : Fault) : Result where
  level := .error
  finding := {
    id := "FAILED_TO_INSTALL_SCHEDULED_PACKAGES"
    title := "Failed to install scheduled packages."
    description := "The vendor packages required for the conversion could not be installed."
    diagnosis :=
      "Failed to install packages " ++ ", ".intercalate packages ++ ": " ++ cause.full
    values := .ofList [("packages", " ".intercalate packages)] }

/-- Install the configured packages as one tracked change. -/
def installVendorPackages (site : Site) : Action where
  id := "INSTALL_VENDOR_PACKAGES"
  dependencies := ["READ_ONLY_MOUNTS_MNT", "READ_ONLY_MOUNTS_SYS", "BACKUP_RELEASE_FILES",
    "CLEAR_VERSIONLOCK"]
  resources := ["rpmdb"]
  run _ := do
    let packages := site.config.vendorPackages
    if !packages.isEmpty then
      let set : PackageSet :=
        { packages, repositories := site.config.repositories, manager := site.manager }
      match ← Procedure.tryPush (.packages set) with
      | .ok () => pure ()
      | .error (.enableFailed _ cause) =>
        Procedure.setResult "INSTALL_VENDOR_PACKAGES" (installationInhibitor packages cause)
      | .error e => Procedure.fail e.toFault

end Changeover
