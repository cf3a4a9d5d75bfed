import Changeover.Config
import Changeover.Config.Expansion
import Changeover.Text.Blank
import Changeover.Yaml.Fields

/-!
# Reading configurations

A configuration is a YAML mapping. What it leaves out keeps its default. Then the variables in all
paths are expanded, and all paths must be absolute.
-/

namespace Changeover

namespace ManagerConfig

def ofNode? (d : Yaml.Document) (n : Yaml.Node) : Option ManagerConfig := do
  let f ← Yaml.Fields.ofNode? d n
  let dflt : ManagerConfig := {}
  pure {
    command := ← f.optional? "command" dflt.command Yaml.Document.text?
    rpm := ← f.optional? "rpm" dflt.rpm Yaml.Document.text?
    enableRepos := ← f.optional? "enable_repos" dflt.enableRepos Yaml.Document.texts?
    disableRepos := ← f.optional? "disable_repos" dflt.disableRepos Yaml.Document.texts? }

end ManagerConfig

namespace Config

def path? (d : Yaml.Document) (n : Yaml.Node) : Option Path := (d.text? n).map Path.mk

def paths? (d : Yaml.Document) (n : Yaml.Node) : Option (List Path) :=
  (d.texts? n).map (·.map Path.mk)

def ofDocument? (d : Yaml.Document) : Option Config := do
  let f ← Yaml.Fields.ofNode? d d.root
  let dflt : Config := {}
  pure {
    workDirectory := ← f.optional? "work_dir" dflt.workDirectory path?
    backupDirectory := ← f.optional? "backup_dir" dflt.backupDirectory path?
    lockDirectory := ← f.optional? "lock_dir" dflt.lockDirectory path?
    reportDirectory := ← f.optional? "report_dir" dflt.reportDirectory path?
    allowOverridable :=
      ← f.optional? "allow_overridable" dflt.allowOverridable Yaml.Document.bool?
    parallel := ← f.optional? "parallel" dflt.parallel Yaml.Document.bool?
    backupFiles := ← f.optional? "backup_files" dflt.backupFiles paths?
    createdFiles := ← f.optional? "created_files" dflt.createdFiles paths?
    vendorPackages := ← f.optional? "vendor_packages" dflt.vendorPackages Yaml.Document.texts?
    manager := ← f.optional? "package_manager" dflt.manager ManagerConfig.ofNode? }

def expandPath (e : Environment) (p : Path) : Except ConfigError Path :=
  match Expansion.expand e p.text with
  | .ok s => .ok ⟨s⟩
  | .error name => .error (.notExpanded p.text name)

/-- All paths expanded, the first failure being reported. -/
def expand (e : Environment) (c : Config) : Except ConfigError Config := do
  pure { c with
    workDirectory := ← expandPath e c.workDirectory
    backupDirectory := ← expandPath e c.backupDirectory
    lockDirectory := ← expandPath e c.lockDirectory
    reportDirectory := ← expandPath e c.reportDirectory
    backupFiles := ← c.backupFiles.mapM (expandPath e)
    createdFiles := ← c.createdFiles.mapM (expandPath e) }

/-- The configuration in a text. A text of white space configures nothing. -/
def ofText (e : Environment) (s : String) : Except ConfigError Config := do
  let c ←
    if (Text.trim s).isEmpty then pure {}
    else match (Yaml.Document.parse? s).bind ofDocument? with
      | some c => pure c
      | none => throw .malformed
  let c ← c.expand e
  c.validate
  pure c

/-- The configuration in a file. Without the file it is the default, as it stands. -/
def ofFile (e : Environment) (fs : FileSystem) (path : Path) : Except ConfigError Config :=
  if !fs.holds path then .ok {}
  else match fs.readText path with
    | .error cause => .error (.unreadable path cause)
    | .ok s => ofText e s

end Config

end Changeover
