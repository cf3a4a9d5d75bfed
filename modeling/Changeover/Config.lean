import Changeover.Path
import Changeover.Packages
import Changeover.Settings

/-!
# Configuration

What the operator may configure, with the defaults, and the one rule that all paths are absolute.
How a configuration is read from text is told in `Changeover.Config.Reader`.
-/

namespace Changeover

structure ManagerConfig where
  command : String := "yum"
  /-- Used for queries and for removal. -/
  rpm : String := "rpm"
  enableRepos : List String := []
  disableRepos : List String := []
  deriving DecidableEq, Inhabited

structure Config where
  workDirectory : Path := ⟨"/var/lib/crossgrade"⟩
  backupDirectory : Path := ⟨"/var/lib/crossgrade/backup"⟩
  lockDirectory : Path := ⟨"/var/run/lock"⟩
  reportDirectory : Path := ⟨"/var/log/crossgrade"⟩
  allowOverridable : Bool := false
  parallel : Bool := false
  backupFiles : List Path := []
  createdFiles : List Path := []
  vendorPackages : List String := []
  manager : ManagerConfig := {}
  deriving DecidableEq, Inhabited

namespace Config

def settings (c : Config) : Settings := ⟨c.allowOverridable, c.parallel⟩

def repositories (c : Config) : Repositories := ⟨c.manager.enableRepos, c.manager.disableRepos⟩

def paths (c : Config) : List (String × Path) :=
  [("work_dir", c.workDirectory), ("backup_dir", c.backupDirectory),
    ("lock_dir", c.lockDirectory), ("report_dir", c.reportDirectory)] ++
  c.backupFiles.map (("backup_files", ·)) ++ c.createdFiles.map (("created_files", ·))

def samePaths : List Path → List Path → Bool
  | [], [] => true
  | p :: ps, q :: qs => p.same q && samePaths ps qs
  | _, _ => false

/-- Whether two configurations ask for the same; paths count by their components. -/
def same (c d : Config) : Bool :=
  samePaths (c.paths.map (·.2)) (d.paths.map (·.2)) &&
    c.backupFiles.length == d.backupFiles.length &&
    c.settings == d.settings && c.vendorPackages == d.vendorPackages && c.manager == d.manager

end Config

inductive ConfigError where
  | unreadable (path : Path) (cause : OsError)
  | malformed
  | notExpanded (value name : String)
  | notAbsolute (key : String) (path : Path)
  deriving DecidableEq

namespace ConfigError

def message : ConfigError → String
  | .unreadable path cause => s!"Cannot read {path.text}: {cause.message}"
  | .malformed => "Invalid YAML"
  | .notExpanded value name =>
    s!"Cannot expand {value}: error looking key '{name}' up: environment variable not found"
  | .notAbsolute key path => s!"{key} must be an absolute path, got {path.text}"

/-- As a fault. The cause of an unreadable file is named again. -/
def toFault (e : ConfigError) : Fault :=
  match e with
  | .unreadable _ cause => ⟨e.message, [cause.message]⟩
  | _ => ⟨e.message, []⟩

end ConfigError

namespace Config

def relativePath? (c : Config) : Option (String × Path) := c.paths.find? (!·.2.isAbsolute)

def validate (c : Config) : Except ConfigError Unit :=
  match c.relativePath? with
  | some (key, path) => .error (.notAbsolute key path)
  | none => .ok ()

end Config

end Changeover
