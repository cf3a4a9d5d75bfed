import Changeover.Config

/-!
# The site of a conversion

The configuration, the package manager, and the root directory below which all paths of the host
are looked up. Usually the root is `/`; anything else makes a host below a directory.
-/

namespace Changeover

structure Site where
  root : Path := ⟨"/"⟩
  config : Config := {}
  manager : PackageManager

namespace Path

/-- The components without the root, written with single slashes. -/
def belowRoot (p : Path) : Path :=
  ⟨"/".intercalate ((p.components.filter (· != .root)).map Component.text)⟩

end Path

namespace Site

def path (s : Site) (p : Path) : Path := s.root.join p.belowRoot

def backupDirectory (s : Site) : Path := s.path s.config.backupDirectory

def workDirectory (s : Site) : Path := s.path s.config.workDirectory

def reportDirectory (s : Site) : Path := s.path s.config.reportDirectory

end Site

end Changeover
