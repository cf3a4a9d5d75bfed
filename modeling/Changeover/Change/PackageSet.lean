import Changeover.Change.Lifecycle
import Changeover.Packages

/-!
# Package sets

Packages installed for a conversion. Those that were installed before are left out, and restoring
removes exactly what the manager said it had installed.
-/

namespace Changeover

structure PackageSet where
  packages : List String
  repositories : Repositories
  manager : PackageManager
  installed : List String := []
  state : Lifecycle := .pending

namespace PackageSet

def describe (s : PackageSet) : String := "package set [" ++ ", ".intercalate s.packages ++ "]"

def enabled (s : PackageSet) : Bool := s.state = .enabled

/-- The packages that are not installed, asked for one by one. -/
def wanted (m : PackageManager) : List String → Host → Except Fault (List String) × Host
  | [], h => (.ok [], h)
  | p :: ps, h =>
    match m.isInstalled p h with
    | (.error f, h') => (.error f, h')
    | (.ok there, h') =>
      match wanted m ps h' with
      | (.error f, h'') => (.error f, h'')
      | (.ok rest, h'') => (.ok (if there then rest else p :: rest), h'')

def enable (s : PackageSet) (h : Host) : Except Fault Unit × PackageSet × Host :=
  match s.state with
  | .enabled => (.ok (), s, h)
  | .restored => (.error (Lifecycle.alreadyRestored s.describe), s, h)
  | .pending =>
    match wanted s.manager s.packages h with
    | (.error f, h') => (.error f, s, h')
    | (.ok [], h') => (.ok (), { s with state := .enabled }, h')
    | (.ok (p :: ps), h') =>
      match s.manager.install (p :: ps) s.repositories h' with
      | (.error f, h'') => (.error f, s, h'')
      | (.ok names, h'') => (.ok (), { s with installed := names, state := .enabled }, h'')

def restore (s : PackageSet) (h : Host) : Except Fault Unit × PackageSet × Host :=
  if s.state ≠ .enabled then (.ok (), s, h)
  else if s.installed.isEmpty then (.ok (), { s with state := .restored }, h)
  else match s.manager.remove s.installed h with
    | (.error f, h') => (.error f, s, h')
    | (.ok (), h') => (.ok (), { s with installed := [], state := .restored }, h')

end PackageSet

end Changeover
