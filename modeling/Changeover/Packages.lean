import Changeover.Host

/-!
# Package managers

A manager answers whether a package is installed, installs packages and removes them, all on a
host. The one defined here keeps its packages in the host's ledger and fails on request.
-/

namespace Changeover

structure Repositories where
  enable : List String := []
  disable : List String := []
  deriving DecidableEq, Inhabited

structure PackageManager where
  isInstalled : String → Host → Except Fault Bool × Host
  /-- Installs and names what was installed. -/
  install : List String → Repositories → Host → Except Fault (List String) × Host
  /-- Removes without touching dependents. -/
  remove : List String → Host → Except Fault Unit × Host

/-- What a ledger manager is asked to get wrong. -/
structure LedgerFaults where
  query : Option Fault := none
  install : Option Fault := none
  remove : Option Fault := none
  installs : Option (List String) := none
  deriving Inhabited

namespace PackageManager

def recordCall {α : Type} (call : String) (fault : Option Fault) (go : Ledger → α × Ledger)
    (h : Host) : Except Fault α × Host :=
  let l := h.packages.record call
  match fault with
  | some f => (.error f, { h with packages := l })
  | none =>
    let (a, l') := go l
    (.ok a, { h with packages := l' })

def ledger (faults : LedgerFaults) : PackageManager where
  isInstalled p := recordCall s!"query {p}" faults.query fun l => (l.installed.contains p, l)
  install ps repos :=
    let call := "install " ++ " ".intercalate ps ++ " enable=" ++ ",".intercalate repos.enable ++
      " disable=" ++ ",".intercalate repos.disable
    recordCall call faults.install fun l =>
      let names := faults.installs.getD ps
      (names, l.add names)
  remove ps := recordCall ("remove " ++ " ".intercalate ps) faults.remove fun l => ((), l.drop ps)

end PackageManager

end Changeover
