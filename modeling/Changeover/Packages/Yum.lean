import Changeover.Command
import Changeover.Config
import Changeover.Packages

/-!
# The package manager of the host

Transactions go through one program, which takes repositories to switch, and queries and removals
through another. A removal is part of a rollback and is never interrupted.
-/

namespace Changeover

namespace Yum

def installArguments (packages : List String) (repos : Repositories) : List String :=
  ["install", "-y"] ++ repos.disable.map ("--disablerepo=" ++ ·) ++
    repos.enable.map ("--enablerepo=" ++ ·) ++ packages

/-- Run a command on the host; one that did not run is told as part of a task. -/
def command (program task : String) (args : List String) (interruptible : Bool) (h : Host) :
    Except Fault CommandOutput × Host :=
  let stopped := interruptible && h.interrupted
  let (r, fs) := Command.run program args stopped h.environment h.files
  (r.mapError fun e => e.toFault.within s!"{program} {task}", { h with files := fs })

def refused (program task : String) (packages : List String) (o : CommandOutput) : Fault :=
  ⟨program ++ " " ++ task ++ " " ++ " ".intercalate packages ++ " exited with " ++
    toString o.status ++ ": " ++ o.combined, []⟩

end Yum

/-- A manager that runs `program` for installations and `rpm` for the rest. -/
def PackageManager.yum (program rpm : String) : PackageManager where
  isInstalled p h :=
    let (r, h) := Yum.command rpm "-q" ["-q", p] true h
    (r.map (·.success), h)
  install ps repos h :=
    match Yum.command program "install" (Yum.installArguments ps repos) true h with
    | (.error f, h) => (.error f, h)
    | (.ok o, h) =>
      if o.success then (.ok ps, h) else (.error (Yum.refused program "install" ps o), h)
  remove ps h :=
    match Yum.command rpm "-e" (["-e", "--nodeps"] ++ ps) false h with
    | (.error f, h) => (.error f, h)
    | (.ok o, h) => if o.success then (.ok (), h) else (.error (Yum.refused rpm "-e" ps o), h)

def ManagerConfig.manager (c : ManagerConfig) : PackageManager := .yum c.command c.rpm

end Changeover
