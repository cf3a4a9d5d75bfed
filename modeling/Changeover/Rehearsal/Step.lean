import Changeover.Action

/-!
# Rehearsed actions

An action given by a list of steps. It notes in the host's journal that it runs, and then reports,
stops, uses the undo stack or changes files as the steps say. With such actions every turn that a
run can take is tried out without a real host.
-/

namespace Changeover

inductive ChangeSpec where
  | rehearsed (c : RehearsedChange)
  | file (path backupDirectory : Path)
  | absent (path : Path)
  | packages (names : List String) (repositories : Repositories) (manager : PackageManager)

namespace ChangeSpec

/-- Make the change. Only a file can be refused. -/
def build (fs : FileSystem) : ChangeSpec → Except SaveRefusal Change
  | .rehearsed c => .ok (.rehearsed c)
  | .file path backupDirectory => (SavedFile.new? fs path backupDirectory).map .file
  | .absent path => .ok (.absent { path })
  | .packages names repositories manager =>
    .ok (.packages { packages := names, repositories, manager })

end ChangeSpec

inductive FileStep where
  | write (path : Location) (content : ByteArray) (executable : Bool)
  | directory (path : Location)
  | delete (path : Location)

namespace FileStep

def openWay (t : FileTree) : Location → List String → FileTree
  | _, [] => t
  | at_, name :: rest =>
    let l := at_ ++ [name]
    openWay (if (t.node? l).isSome then t else t.put l .directory) l rest

/-- Make the step. What stood at the place of a new file is gone. -/
def apply (t : FileTree) : FileStep → FileTree
  | .write path content executable =>
    ((openWay t [] path.dropLast).prune path).put path (.file content executable)
  | .directory path => openWay t [] path
  | .delete path => t.prune path

end FileStep

inductive Step where
  | result (r : Result)
  /-- Set a result and only note it if it is refused. -/
  | tryResult (r : Result)
  | message (m : Message)
  | fail (f : Fault)
  | panic (text : Option String)
  | interrupt
  | push (c : ChangeSpec)
  | marker
  | pop
  | popPhase
  | commit
  | settings
  | files (s : FileStep)

namespace Step

def note (line : String) : Procedure Unit := Procedure.onHost fun h => ((), h.note line)

def onUndo {α : Type} (f : UndoStack Change → Host → α × UndoStack Change × Host) :
    Procedure α := do
  let w ← get
  let (a, undo, host) := f w.undo w.host
  set { w with undo, host }
  pure a

def perform (action : String) (settings : Settings) : Step → Procedure Unit
  | .result r => Procedure.setResult action r
  | .tryResult r => do
    match (← get).tracker.setResult action r with
    | .ok _ => Procedure.setResult action r
    | .error e => note s!"rejected:{e.message}"
  | .message m => Procedure.addMessage m
  | .fail f => Procedure.fail f
  | .panic text => Procedure.panic text
  | .interrupt => Procedure.onHost fun h => ((), { h with interrupted := true })
  | .push spec => do
    match spec.build (← get).host.files with
    | .ok c => Procedure.push c
    | .error e => Procedure.fail ⟨e.message, []⟩
  | .marker => onUndo fun u h => ((), u.pushMarker, h)
  | .pop => do
    match ← onUndo fun u h => u.pop h with
    | .ok c => note s!"popped:{c.describe}"
    | .error e => Procedure.fail e.toFault
  | .popPhase => do
    let cs ← onUndo fun u h => u.popPhase h
    note s!"unwound:{cs.length}"
  | .commit => do
    let n ← onUndo fun u h => (u.commit.1, u.commit.2, h)
    note s!"committed:{n}"
  | .settings => do
    let raised := (← get).host.interrupted
    note s!"allow={settings.allowOverridable} parallel={settings.parallel} raised={raised}"
  | .files s => Procedure.onHost fun h =>
    ((), { h with files := { h.files with tree := s.apply h.files.tree } })

end Step

def rehearsedAction (id : String) (dependencies resources : List String) (steps : List Step) :
    Action where
  id
  dependencies
  resources
  run settings := do
    Step.note s!"run:{id}"
    steps.forM (Step.perform id settings)

end Changeover
