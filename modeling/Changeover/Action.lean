import Changeover.Change
import Changeover.Plan
import Changeover.Settings
import Changeover.Tracker

/-!
# Actions and stages

An action is a check or a change of the host. It works on a workspace, where it finds the host, the
shared undo stack and its own tracker, and it ends normally, with a fault or by a panic. What it
does is any function of these; the runner decides what its end means.
-/

namespace Changeover

structure Workspace where
  host : Host := {}
  undo : UndoStack Change := {}
  tracker : Tracker := {}
  deriving Inhabited

/-- A piece of work on a workspace. What it did before it stopped stays done. -/
abbrev Procedure (α : Type) := ExceptT (Stop Fault) (StateM Workspace) α

namespace Procedure

def perform {α : Type} (p : Procedure α) (w : Workspace) : Except (Stop Fault) α × Workspace :=
  (ExceptT.run p).run w

def fail {α : Type} (f : Fault) : Procedure α := throw (.failed f)

def panic {α : Type} (text : Option String) : Procedure α := throw (.panicked text)

/-- Set the result of the action called `action`; a refused result is a fault. -/
def setResult (action : String) (r : Result) : Procedure Unit := do
  let w ← get
  match w.tracker.setResult action r with
  | .ok t => set { w with tracker := t }
  | .error e => fail e.toFault

def addMessage (m : Message) : Procedure Unit :=
  modify fun w => { w with tracker := w.tracker.addMessage m }

def onHost {α : Type} (f : Host → α × Host) : Procedure α := do
  let w ← get
  let (a, h) := f w.host
  set { w with host := h }
  pure a

/-- Enable and track a change, and pass on how it went. A panic goes through. -/
def tryPush (c : Change) : Procedure (Except UndoError Unit) := do
  let w ← get
  let (r, undo, host) := w.undo.push c w.host
  set { w with undo, host }
  match r with
  | .ok () => pure (.ok ())
  | .error (.failed e) => pure (.error e)
  | .error (.panicked t) => panic t

def push (c : Change) : Procedure Unit := do
  match ← tryPush c with
  | .ok () => pure ()
  | .error e => fail e.toFault

end Procedure

structure Action where
  id : String
  dependencies : List String := []
  /-- What the action needs for itself. Actions that share a resource are never in one batch. -/
  resources : List String := []
  run : Settings → Procedure Unit

def Action.job (a : Action) : Job := ⟨a.id, a.dependencies⟩

structure Stage where
  name : String
  actions : List Action

def Stage.jobs (s : Stage) : JobStage := ⟨s.name, s.actions.map Action.job⟩

end Changeover
