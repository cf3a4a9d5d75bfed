import Changeover.Batch
import Changeover.Event
import Changeover.Report

/-!
# Running stages

The runner plans the stages and then runs them batch by batch. An action runs only if all its
dependencies ended well and no interrupt is pending. A fault or a panic becomes an error result of
that action alone; the run goes on. If there is no plan, nothing happens at all.

A batch has three parts: first it is decided which of its actions start, then those actions run,
one after the other, and then their outcomes are recorded.
-/

namespace Changeover

structure Session where
  host : Host := {}
  undo : UndoStack Change := {}
  deriving Inhabited

/-- Levels of actions that have ended, latest first. -/
abbrev Levels := List (String × Level)

namespace Levels

def level? (ls : Levels) (action : String) : Option Level :=
  (ls.find? (·.1 == action)).map (·.2)

/-- Levels of earlier reports. Where an action occurs twice, the later entry counts. -/
def ofReports (rs : List Report) : Levels :=
  ((rs.flatMap (·.entries)).map fun e => (e.action, e.result.level)).reverse

end Levels

/-! ### Results the runner decides -/

def unexpectedError (report : String) : Result where
  level := .error
  finding := {
    id := "UNEXPECTED_ERROR"
    title := "Unhandled exception was caught"
    description := "Unhandled exception was caught: " ++ report
    diagnosis := report }

def interruptedResult : Result where
  level := .error
  finding := {
    id := "INTERRUPTED"
    title := "Run interrupted"
    description := "The run was interrupted before this action started." }

def joinNames (names : List String) : String :=
  match names.getLast? with
  | none => ""
  | some last =>
    if names.length = 1 then last else ", ".intercalate names.dropLast ++ " and " ++ last

def skippedResult (blockedBy : List String) : Result where
  level := .skip
  finding := {
    id := "SKIP"
    title := "Skipped action"
    description := "This action was skipped due to another action failing."
    diagnosis :=
      "Skipped because " ++ joinNames blockedBy ++
        (if blockedBy.length = 1 then " was" else " were") ++ " not successful" }

/-! ### Batches -/

structure Progress where
  session : Session
  levels : Levels
  entries : List ReportEntry := []
  events : List Event := []

namespace Progress

def emit (p : Progress) (e : Event) : Progress := { p with events := p.events ++ [e] }

def record (p : Progress) (e : ReportEntry) : Progress :=
  { p with
    levels := (e.action, e.result.level) :: p.levels
    entries := p.entries ++ [e] }

end Progress

inductive Decision where
  | interrupted
  | blocked (dependencies : List String)
  | start
  deriving DecidableEq

/-- Dependencies that hold an action back, as often as it names them. -/
def blockers (settings : Settings) (levels : Levels) (a : Action) : List String :=
  a.dependencies.filter fun d =>
    (levels.level? d).any (·.blocksDependents settings.allowOverridable)

def decision (settings : Settings) (p : Progress) (a : Action) : Decision :=
  if p.session.host.interrupted then .interrupted
  else match blockers settings p.levels a with
    | [] => .start
    | d :: ds => .blocked (d :: ds)

/-- Decide on the actions of a batch in turn: those that start, and the progress with the outcomes
of the others. -/
def decideBatch (settings : Settings) (run stage : String) :
    List Action → Progress → List Action × Progress
  | [], p => ([], p)
  | a :: as, p =>
    match decision settings p a with
    | .interrupted =>
      decideBatch settings run stage as
        (p.record { action := a.id, stage, result := interruptedResult })
    | .blocked ds =>
      decideBatch settings run stage as
        ((p.emit (.actionSkipped run a.id ds)).record
          { action := a.id, stage, result := skippedResult ds })
    | .start =>
      let (started, p') := decideBatch settings run stage as (p.emit (.actionStarted run a.id))
      (a :: started, p')

structure Performed where
  action : String
  ending : Except (Stop Fault) Unit
  tracker : Tracker

/-- Run one action on the session. An interrupt that was pending stays pending. -/
def perform (settings : Settings) (a : Action) (s : Session) : Performed × Session :=
  let (ending, w) := (a.run settings).perform { host := s.host, undo := s.undo }
  (⟨a.id, ending, w.tracker⟩, { host := s.host.noteInterrupt w.host, undo := w.undo })

def performEach (settings : Settings) : List Action → Session → List Performed × Session
  | [], s => ([], s)
  | a :: as, s =>
    let (done, s') := perform settings a s
    let (rest, s'') := performEach settings as s'
    (done :: rest, s'')

namespace Performed

def result (d : Performed) : Result :=
  match d.ending with
  | .ok () => d.tracker.result.getD .success
  | .error stop => unexpectedError stop.report

/-- The outcome for the report. Messages stay whatever the end was. -/
def entry (stage : String) (d : Performed) : ReportEntry :=
  { action := d.action, stage, result := d.result, messages := d.tracker.messages }

end Performed

def settle (run stage : String) (p : Progress) (d : Performed) : Progress :=
  (p.emit (.actionFinished run d.action d.result.level)).record (d.entry stage)

def runBatch (settings : Settings) (run stage : String) (p : Progress) (batch : List Action) :
    Progress :=
  let (started, p) := decideBatch settings run stage batch p
  let (done, session) := performEach settings started p.session
  done.foldl (settle run stage) { p with session }

/-! ### Runs -/

structure Runner where
  settings : Settings
  batches : StagePlan → List Action → List (List Nat)

namespace Runner

def ofSettings (settings : Settings) : Runner := ⟨settings, batchesFor settings.parallel⟩

def batchesOf (r : Runner) (stage : Stage × StagePlan) : List (List Action) :=
  (r.batches stage.2 stage.1.actions).map fun batch => batch.filterMap (stage.1.actions[·]?)

end Runner

namespace Progress

def start (run : String) (prior : Levels) (s : Session) : Progress :=
  { session := s, levels := prior, events := [.started run] }

def enter (p : Progress) (run : String) (stage : Stage) : Progress :=
  let p := p.emit (.stageStarted run stage.name stage.actions.length)
  { p with session := { p.session with undo := p.session.undo.pushMarker } }

end Progress

def Runner.runStage (r : Runner) (run : String) (p : Progress) (stage : Stage × StagePlan) :
    Progress :=
  (r.batchesOf stage).foldl (runBatch r.settings run stage.1.name) (p.enter run stage.1)

/-- Name and times of a run, given from outside. -/
structure Stamp where
  run : String
  started : Int := 0
  completed : Int := 0
  deriving DecidableEq, Inhabited

/-- The end of a run: its report, unless there was no plan, and what it leaves. -/
structure RunEnd where
  report : Except PlanError Report
  events : List Event
  session : Session

namespace Runner

def close (r : Runner) (stamp : Stamp) (p : Progress) : RunEnd :=
  let report : Report := {
    run := stamp.run
    allowOverridable := r.settings.allowOverridable
    started := stamp.started
    completed := some stamp.completed
    entries := p.entries }
  ⟨.ok report, p.events ++ [.completed stamp.run report.isBlocking], p.session⟩

/-- Run the stages. Actions may depend on those whose levels are given in `prior`. -/
def run (r : Runner) (stamp : Stamp) (prior : Levels) (stages : List Stage) (s : Session) :
    RunEnd :=
  match plan (stages.map Stage.jobs) (prior.map (·.1)) with
  | .error e => ⟨.error e, [.failed stamp.run e.message], s⟩
  | .ok plans =>
    r.close stamp ((stages.zip plans).foldl (r.runStage stamp.run) (.start stamp.run prior s))

end Runner

end Changeover
