import Changeover.Action.Catalog
import Changeover.Report.Json
import Changeover.Report.Summary
import Changeover.Run

/-!
# Conversions

A conversion runs the stages before the point of no return. If anything blocks, if the run was
interrupted, if it was only an analysis, or if the operator declines, every tracked change is rolled
back. Otherwise the changes are committed and the remaining stages run. Reports are written in any
case but one: stages without a plan end the conversion at once.
-/

namespace Changeover

inductive Mode where
  /-- Try everything that can be undone, then undo it. -/
  | analyze
  /-- Go past the point of no return. -/
  | convert
  deriving DecidableEq

inductive Status where
  | successful
  | failure
  | inhibitorsFound
  deriving DecidableEq

namespace Status

def code : Status → Nat
  | .successful => 0
  | .failure => 1
  | .inhibitorsFound => 2

def name : Status → String
  | .successful => "Successful"
  | .failure => "Failure"
  | .inhibitorsFound => "InhibitorsFound"

end Status

structure Answer where
  accepts : Bool
  /-- Whether an interrupt is raised while the operator decides. -/
  interrupts : Bool := false
  deriving DecidableEq

structure Outcome where
  status : Status
  report : Report
  rolledBack : Bool
  committed : Bool
  rollbackFailures : List String
  reportFiles : List Path

structure ConversionEnd where
  outcome : Except PlanError Outcome
  asked : Bool
  events : List Event
  session : Session

structure Stamps where
  before : Stamp
  after : Stamp

namespace Conversion

def rollbackEntry (failures : List String) : ReportEntry where
  action := "ROLLBACK"
  stage := "rollback"
  result := {
    level := .warning
    finding := {
      id := "ROLLBACK_FAILED"
      title := "Rollback finished with failures."
      description := s!"{failures.length} change(s) could not be restored. " ++
        "Manual cleanup is required." } }
  messages := failures.map fun f => {
    level := .warning
    finding := {
      id := "ROLLBACK_FAILED"
      title := "Change could not be restored."
      description := f
      diagnosis := f } }

def rollback (run : String) (s : Session) : List Event × Session :=
  let (restored, undo, host) := s.undo.popAll s.host
  let count := match restored with
    | .ok cs => cs.length
    | .error _ => 0
  ([.rollbackStarted run, .rollbackCompleted run count undo.failures.length], ⟨host, undo⟩)

def writeText (path : Path) (body : String) (fs : FileSystem) : Except OsError Unit × FileSystem :=
  let (r, fs) := match path.parent? with
    | some directory => fs.makeDirectories directory
    | none => (.ok (), fs)
  match r with
  | .error e => (.error e, fs)
  | .ok () =>
    match fs.write path body.toUTF8 with
    | .error e => (.error e, fs)
    | .ok fs' => (.ok (), fs')

/-- Write files in turn and list those that could be written. -/
def writeAll : List (Path × String) → FileSystem → List Path × FileSystem
  | [], fs => ([], fs)
  | (path, body) :: rest, fs =>
    let (r, fs') := writeText path body fs
    let (written, fs'') := writeAll rest fs'
    (if r.toBool then path :: written else written, fs'')

inductive Reach where
  | before
  | after
  deriving DecidableEq

def Reach.name : Reach → String
  | .before => "pre-conversion"
  | .after => "post-conversion"

def reportTexts (site : Site) (reach : Reach) (r : Report) : List (Path × String) :=
  let base := "crossgrade-" ++ reach.name
  [(site.reportDirectory.join ⟨base ++ ".json"⟩, r.toJson.pretty),
    (site.reportDirectory.join ⟨base ++ ".txt"⟩, r.summary)]

/-- Add the entry about failed restores if there were any, and write the reports. -/
def finish (site : Site) (status : Status) (reach : Reach) (report : Report) (s : Session) :
    Outcome × Session :=
  let failures := s.undo.failures
  let report := if failures.isEmpty then report else report.push (rollbackEntry failures)
  let (reportFiles, files) := writeAll (reportTexts site reach report) s.host.files
  ({ status, report, rolledBack := reach = .before, committed := reach = .after,
      rollbackFailures := failures, reportFiles },
    { s with host := { s.host with files } })

/-- Roll back and finish. `clean` is the status if every restore recorded so far went well. -/
def giveUp (site : Site) (clean : Status) (asked : Bool) (events : List Event) (report : Report)
    (s : Session) : ConversionEnd :=
  let (more, s) := rollback report.run s
  let status := if s.undo.rollbackFailed then .failure else clean
  let (outcome, s) := finish site status .before report s
  ⟨.ok outcome, asked, events ++ more, s⟩

/-- What follows the run before the point of no return. -/
inductive Course where
  | ended (e : ConversionEnd)
  | goOn (report : Report) (s : Session)

def course (site : Site) (mode : Mode) (answer : Answer) (first : RunEnd) : Course :=
  match first.report with
  | .error e => .ended ⟨.error e, false, first.events, first.session⟩
  | .ok report =>
    let s := first.session
    if s.host.interrupted then .ended (giveUp site .failure false first.events report s)
    else if report.isBlocking then
      .ended (giveUp site .inhibitorsFound false first.events report s)
    else match mode with
      | .analyze => .ended (giveUp site .successful false first.events report s)
      | .convert =>
        let s : Session :=
          { s with host := { s.host with interrupted := s.host.interrupted || answer.interrupts } }
        if answer.accepts then .goOn report { s with undo := s.undo.commit.2 }
        else .ended (giveUp site .failure true first.events report s)

def arrive (site : Site) (events : List Event) (report : Report) (last : RunEnd) :
    ConversionEnd :=
  match last.report with
  | .error e => ⟨.error e, true, events ++ last.events, last.session⟩
  | .ok later =>
    let failed := later.isBlocking || last.session.host.interrupted
    let (outcome, s) := finish site (if failed then .failure else .successful) .after
      (report.extend later) last.session
    ⟨.ok outcome, true, events ++ last.events, s⟩

/-- Run the stages before the point of no return, then roll back or go on with those after it. -/
def runStages (site : Site) (r : Runner) (stamps : Stamps) (mode : Mode) (answer : Answer)
    (before after : List Stage) (s : Session) : ConversionEnd :=
  let first := r.run stamps.before [] before s
  match course site mode answer first with
  | .ended e => e
  | .goOn report s =>
    arrive site first.events report (r.run stamps.after (Levels.ofReports [report]) after s)

def run (site : Site) (r : Runner) (stamps : Stamps) (mode : Mode) (answer : Answer) (s : Session) :
    ConversionEnd :=
  runStages site r stamps mode answer (stagesBefore site) (stagesAfter site) s

end Conversion

end Changeover
