import Changeover.Action.Catalog
import Changeover.Cli.Arguments
import Changeover.Config.Reader
import Changeover.Conversion
import Changeover.Packages.Yum
import Changeover.PidLock
import Changeover.Report.Display

/-!
# Commands

What each command prints, what it leaves on the host, and how it exits. A host is converted and
analysed under a lock, which is given back at the end.
-/

namespace Changeover.Cli

/-- What a command is told from outside. -/
structure Surroundings where
  pid : Nat
  stamps : Stamps
  answer : Answer := ⟨false, false⟩

structure CommandEnd where
  exit : Nat := 0
  output : String := ""
  errors : String := ""
  asked : Bool := false
  reported : Bool := false
  host : Host

def unlines (ls : List String) : String := String.join (ls.map (· ++ "\n"))

def failed (f : Fault) (h : Host) : CommandEnd :=
  { exit := 1, errors := s!"Error: {f.full}\n", host := h }

def siteOf (c : Config) : Site := { config := c, manager := c.manager.manager }

/-! ## Listing and validating -/

def listRow (id stage dependencies : String) : String :=
  Text.padRight 28 id ++ " " ++ Text.padRight 18 stage ++ " " ++ dependencies

def entryRow (e : CatalogEntry) : String :=
  listRow e.id e.stage (if e.dependencies.isEmpty then "-" else ", ".intercalate e.dependencies)

def listing (site : Site) (stage : Option String) : List String :=
  let shown := (catalog site).filter fun e => stage.all (e.stage == ·)
  listRow "ACTION" "STAGE" "DEPENDENCIES" :: String.ofList (List.replicate 80 '-') ::
    shown.map entryRow

def stageLine (s : JobStage) (p : StagePlan) : String :=
  s!"  Stage '{p.name}': " ++ " -> ".intercalate (p.order.filterMap (s.ids[·]?))

def validation (c : Config) : List String × Bool :=
  let stages := (stagesBefore (siteOf c) ++ stagesAfter (siteOf c)).map Stage.jobs
  let counts := ["  Config: OK", s!"    Backup files: {c.backupFiles.length}",
    s!"    Created files: {c.createdFiles.length}",
    s!"    Vendor packages: {c.vendorPackages.length}"]
  match plan stages [] with
  | .ok plans =>
    (counts ++ (stages.zip plans).map (fun (s, p) => stageLine s p) ++ ["", "Validation PASSED"],
      true)
  | .error e => (counts ++ ["", "Validation FAILED: " ++ e.message], false)

def validate (path : Path) (config : Except ConfigError Config) (h : Host) : CommandEnd :=
  let head := s!"Validating {path.text}..."
  match config with
  | .error e =>
    let line := "  Config: INVALID - " ++ e.toFault.full
    { exit := 1, output := unlines [head, line], host := h }
  | .ok c =>
    let (lines, valid) := validation c
    { exit := if valid then 0 else 1, output := unlines (head :: lines), host := h }

/-! ## Converting -/

def outcomeText (o : Outcome) : String :=
  o.report.display ++ "\n" ++ unlines (o.reportFiles.map ("Report written to " ++ ·.text))

def rollbackText (failures : List String) : String :=
  if failures.isEmpty then ""
  else unlines ("Rollback failed for:" :: failures.map ("  - " ++ ·))

/-- Give a lock back. That this fails changes nothing. -/
def unlock (l : PidLock) (h : Host) : Host := { h with files := (l.release h.files).2 }

def convert (w : Surroundings) (mode : Mode) (c : Config) (settings : Settings) (h : Host) :
    CommandEnd :=
  match PidLock.acquire h.files c.lockDirectory "crossgrade" w.pid with
  | (.error e, fs) => failed e.toFault { h with files := fs }
  | (.ok lock, fs) =>
    let session : Session := { host := { h with files := fs } }
    let done := Conversion.run (siteOf c) (.ofSettings settings) w.stamps mode w.answer session
    let host := unlock lock done.session.host
    match done.outcome with
    | .error e => failed ⟨e.message, []⟩ host
    | .ok o => {
      exit := o.status.code
      output := outcomeText o
      errors := rollbackText o.rollbackFailures
      asked := done.asked
      reported := true
      host }

def widen (s : Settings) (allowOverridable parallel : Bool) : Settings :=
  ⟨s.allowOverridable || allowOverridable, s.parallel || parallel⟩

def helpText : String := unlines [
  "Crossgrade - convert a host between compatible operating system distributions", "",
  "Usage: crossgrade [OPTIONS] <COMMAND>", "",
  "Commands: convert, analyze, list-actions, validate, help"]

def versionText : String := "crossgrade 0.1.0\n"

def withConfig (config : Except ConfigError Config) (h : Host) (go : Config → CommandEnd) :
    CommandEnd :=
  match config with
  | .error e => failed e.toFault h
  | .ok c => go c

def runCommand (w : Surroundings) (path : Path) (h : Host) (command : Command) : CommandEnd :=
  let config := Config.ofFile h.environment h.files path
  match command with
  | .validate => validate path config h
  | .listActions stage => withConfig config h fun c =>
      { output := unlines (listing (siteOf c) stage), host := h }
  | .analyze allow => withConfig config h fun c =>
      convert w .analyze c (widen c.settings allow false) h
  | .convert yes allow parallel => withConfig config h fun c =>
      let w := if yes then { w with answer := ⟨true, false⟩ } else w
      let done := convert w .convert c (widen c.settings allow parallel) h
      { done with asked := done.asked && !yes }

def run (w : Surroundings) (args : List String) (h : Host) : CommandEnd :=
  match invocation h.environment args with
  | .error .help => { output := helpText, host := h }
  | .error .version => { output := versionText, host := h }
  | .error .misused => { exit := 2, errors := helpText, host := h }
  | .ok i => runCommand w i.config h i.command

end Changeover.Cli
