import Changeover.Report
import Changeover.Text.Blank

/-!
# The text summary of a report

Findings grouped by level, most severe first. Successful results are left out. Within a level the
order is that of the report, each result before the messages of its action.
-/

namespace Changeover.Report

structure Line where
  level : Level
  text : String
  deriving DecidableEq

/-- How a finding of an action reads. The id is left out where it says nothing new. -/
def line (action : String) (level : Level) (f : Finding) : Line :=
  let head :=
    if f.id.isEmpty || f.id == action then s!"({level.name}) {action}"
    else s!"({level.name}) {action}::{f.id}"
  let rest :=
    if f.title.isEmpty && f.description.isEmpty then "[No further information given]"
    else if f.description.isEmpty then f.title
    else if f.title.isEmpty then f.description
    else f.title ++ ": " ++ f.description
  ⟨level, head ++ " - " ++ rest⟩

def entryLines (e : ReportEntry) : List Line :=
  line e.action e.result.level e.result.finding ::
    e.messages.map fun m => line e.action m.level m.finding

structure Group where
  level : Level
  texts : List String
  deriving DecidableEq

/-- Add a line at the end of its group. Groups are kept most severe first. -/
def addLine : List Group → Line → List Group
  | [], l => [⟨l.level, [l.text]⟩]
  | g :: gs, l =>
    if l.level = g.level then { g with texts := g.texts ++ [l.text] } :: gs
    else if g.level < l.level then ⟨l.level, [l.text]⟩ :: g :: gs
    else g :: addLine gs l

def groups (r : Report) : List Group :=
  ((r.entries.flatMap entryLines).filter (Level.success < ·.level)).foldl addLine []

def noProblems : String := "No problems detected during the analysis!\n"

def block (g : Group) : String :=
  s!"========== {g.level.name} ==========\n" ++ String.join (g.texts.map (· ++ "\n")) ++ "\n"

def summary (r : Report) : String :=
  match r.groups with
  | [] => noProblems
  | gs => String.join (gs.map block)

end Changeover.Report
