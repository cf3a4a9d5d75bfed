import Changeover.Finding.Codec
import Changeover.Report

/-!
# Reports as JSON

The outcomes under the ids of their actions, with all names in ascending order. An id that occurs
twice keeps its last outcome.
-/

namespace Changeover.Report

def formatVersion : String := "1.0"

/-- Level and finding with the fields in ascending order of their names. -/
def findingJson (l : Level) (f : Finding) : JsonTree := .record [
  ("description", .text f.description), ("diagnosis", .text f.diagnosis), ("id", .text f.id),
  ("level", l.encode), ("remediations", .text f.remediations), ("title", .text f.title),
  ("variables", .record (f.values.entries.map fun e => (e.1, .text e.2)))]

def entryJson (e : ReportEntry) : JsonTree := .record [
  ("messages", .array (e.messages.map fun m => findingJson m.level m.finding)),
  ("result", findingJson e.result.level e.result.finding)]

def outcomes (r : Report) : Dictionary ReportEntry :=
  .ofList (r.entries.map fun e => (e.action, e))

def toJson (r : Report) : JsonTree := .record [
  ("actions", .record (r.outcomes.entries.map fun e => (e.1, entryJson e.2))),
  ("format_version", .text formatVersion)]

end Changeover.Report
