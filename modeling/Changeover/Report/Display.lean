import Changeover.Report.Calendar
import Changeover.Report.Summary

/-!
# The report on the terminal

A frame with the times and the status, a table with one row for each action, and the summary.
-/

namespace Changeover.Report

def durationText (milliseconds : Nat) : String :=
  let s := milliseconds / 1000
  if s ≥ 60 then s!"{s / 60}m {s % 60}s"
  else if milliseconds < 1000 then s!"{milliseconds}ms"
  else s!"{s}.{milliseconds % 1000 / 100}s"

def rule (c : Char) : String := String.ofList (List.replicate 72 c)

/-- The row of an entry. Levels are not padded. A diagnosis gets a row of its own. -/
def row (position : Nat) (e : ReportEntry) : List String :=
  let cells := "  " ++ Text.padRight 4 (toString position) ++ " " ++ Text.padRight 32 e.action ++
    " " ++ Text.padRight 18 e.stage ++ " " ++ e.result.level.name ++ " " ++
    durationText e.milliseconds
  if Level.success < e.result.level && !e.result.finding.diagnosis.isEmpty then
    [cells, "       -> " ++ e.result.finding.diagnosis]
  else [cells]

def tableHead : String :=
  "  " ++ Text.padRight 4 "#" ++ " " ++ Text.padRight 32 "ACTION" ++ " " ++
    Text.padRight 18 "STAGE" ++ " " ++ Text.padRight 12 "LEVEL" ++ " DURATION"

def rowsFrom : Nat → List ReportEntry → List String
  | _, [] => []
  | n, e :: es => row n e ++ rowsFrom (n + 1) es

def table (entries : List ReportEntry) : List String :=
  if entries.isEmpty then ["  (none)"] else tableHead :: rowsFrom 1 entries

def displayLines (r : Report) : List String :=
  ["", rule '=', "  CONVERSION REPORT", rule '=', "", "  Run ID:   " ++ r.run,
    "  Started:  " ++ timeText r.started] ++
  (r.completed.toList.map fun t => "  Finished: " ++ timeText t) ++
  ["  Status:   " ++ (if r.isBlocking then "BLOCKED" else "OK"), "", rule '-',
    s!"  ACTIONS ({r.entries.length})", rule '-', ""] ++
  table r.entries ++
  ["", rule '-', "  SUMMARY", rule '-', ""] ++
  (Text.lines r.summary).map ("  " ++ ·) ++
  [rule '=']

def display (r : Report) : String := String.join (r.displayLines.map (· ++ "\n"))

end Changeover.Report
