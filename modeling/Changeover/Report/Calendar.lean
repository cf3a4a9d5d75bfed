/-!
# Calendar dates

Dates of the proleptic Gregorian calendar, reckoned from a count of days.
-/

namespace Changeover

structure Date where
  year : Int
  month : Nat
  day : Nat
  deriving DecidableEq

namespace Date

/-- The date `days` after 1 January 1970. Years are counted from March, so that the day that leap
years add is the last of its year; 146097 days make four hundred years. -/
def ofDays (days : Int) : Date :=
  let shifted := days + 719468
  let era := shifted.fdiv 146097
  let dayOfEra := (shifted.fmod 146097).toNat
  let yearOfEra := (dayOfEra - dayOfEra / 1460 + dayOfEra / 36524 - dayOfEra / 146096) / 365
  let dayOfYear := dayOfEra - (365 * yearOfEra + yearOfEra / 4 - yearOfEra / 100)
  let m := (5 * dayOfYear + 2) / 153
  let month := if m < 10 then m + 3 else m - 9
  let year := era * 400 + yearOfEra + if month ≤ 2 then 1 else 0
  ⟨year, month, dayOfYear - (153 * m + 2) / 5 + 1⟩

end Date

def zeroPad (width n : Nat) : String :=
  let ds := toString n
  String.ofList (List.replicate (width - ds.length) '0') ++ ds

/-- Four digits for the years 0 to 9999; a sign in front of any other year. -/
def yearText (y : Int) : String :=
  if 0 ≤ y ∧ y ≤ 9999 then zeroPad 4 y.toNat
  else (if y < 0 then "-" else "+") ++ zeroPad 4 y.natAbs

def timeText (seconds : Int) : String :=
  let d := Date.ofDays (seconds.fdiv 86400)
  let s := (seconds.fmod 86400).toNat
  yearText d.year ++ "-" ++ zeroPad 2 d.month ++ "-" ++ zeroPad 2 d.day ++ " " ++
    zeroPad 2 (s / 3600) ++ ":" ++ zeroPad 2 (s / 60 % 60) ++ ":" ++ zeroPad 2 (s % 60) ++ " UTC"

end Changeover
