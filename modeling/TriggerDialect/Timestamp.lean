import TriggerDialect.Text.Decimal

/-!
# Timestamps

A moment is a number of nanoseconds since the start of 1970, in universal time.
-/

namespace TriggerDialect.Timestamp

/-- A number with zeros in front up to a width. -/
def padded (width n : Nat) : String :=
  let digits := Text.decimalChars n
  String.ofList (List.replicate (width - digits.length) '0' ++ digits)

/-- Year, month and day of a day counted from the start of 1970. Years are counted from March, so
that a leap day is the last of its year, in cycles of 400 years. -/
def date (day : Nat) : Nat × Nat × Nat :=
  let shifted := day + 719468
  let cycle := shifted / 146097
  let inCycle := shifted % 146097
  let year := (inCycle - inCycle / 1460 + inCycle / 36524 - inCycle / 146096) / 365
  let inYear := inCycle - (365 * year + year / 4 - year / 100)
  let month := (5 * inYear + 2) / 153
  let dayOfMonth := inYear - (153 * month + 2) / 5 + 1
  if month < 10 then (400 * cycle + year, month + 3, dayOfMonth)
  else (400 * cycle + year + 1, month - 9, dayOfMonth)

/-- The fraction of a second in as many groups of three digits as it needs. -/
def fraction (nanoseconds : Nat) : String :=
  if nanoseconds = 0 then ""
  else if nanoseconds % 1000000 = 0 then "." ++ padded 3 (nanoseconds / 1000000)
  else if nanoseconds % 1000 = 0 then "." ++ padded 6 (nanoseconds / 1000)
  else "." ++ padded 9 nanoseconds

/-- A moment as date, time of day and distance to universal time. -/
def text (moment : Nat) : String :=
  let seconds := moment / 1000000000
  let (year, month, day) := date (seconds / 86400)
  padded 4 year ++ "-" ++ padded 2 month ++ "-" ++ padded 2 day ++ "T" ++
    padded 2 (seconds / 3600 % 24) ++ ":" ++ padded 2 (seconds / 60 % 60) ++ ":" ++
    padded 2 (seconds % 60) ++ fraction (moment % 1000000000) ++ "+00:00"

example : text 951827696000000000 = "2000-02-29T12:34:56+00:00" := by decide +kernel

end TriggerDialect.Timestamp
