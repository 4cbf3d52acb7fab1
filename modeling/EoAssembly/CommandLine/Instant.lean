/-!
Contract: the text of an instant, such as `2020-01-01T00:00:00.000Z`.

Owns `Instant.text`, from the milliseconds since the first day of 1970: the date
in the Gregorian calendar, counted in spans of 400 years that start in March, so
that a leap day is the last of its year.
-/

namespace EoAssembly.Instant

/-- The last `width` decimal digits of a number. -/
def digits (width value : Nat) : String :=
  let all := (toString value).toList
  String.ofList (List.replicate (width - all.length) '0' ++ all)

/-- The days between the start of the first span and the first day of 1970. -/
def offset : Nat := 719468

/-- The days of a span of 400 years. -/
def spanDays : Nat := 146097

/-- The year of a span that a day of it falls into, the years starting in March. -/
def yearOfSpan (day : Nat) : Nat := (day - day / 1460 + day / 36524 - day / 146096) / 365

/-- The year, the month and the day of the month of a day since the first day of 1970. -/
def date (day : Nat) : Nat × Nat × Nat :=
  let span := (day + offset) / spanDays
  let inSpan := (day + offset) % spanDays
  let year := yearOfSpan inSpan
  let inYear := inSpan - (365 * year + year / 4 - year / 100)
  let month := (5 * inYear + 2) / 153
  let dayOfMonth := inYear - (153 * month + 2) / 5 + 1
  if month < 10 then (span * 400 + year, month + 3, dayOfMonth)
  else (span * 400 + year + 1, month - 9, dayOfMonth)

/-- The text of an instant. -/
def text (milliseconds : Nat) : String :=
  let seconds := milliseconds / 1000
  let (year, month, day) := date (seconds / 86400)
  let time := seconds % 86400
  digits 4 year ++ "-" ++ digits 2 month ++ "-" ++ digits 2 day ++ "T"
    ++ digits 2 (time / 3600) ++ ":" ++ digits 2 (time / 60 % 60) ++ ":" ++ digits 2 (time % 60)
    ++ "." ++ digits 3 (milliseconds % 1000) ++ "Z"

/-- The hundredths of a second in milliseconds, as seconds with two places. -/
def secondsText (milliseconds : Nat) : String :=
  toString (milliseconds / 1000) ++ "." ++ digits 2 (milliseconds / 10 % 100)

end EoAssembly.Instant
