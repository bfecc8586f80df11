/-!
# The calendar

Years, months and days, and the text of a point in time that is given by the milliseconds since
the beginning of 1970.
-/

namespace ImportAtlas.Calendar

/-- Whether a year has a leap day. -/
def isLeapYear (year : Nat) : Bool := year % 4 == 0 && (year % 100 != 0 || year % 400 == 0)

/-- The number of days of a month. -/
def daysInMonth (year month : Nat) : Nat :=
  if month = 2 then (if isLeapYear year then 29 else 28)
  else if [4, 6, 9, 11].contains month then 30
  else 31

/-- The number of days of a year. -/
def daysInYear (year : Nat) : Nat := if isLeapYear year then 366 else 365

/-- A day of the calendar. -/
structure Date where
  year : Nat
  month : Nat
  day : Nat
deriving DecidableEq, Repr

namespace Date

/-- Whether there is such a day. -/
def isValid (d : Date) : Bool :=
  1 ≤ d.year && 1 ≤ d.month && d.month ≤ 12 && 1 ≤ d.day && d.day ≤ daysInMonth d.year d.month

/-- The day a number of days after the first of a month, which lies in one of a number of months
from that one on. -/
def inYear (year : Nat) : (months month days : Nat) → Date
  | 0, month, days => ⟨year, month, days + 1⟩
  | months + 1, month, days =>
    if days < daysInMonth year month then ⟨year, month, days + 1⟩
    else inYear year months (month + 1) (days - daysInMonth year month)

/-- The day a number of days after the beginning of a year, which lies in one of a number of years
from that one on. -/
def afterYear : (years year days : Nat) → Date
  | 0, year, days => inYear year 11 1 days
  | years + 1, year, days =>
    if days < daysInYear year then inYear year 11 1 days
    else afterYear years (year + 1) (days - daysInYear year)

/-- The day a number of days after the beginning of 1970. -/
def ofDays (days : Nat) : Date := afterYear (days / 365) 1970 days

end Date

/-- A number with zeros in front up to a width. -/
def padded (width n : Nat) : String :=
  let digits := (toString n).toList
  String.ofList (List.replicate (width - digits.length) '0' ++ digits)

/-- The text of a point in time, to the millisecond. -/
def timeText (milliseconds : Nat) : String :=
  let seconds := milliseconds / 1000
  let date := Date.ofDays (seconds / 86400)
  padded 4 date.year ++ "-" ++ padded 2 date.month ++ "-" ++ padded 2 date.day ++ "T" ++
    padded 2 (seconds / 3600 % 24) ++ ":" ++ padded 2 (seconds / 60 % 60) ++ ":" ++
    padded 2 (seconds % 60) ++ "." ++ padded 3 (milliseconds % 1000) ++ "Z"

end ImportAtlas.Calendar
