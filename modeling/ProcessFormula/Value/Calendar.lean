/-!
Dates of the Gregorian calendar, extended without end in both directions, and the days they are
counted from. A year is counted from March here, so that the leap day is its last; 400 years always
have 146097 days.
-/

namespace ProcessFormula

/-- A day of the calendar. The year before year 1 is year 0. -/
structure Date where
  year : Int
  month : Nat
  day : Nat
  deriving DecidableEq

namespace Date

def daysPerCycle : Nat := 146097

/-- The years since March of a cycle's first year that are complete on a day of the cycle. -/
def yearOfCycle (day : Nat) : Nat :=
  (day - day / 1460 + day / 36524 - day / 146096) / 365

/-- The days of a cycle before the year with the given number, which begins in March. -/
def daysBeforeYear (year : Nat) : Nat := 365 * year + year / 4 - year / 100

/-- The month, counted from March, that a day of a year lies in. -/
def monthOfYear (day : Nat) : Nat := (5 * day + 2) / 153

/-- The days of a year before a month, both counted from March. -/
def daysBeforeMonth (month : Nat) : Nat := (153 * month + 2) / 5

/-- The date that lies `days` days after 1 January 1970. -/
def ofDays (days : Int) : Date :=
  let fromMarch := days + 719468
  let cycle := fromMarch / daysPerCycle
  let day := (fromMarch % daysPerCycle).toNat
  let year := yearOfCycle day
  let dayOfYear := day - daysBeforeYear year
  let month := monthOfYear dayOfYear
  { year := cycle * 400 + year + if month < 10 then 0 else 1
    month := if month < 10 then month + 3 else month - 9
    day := dayOfYear - daysBeforeMonth month + 1 }

end Date

end ProcessFormula
