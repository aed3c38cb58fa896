import ProcessFormula.Value.Calendar

/-!
Instants as seconds and nanoseconds since 1 January 1970. Any pair of numbers is an instant, and
instants are ordered by seconds first; only some of them have a date. A second number of nanoseconds
beyond one second writes a leap second, which is possible in the last second of a minute.
-/

namespace ProcessFormula

structure Timestamp where
  seconds : Int64
  nanoseconds : UInt32
  deriving DecidableEq

namespace Timestamp

def before (a b : Timestamp) : Bool :=
  decide (a.seconds < b.seconds) ||
    (a.seconds == b.seconds && decide (a.nanoseconds < b.nanoseconds))

def latest (a b : Timestamp) : Timestamp := if a.before b then b else a

/-- The latest of several instants, and the current one for none. -/
def latestOf (now : Timestamp) : List Timestamp → Timestamp
  | [] => now
  | t :: rest => rest.foldl latest t

/-- A date and a time of day in UTC. The second is 60 during a leap second. -/
structure DateTime where
  date : Date
  hour : Nat
  minute : Nat
  second : Nat
  nanosecond : Nat

/-- The years in which instants have a date. -/
def hasYear (year : Int) : Bool := decide (-262143 ≤ year) && decide (year ≤ 262142)

def dateTime? (t : Timestamp) : Option DateTime :=
  let seconds := t.seconds.toInt
  let nanoseconds := t.nanoseconds.toNat
  let date := Date.ofDays (seconds / 86400)
  let ofDay := (seconds % 86400).toNat
  let leap := decide (1000000000 ≤ nanoseconds)
  if !hasYear date.year then none
  else if leap && (ofDay % 60 != 59 || decide (2000000000 ≤ nanoseconds)) then none
  else some {
    date
    hour := ofDay / 3600
    minute := ofDay / 60 % 60
    second := ofDay % 60 + if leap then 1 else 0
    nanosecond := if leap then nanoseconds - 1000000000 else nanoseconds }

def padded (width n : Nat) : String :=
  let digits := Nat.toDigits 10 n
  String.ofList (List.replicate (width - digits.length) '0' ++ digits)

/-- Years with four digits stand alone; all others have a sign. -/
def yearText (year : Int) : String :=
  if year < 0 then "-" ++ padded 4 year.natAbs
  else if 9999 < year then "+" ++ padded 4 year.natAbs
  else padded 4 year.natAbs

def DateTime.text (d : DateTime) : String :=
  yearText d.date.year ++ "-" ++ padded 2 d.date.month ++ "-" ++ padded 2 d.date.day ++
    "T" ++ padded 2 d.hour ++ ":" ++ padded 2 d.minute ++ ":" ++ padded 2 d.second ++
    "." ++ padded 9 d.nanosecond ++ "Z"

/-- The date and time of an instant, or its two numbers with a point between them. -/
def text (t : Timestamp) : String :=
  match t.dateTime? with
  | some d => d.text
  | none => toString t.seconds.toInt ++ "." ++ padded 9 t.nanoseconds.toNat

end Timestamp

end ProcessFormula
