/-!
The alarm state of a process value. Combining keeps the worse of two alarms and, between equals, the
one that comes first; invalid and disconnected values are equally bad.
-/

namespace ProcessFormula

inductive Severity where
  | noAlarm
  | minor
  | major
  | invalid
  | disconnected
  deriving DecidableEq

namespace Severity

def rank : Severity → Nat
  | .noAlarm => 0
  | .minor => 1
  | .major => 2
  | .invalid => 3
  | .disconnected => 3

def label : Severity → String
  | .noAlarm => "NONE"
  | .minor => "MINOR"
  | .major => "MAJOR"
  | .invalid => "INVALID"
  | .disconnected => "DISCONNECTED"

def all : List Severity := [.noAlarm, .minor, .major, .invalid, .disconnected]

def ofLabel? (s : String) : Option Severity := all.find? fun severity => severity.label == s

theorem ofLabel?_label (s : Severity) : ofLabel? s.label = some s := by
  cases s <;> decide

end Severity

/-- A severity with the name of the condition that caused it. -/
structure Alarm where
  severity : Severity
  status : String
  deriving DecidableEq

namespace Alarm

def clear : Alarm := ⟨.noAlarm, "NONE"⟩

def disconnected : Alarm := ⟨.disconnected, "Disconnected"⟩

/-- The worse of two alarms, the first if they are equally bad. -/
def worst (a b : Alarm) : Alarm :=
  if a.severity.rank < b.severity.rank then b else a

/-- The worst of several alarms, the first of those equally bad, and no alarm for none. -/
def highest : List Alarm → Alarm
  | [] => clear
  | a :: rest => rest.foldl worst a

end Alarm

end ProcessFormula
