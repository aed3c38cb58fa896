import ProcessFormula.Function.Basic

/-!
Functions that read or raise alarms.
-/

namespace ProcessFormula.AlarmFunction

/-- The name of the worst severity among the arguments, under that alarm. -/
def nameHighest (m : Moment) (args : List Value) : Evaluation := do
  let _ ← argument "highestSeverity" args 0
  let alarm := Value.highestAlarm args
  return ⟨.text alarm.severity.label, alarm, Value.latestTime m.now args⟩

/-- One with an alarm of the given severity if the condition holds, otherwise zero without alarm.
The second argument is the alarm's status; only the condition gives the time. -/
def raise (function : String) (severity : Severity) (args : List Value) : Evaluation := do
  let condition ← argument function args 0
  let status ← argument function args 1
  return if condition.isTrue then ⟨.scalar 1.0, ⟨severity, status.toText⟩, condition.time⟩
    else ⟨.scalar 0.0, .clear, condition.time⟩

def highestSeverity : Callable where
  name := "highestSeverity"
  category := "alarm"
  description := "Name of the highest alarm severity among the arguments"
  parameters := ["a"]
  arity := .atLeast 1
  compute := nameHighest

def majorAlarm : Callable where
  name := "majorAlarm"
  category := "alarm"
  description := "1 with a MAJOR alarm if the condition holds, else 0 without alarm"
  parameters := ["condition", "message"]
  arity := .exactly 2
  compute := fun _ => raise "majorAlarm" .major

def minorAlarm : Callable where
  name := "minorAlarm"
  category := "alarm"
  description := "1 with a MINOR alarm if the condition holds, else 0 without alarm"
  parameters := ["condition", "message"]
  arity := .exactly 2
  compute := fun _ => raise "minorAlarm" .minor

def all : List Callable := [highestSeverity, majorAlarm, minorAlarm]

end ProcessFormula.AlarmFunction
