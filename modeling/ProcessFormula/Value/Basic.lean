import ProcessFormula.Value.Alarm
import ProcessFormula.Value.Payload
import ProcessFormula.Value.Timestamp

/-!
A process value: data with the alarm state and the time that go with it through every operation. An
operation over several values has the worst of their alarms and the latest of their times.
-/

namespace ProcessFormula

structure Value where
  payload : Payload
  alarm : Alarm
  time : Timestamp

namespace Value

def number (now : Timestamp) (x : Float) : Value := ⟨.scalar x, .clear, now⟩

def text (now : Timestamp) (s : String) : Value := ⟨.text s, .clear, now⟩

def withPayload (v : Value) (payload : Payload) : Value := { v with payload }

def withAlarm (v : Value) (alarm : Alarm) : Value := { v with alarm }

def withTime (v : Value) (time : Timestamp) : Value := { v with time }

def highestAlarm (values : List Value) : Alarm := Alarm.highest (values.map (·.alarm))

def latestTime (now : Timestamp) (values : List Value) : Timestamp :=
  Timestamp.latestOf now (values.map (·.time))

/-- The result of an operation over the given values. -/
def derived (now : Timestamp) (payload : Payload) (inputs : List Value) : Value :=
  ⟨payload, highestAlarm inputs, latestTime now inputs⟩

/-- The number that results from an operation over two values. -/
def combine (result : Float) (a b : Value) : Value :=
  ⟨.scalar result, a.alarm.worst b.alarm, a.time.latest b.time⟩

def toFloat (v : Value) : Float := v.payload.toFloat

/-- A value is true unless it reads as zero; NaN is true. -/
def isTrue (v : Value) : Bool := v.toFloat != 0.0

def asText? (v : Value) : Option String :=
  match v.payload with
  | .text s => some s
  | _ => none

def isText (v : Value) : Bool := v.asText?.isSome

def toText (v : Value) : String := v.payload.toText

def same (a b : Value) : Bool := a.payload.same b.payload && a.alarm == b.alarm && a.time == b.time

/-- The data, followed by the alarm if there is one. -/
def display (v : Value) : String :=
  if v.alarm.severity = .noAlarm then v.toText
  else s!"{v.toText} {v.alarm.severity.label} {v.alarm.status}"

end Value

end ProcessFormula
