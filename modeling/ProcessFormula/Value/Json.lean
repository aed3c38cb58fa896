import ProcessFormula.Json.Reader
import ProcessFormula.Json.Writer
import ProcessFormula.Value.Basic

/-!
The JSON form of a value: a record of payload, alarm and time, in which the payload is an object
whose one key names the kind of data. A number that is not finite is written as `null`, which is not
read back.
-/

namespace ProcessFormula

namespace Json

def ofFloat (x : Float) : Json := if x.isFinite then .number (Layout.json.text x) else .null

def ofInt (n : Int) : Json := .number (toString n)

def ofNat (n : Nat) : Json := .number (toString n)

end Json

namespace PixelFormat

def key : PixelFormat → String
  | .mono8 => "mono8"
  | .mono16 => "mono16"
  | .rgb8 => "rgb8"
  | .rgba8 => "rgba8"

def all : List PixelFormat := [.mono8, .mono16, .rgb8, .rgba8]

def ofKey? (s : String) : Option PixelFormat := all.find? fun f => f.key == s

theorem ofKey?_key (f : PixelFormat) : ofKey? f.key = some f := by
  cases f <;> decide

end PixelFormat

namespace Payload

def toJson : Payload → Json
  | .scalar x => .object [("scalar", .ofFloat x)]
  | .text s => .object [("text", .string s)]
  | .choice index choices =>
    .object [("enum", .object [("index", .ofInt index.toInt),
      ("choices", .array (choices.map .string))])]
  | .array data shape =>
    .object [("array", .object [("data", .array (data.map .ofFloat)),
      ("shape", .array (shape.map fun n => .ofNat n.toNat))])]
  | .choiceArray indexes choices =>
    .object [("enum_array", .object [("indexes", .array (indexes.map fun i => .ofInt i.toInt)),
      ("choices", .array (choices.map .string))])]
  | .statistics s =>
    .object [("statistics", .object [("average", .ofFloat s.average),
      ("std_dev", .ofFloat s.stdDev), ("min", .ofFloat s.min), ("max", .ofFloat s.max),
      ("count", .ofNat s.count.toNat)])]
  | .image i =>
    .object [("image", .object [("data", .array (i.data.map fun b => .ofNat b.toNat)),
      ("width", .ofNat i.width.toNat), ("height", .ofNat i.height.toNat),
      ("format", .string i.format.key)])]

def ofContent? (kind : String) (content : Json) : Option Payload :=
  match kind with
  | "scalar" => content.float?.map .scalar
  | "text" => content.string?.map .text
  | "enum" => do
    let [index, choices] ← content.fields? ["index", "choices"] | none
    return .choice (← index.int64?) (← choices.list? Json.string?)
  | "array" => do
    let [data, shape] ← content.fields? ["data", "shape"] | none
    return .array (← data.list? Json.float?) (← shape.list? Json.uint64?)
  | "enum_array" => do
    let [indexes, choices] ← content.fields? ["indexes", "choices"] | none
    return .choiceArray (← indexes.list? Json.int64?) (← choices.list? Json.string?)
  | "statistics" => do
    let [average, stdDev, min, max, count] ←
      content.fields? ["average", "std_dev", "min", "max", "count"] | none
    return .statistics ⟨← average.float?, ← stdDev.float?, ← min.float?, ← max.float?,
      ← count.uint32?⟩
  | "image" => do
    let [data, width, height, format] ←
      content.fields? ["data", "width", "height", "format"] | none
    return .image ⟨← data.list? Json.uint8?, ← width.uint32?, ← height.uint32?,
      ← format.caseName?.bind PixelFormat.ofKey?⟩
  | _ => none

def ofJson? : Json → Option Payload
  | .object [(kind, content)] => ofContent? kind content
  | _ => none

end Payload

namespace Value

def toJson (v : Value) : Json :=
  .object [("payload", v.payload.toJson),
    ("alarm", .object [("severity", .string v.alarm.severity.label),
      ("status", .string v.alarm.status)]),
    ("time", .object [("secs", .ofInt v.time.seconds.toInt),
      ("nanos", .ofNat v.time.nanoseconds.toNat)])]

def alarmOfJson? (j : Json) : Option Alarm := do
  let [severity, status] ← j.fields? ["severity", "status"] | none
  return ⟨← severity.caseName?.bind Severity.ofLabel?, ← status.string?⟩

def timeOfJson? (j : Json) : Option Timestamp := do
  let [seconds, nanoseconds] ← j.fields? ["secs", "nanos"] | none
  return ⟨← seconds.int64?, ← nanoseconds.uint32?⟩

def ofJson? (j : Json) : Option Value := do
  let [payload, alarm, time] ← j.fields? ["payload", "alarm", "time"] | none
  return ⟨← Payload.ofJson? payload, ← alarmOfJson? alarm, ← timeOfJson? time⟩

def ofJsonText? (text : String) : Option Value := (Json.parse? text).bind ofJson?

end Value

end ProcessFormula
