import ProcessFormula.CommandLine.Binding
import ProcessFormula.Function.Registry
import ProcessFormula.Value.Json

/-!
What commands print. Parts of a report have styles, which a terminal shows as colours; without
colours the text stands alone. JSON output and names of variables have no style.
-/

namespace ProcessFormula.CommandLine

inductive Style where
  | heading
  | warning
  | strong
  | faint
  | severity (s : Severity)

namespace Style

/-- The parameter of the escape sequence that turns the style on. -/
def code : Style → String
  | .heading => "96"
  | .warning => "33"
  | .strong => "1"
  | .faint => "2"
  | .severity .noAlarm => "32"
  | .severity .minor => "33"
  | .severity .major => "31"
  | .severity .invalid => "35"
  | .severity .disconnected => "35"

def start (s : Style) : String := "\x1b[" ++ s.code ++ "m"

def stop : String := "\x1b[0m"

end Style

def padded (width : Nat) (text : String) : String :=
  text ++ String.ofList (List.replicate (width - text.length) ' ')

/-- A text of at least the given width in a style. Where the text itself turns styles off, the style
is turned on again. -/
def paint (colored : Bool) (style : Style) (width : Nat) (text : String) : String :=
  if colored then
    style.start ++ padded width (text.replace Style.stop (Style.stop ++ style.start)) ++ Style.stop
  else padded width text

namespace Report

def lines (l : List String) : String := String.join (l.map (· ++ "\n"))

def evaluation (colored : Bool) (f : Formula) (unbound : List String) (v : Value) : String :=
  let heading := paint colored .heading 0
  let warning := fun name => paint colored .warning 0 "WARN" ++ s!" {name} is unbound (NaN)"
  let severity := paint colored (.severity v.alarm.severity) 0 v.alarm.severity.label
  lines ([heading "Formula:" ++ " " ++ f.text] ++ unbound.map warning ++
    [heading "Result:" ++ " " ++ paint colored .strong 0 v.toText,
      heading "Alarm:" ++ " " ++ severity ++ " " ++ v.alarm.status,
      heading "Time:" ++ " " ++ v.time.text])

def json (v : Value) : String := lines [v.toJson.pretty 0]

def inputs (colored : Bool) (f : Formula) : String :=
  if f.inputs.isEmpty then lines [paint colored .faint 0 "No variables"]
  else lines (f.inputs.map Variable.name)

def functions (colored : Bool) (l : List Callable) : String :=
  let row := fun (f : Callable) =>
    s!"{paint colored .strong 32 f.signature} {paint colored .faint 12 f.category} {f.description}"
  if l.isEmpty then lines [paint colored .faint 0 "No functions"] else lines (l.map row)

/-- What failed and the reason, which is indented. -/
def failure (what reason : String) : String :=
  s!"Error: {what}\n\nCaused by:\n    " ++ reason.replace "\n" "\n    " ++ "\n"

end Report

end ProcessFormula.CommandLine
