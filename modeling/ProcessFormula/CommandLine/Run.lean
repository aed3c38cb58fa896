import ProcessFormula.CommandLine.Arguments
import ProcessFormula.CommandLine.Report
import ProcessFormula.Config.Load

/-!
The program as a function of its arguments and of what surrounds it. Arguments are checked first,
then the configuration is loaded, and only then does the command look at its formula.
-/

namespace ProcessFormula.CommandLine

open Config

/-- All that the program sees besides its arguments. -/
structure Surroundings where
  files : Files
  environment : List (String × String)
  isTerminal : Bool
  /-- When the bindings among the arguments are read, one after the other. -/
  clock : Nat → Timestamp
  /-- When the formula is compiled. -/
  now : Timestamp
  /-- What the calls in the formula take from outside. -/
  moments : Moments

structure Outcome where
  exitCode : UInt32
  output : String
  errors : String

namespace Outcome

def success (output : String) : Outcome := ⟨0, output, ""⟩

def failure (what reason : String) : Outcome := ⟨1, "", Report.failure what reason⟩

def misuse (text : String) : Outcome := ⟨2, "", text⟩

end Outcome

def helpText : String :=
  Report.lines ["VoltageEMS formula tool", "",
    "Usage: vformula [OPTIONS] <COMMAND>", "", "Commands:",
    "  eval <FORMULA>       Compile a formula, bind values and print the result",
    "  vars <FORMULA>       List the variables a formula reads",
    "  functions            List the callable functions",
    "  help                 Print this help", "", "Options:",
    "  -v, --verbose        Enable verbose logging",
    "      --no-color       Disable colored output",
    "  -c, --config <FILE>  Configuration file",
    "      --var NAME=VALUE Variable value, for eval",
    "      --json           Print the result as JSON, for eval",
    "      --category <C>   Only functions of this category, for functions",
    "  -h, --help           Print help", "  -V, --version        Print version"]

def versionText : String := Report.lines ["vformula 0.1.0"]

/-- Are colours wanted? An environment variable with the value 0 says no. -/
def isColored (noColor : Bool) (s : Surroundings) : Bool :=
  let setting := fun name => (s.environment.lookup name).map (· != "0")
  let wanted := (setting "CLICOLOR").getD true && (setting "NO_COLOR").isNone && s.isTerminal
  !noColor && ((setting "CLICOLOR_FORCE").getD false || wanted)

def configuration (request : Request) (s : Surroundings) : Except Outcome RegistryConfig :=
  match request.config with
  | some path =>
    match loadFile s.files path with
    | .ok config => .ok config
    | .error e => .error (.failure s!"Failed to load {path}" e.message)
  | none =>
    match loadStandard s.files s.environment with
    | .ok config => .ok config
    | .error e => .error (.failure "Failed to load configuration" e.message)

def compile (registry : Registry) (now : Timestamp) (text : String) :
    Except Outcome (Formula × Store) :=
  match Formula.compile registry now .autoDetect [] text .empty with
  | .ok compiled => .ok compiled
  | .error e => .error (.failure s!"Cannot compile '{text}'" e.message)

def Task.run (colored : Bool) (registry : Registry) (now : Timestamp) (m : Moments) :
    Task → Except Outcome String
  | .eval text bindings asJson => do
    let (f, store) ← compile registry now text
    match f.eval (Binding.applyAll f bindings store) m with
    | .ok v =>
      return if asJson then Report.json v
        else Report.evaluation colored f (Binding.unbound f bindings) v
    | .error e => throw (.failure "Evaluation failed" e.message)
  | .vars text => do
    let (f, _) ← compile registry now text
    return Report.inputs colored f
  | .functions category =>
    let isListed := fun (f : Callable) => category.all (· == f.category)
    return Report.functions colored (registry.functions.filter isListed)

def Request.run (request : Request) (s : Surroundings) : Outcome :=
  let result := do
    let config ← configuration request s
    request.task.run (isColored request.noColor s) (Registry.ofConfig config) s.now s.moments
  match result with
  | .ok output => .success output
  | .error outcome => outcome

def run (arguments : List String) (s : Surroundings) : Outcome :=
  match Request.ofArguments s.clock {} arguments with
  | .ok request => request.run s
  | .error .help => .success helpText
  | .error .version => .success versionText
  | .error .nothing => .misuse helpText
  | .error (.usage e) => .misuse (Report.lines [e.message])

/-- The files that the program may look at, whenever it is started. -/
def wantedFiles (arguments : List String) : List String :=
  match Request.ofArguments (fun _ => ⟨0, 0⟩) {} arguments with
  | .ok { config := some path, .. } => [path]
  | .ok _ => standardFiles.map Prod.snd
  | .error _ => []

end ProcessFormula.CommandLine
