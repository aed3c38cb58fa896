import ProcessFormula.CommandLine.Binding

/-!
The arguments of the command line and what they ask for. Arguments are read from left to right,
first those of the program and, behind the name of a command, those of that command. An option that
takes a value waits for it; the value is checked when the next option or operand comes, or the end.
An argument that nobody knows is reported before that check.
-/

namespace ProcessFormula.CommandLine

inductive Switch where
  | verbose
  | noColor
  | config
  | version
  | help
  | bind
  | json
  | category
  deriving DecidableEq

namespace Switch

def long : Switch → String
  | .verbose => "verbose"
  | .noColor => "no-color"
  | .config => "config"
  | .version => "version"
  | .help => "help"
  | .bind => "var"
  | .json => "json"
  | .category => "category"

def short? : Switch → Option Char
  | .verbose => some 'v'
  | .config => some 'c'
  | .version => some 'V'
  | .help => some 'h'
  | _ => none

/-- What the value of the option is called, if it takes one. -/
def valueName? : Switch → Option String
  | .config => some "CONFIG"
  | .bind => some "NAME=VALUE"
  | .category => some "CATEGORY"
  | _ => none

def takesValue (s : Switch) : Bool := s.valueName?.isSome

def label (s : Switch) : String :=
  match s.valueName? with
  | some name => s!"--{s.long} <{name}>"
  | none => s!"--{s.long}"

end Switch

/-- Whose arguments are read: those of the program or those of a command. -/
inductive Level where
  | program
  | eval
  | vars
  | functions
  deriving DecidableEq

namespace Level

def switches : Level → List Switch
  | .program => [.verbose, .noColor, .config, .version, .help]
  | .eval => [.verbose, .noColor, .config, .help, .bind, .json]
  | .vars => [.verbose, .noColor, .config, .help]
  | .functions => [.verbose, .noColor, .config, .help, .category]

def takesFormula : Level → Bool
  | .eval => true
  | .vars => true
  | _ => false

def ofCommand? : String → Option Level
  | "eval" => some .eval
  | "vars" => some .vars
  | "functions" => some .functions
  | _ => none

def ofLong? (l : Level) (name : String) : Option Switch :=
  l.switches.find? fun s => s.long == name

def ofShort? (l : Level) (letter : Char) : Option Switch :=
  l.switches.find? fun s => s.short? == some letter

end Level

inductive UsageError where
  | unexpectedArgument (argument : String)
  | unknownCommand (name : String)
  | noCommand
  | noFormula
  | repeated (s : Switch)
  | noValue (s : Switch)
  | unexpectedValue (s : Switch) (value : String)
  | invalidBinding (argument : String) (fault : BindingFault)
  deriving DecidableEq

def UsageError.message : UsageError → String
  | .unexpectedArgument argument => s!"error: unexpected argument '{argument}' found"
  | .unknownCommand name => s!"error: unrecognized subcommand '{name}'"
  | .noCommand => "error: 'vformula' requires a subcommand but one was not provided"
  | .noFormula => "error: the following required arguments were not provided:"
  | .repeated s => s!"error: the argument '{s.label}' cannot be used multiple times"
  | .noValue s => s!"error: a value is required for '{s.label}' but none was supplied"
  | .unexpectedValue s value =>
    s!"error: unexpected value '{value}' for '{s.label}' found; no more were accepted"
  | .invalidBinding argument fault =>
    s!"error: invalid value '{argument}' for '{Switch.bind.label}': {fault.message argument}"

/-- Why there is no request: the arguments are wrong, there are none, or they ask about the program
itself. -/
inductive Interruption where
  | usage (e : UsageError)
  | nothing
  | help
  | version

/-- How an argument looks. A lone dash is a word, and so is everything without a dash. -/
inductive Shape where
  | separator
  | long (name : String) (value : Option String)
  | short (letters : List Char)
  | word

def Shape.of (argument : String) : Shape :=
  match argument.toList with
  | ['-', '-'] => .separator
  | '-' :: '-' :: s =>
    let (name, behind) := s.span (· != '=')
    .long (String.ofList name) (behind.tail?.map String.ofList)
  | ['-'] => .word
  | '-' :: letters => .short letters
  | _ => .word

/-- The arguments of one level as far as they are read. -/
structure Reading where
  flags : List Switch := []
  config : Option String := none
  category : Option String := none
  bindings : List Binding := []
  formula : Option String := none
  /-- The last option that takes a value, and the value once it is there, until both are checked. -/
  pending : Option (Switch × Option String) := none
  /-- Everything behind a separator is an operand. -/
  isSeparated : Bool := false

namespace Reading

/- The clock shows the times when bindings are read, one after the other. -/
variable (clock : Nat → Timestamp)

/-- Is the next word the value of an option? -/
def isWaiting (r : Reading) : Bool :=
  match r.pending with
  | some (_, none) => true
  | _ => false

def isEmpty (r : Reading) : Bool := r.flags.isEmpty && r.config.isNone

def fail {α : Type} (e : UsageError) : Except Interruption α := .error (.usage e)

def give (r : Reading) (s : Switch) (value : String) : Except Interruption Reading :=
  match s with
  | .config =>
    if r.config.isSome then fail (.repeated s)
    else if value.isEmpty then fail (.noValue s)
    else .ok { r with config := some value }
  | .category =>
    if r.category.isSome then fail (.repeated s) else .ok { r with category := some value }
  | _ =>
    match Binding.parse (clock r.bindings.length) value with
    | .ok b => .ok { r with bindings := r.bindings ++ [b] }
    | .error fault => fail (.invalidBinding value fault)

/-- Checks the option that is pending, if one is. -/
def settle (r : Reading) : Except Interruption Reading :=
  match r.pending with
  | none => .ok r
  | some (s, none) => fail (.noValue s)
  | some (s, some value) => { r with pending := none }.give clock s value

def flag (r : Reading) (s : Switch) : Except Interruption Reading := do
  let r ← r.settle clock
  match s with
  | .help => .error .help
  | .version => .error .version
  | _ => if r.flags.contains s then fail (.repeated s) else .ok { r with flags := r.flags ++ [s] }

/-- Takes an option whose value may stand in the same argument. -/
def option (r : Reading) (s : Switch) (value : Option String) : Except Interruption Reading := do
  let r ← r.settle clock
  match value with
  | some v => r.give clock s v
  | none => .ok { r with pending := some (s, none) }

def long (l : Level) (r : Reading) (name : String) (value : Option String) :
    Except Interruption Reading :=
  match l.ofLong? name with
  | none => fail (.unexpectedArgument ("--" ++ name))
  | some s =>
    if s.takesValue then r.option clock s value
    else
      match value with
      | some v => fail (.unexpectedValue s v)
      | none => r.flag clock s

/-- Takes options by their letters. Behind one that takes a value the rest is the value. -/
def short (l : Level) (r : Reading) : List Char → Except Interruption Reading
  | [] => .ok r
  | letter :: rest =>
    match l.ofShort? letter with
    | none => fail (.unexpectedArgument (String.ofList ['-', letter]))
    | some s =>
      if s.takesValue then
        match rest with
        | [] => r.option clock s none
        | '=' :: value => r.option clock s (some (String.ofList value))
        | value => r.option clock s (some (String.ofList value))
      else do short l (← r.flag clock s) rest

/-- Takes an operand. The only one is the formula, and the program itself has none. -/
def operand (l : Level) (r : Reading) (argument : String) : Except Interruption Reading := do
  if l.takesFormula && r.formula.isNone then
    return { (← r.settle clock) with formula := some argument }
  else if l = .program && !(r.isSeparated && (Level.ofCommand? argument).isSome) then
    fail (.unknownCommand argument)
  else fail (.unexpectedArgument argument)

def next (l : Level) (r : Reading) (argument : String) : Except Interruption Reading :=
  if r.isSeparated then r.operand clock l argument
  else
    match Shape.of argument, r.pending with
    | .separator, _ => .ok { r with isSeparated := true }
    | .long name value, _ => r.long clock l name value
    | .short letters, _ => r.short clock l letters
    | .word, some (s, none) => .ok { r with pending := some (s, some argument) }
    | .word, _ => r.operand clock l argument

def all (l : Level) (arguments : List String) : Except Interruption Reading := do
  let r ← arguments.foldlM (next clock l) {}
  r.settle clock

end Reading

inductive Task where
  | eval (formula : String) (bindings : List Binding) (asJson : Bool)
  | vars (formula : String)
  | functions (category : Option String)

structure Request where
  task : Task
  isVerbose : Bool
  noColor : Bool
  config : Option String

namespace Request

def taskOf (l : Level) (r : Reading) : Except Interruption Task :=
  match l, r.formula with
  | .functions, _ => .ok (.functions r.category)
  | .program, _ => Reading.fail .noCommand
  | _, none => Reading.fail .noFormula
  | .eval, some formula => .ok (.eval formula r.bindings (r.flags.contains .json))
  | .vars, some formula => .ok (.vars formula)

/-- Options count wherever they stand. Of two configuration files that of the command counts. -/
def combine (program command : Reading) (task : Task) : Request where
  task
  isVerbose := program.flags.contains .verbose || command.flags.contains .verbose
  noColor := program.flags.contains .noColor || command.flags.contains .noColor
  config := command.config.or program.config

/-- The arguments behind the command for help name a command to explain. -/
def explain : List String → Except Interruption Request
  | [] => .error .help
  | name :: _ =>
    if name = "help" || (Level.ofCommand? name).isSome then .error .help
    else Reading.fail (.unknownCommand name)

/-- Reads the arguments of the program up to the command, and then those of the command. The clock
shows the times when bindings are read. -/
def ofArguments (clock : Nat → Timestamp) (r : Reading) : List String → Except Interruption Request
  | [] => do
    let r ← r.settle clock
    if r.isEmpty then .error .nothing else Reading.fail .noCommand
  | argument :: rest =>
    let isOperand := r.isWaiting || r.isSeparated
    match Level.ofCommand? argument with
    | some l =>
      if isOperand then do ofArguments clock (← r.next clock .program argument) rest
      else do
        let command ← Reading.all clock l rest
        let task ← taskOf l command
        return combine (← r.settle clock) command task
    | none =>
      if argument = "help" && !isOperand then explain rest
      else do ofArguments clock (← r.next clock .program argument) rest

end Request

end ProcessFormula.CommandLine
