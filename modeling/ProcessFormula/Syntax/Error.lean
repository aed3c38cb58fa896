import ProcessFormula.Function.Basic

/-!
Why formula text is refused. A fault is the cause; a compile error adds the text and the position at
which reading stopped, counted in characters.
-/

namespace ProcessFormula

inductive Quoted where
  | string
  | variableName
  deriving DecidableEq

def Quoted.text : Quoted → String
  | .string => "string"
  | .variableName => "variable name"

inductive Expected where
  | operand
  | closingParenthesis
  | branchColon
  | notEqual
  | equal
  deriving DecidableEq

def Expected.text : Expected → String
  | .operand => "an operand"
  | .closingParenthesis => "closing ')'"
  | .branchColon => "':' to follow the (cond) ? ..."
  | .notEqual => "'!='"
  | .equal => "'=='"

inductive Fault where
  | unknownVariable (name : String)
  | unknownFunction (name : String)
  | arityMismatch (signature : String) (expected : Arity) (found : Nat)
  | malformedNumber (text : String)
  | unexpectedToken (expected : Expected) (found : String)
  | unexpectedEnd
  | unterminatedQuote (quoted : Quoted)
  | trailingInput (rest : String)
  | tooDeep (limit : Nat)
  | colonInName (name : String)
  | unreadable (reason : String)
  deriving DecidableEq

/-- The one wording of each fault. -/
def Fault.message : Fault → String
  | .unknownVariable name => s!"Unknown variable '{name}'"
  | .unknownFunction name => s!"Unknown function '{name}'"
  | .arityMismatch signature expected found =>
    s!"Function {signature} takes {expected.text} arguments but received {found}"
  | .malformedNumber text => s!"Invalid number '{text}': invalid float literal"
  | .unexpectedToken expected found => s!"Expected {expected.text}, found '{found}'"
  | .unexpectedEnd => "Unexpected end of formula"
  | .unterminatedQuote quoted => s!"Unexpected end of quoted {quoted.text}"
  | .trailingInput rest => s!"Parse error at '{rest}'"
  | .tooDeep limit => s!"Formula nested deeper than {limit} levels"
  | .colonInName name =>
    s!"Expected ':' to follow the (cond) ? ..., but '{name}' was read as one name; " ++
      "quote names containing ':'"
  | .unreadable reason => s!"Failed to read formula: {reason}"

structure CompileError where
  fault : Fault
  formula : String
  position : Nat
  deriving DecidableEq

def CompileError.message (e : CompileError) : String :=
  s!"{e.fault.message} (formula '{e.formula}', position {e.position})"

end ProcessFormula
