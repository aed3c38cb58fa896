import ProcessFormula.Formula.Compile
import ProcessFormula.Text.Blank

/-!
Values that a command line gives to the variables of a formula, written `NAME=VALUE`. What reads as
a number is one, and everything else is text.
-/

namespace ProcessFormula.CommandLine

open Text

structure Binding where
  name : String
  value : Value

inductive BindingFault where
  | noEquals
  | noName
  deriving DecidableEq

def BindingFault.message (argument : String) : BindingFault → String
  | .noEquals => s!"expected NAME=VALUE, got '{argument}'"
  | .noName => s!"missing variable name in '{argument}'"

namespace Binding

/-- The value that stands behind the equals sign. A text keeps its blanks. -/
def payloadOf (raw : List Char) : Payload :=
  match Binary64.ofText? (trimBlanks raw) with
  | some x => .scalar x
  | none => .text (String.ofList raw)

/-- Reads a binding. The name ends at the first equals sign. The value has no alarm, and its time is
when it is read. -/
def parse (now : Timestamp) (argument : String) : Except BindingFault Binding :=
  let (before, behind) := argument.toList.span (· != '=')
  match behind with
  | [] => .error .noEquals
  | _ :: raw =>
    match trimBlanks before with
    | [] => .error .noName
    | name => .ok ⟨String.ofList name, payloadOf raw, .clear, now⟩

/-- Sets the variable that a binding names. A name that the formula does not use changes nothing. -/
def apply (f : Formula) (store : Store) (b : Binding) : Store :=
  match f.variableOf? b.name with
  | some v => store.write v b.value
  | none => store

def applyAll (f : Formula) (bindings : List Binding) (store : Store) : Store :=
  bindings.foldl (apply f) store

def unbound (f : Formula) (bindings : List Binding) : List String :=
  (f.inputs.map Variable.name).filter fun name => !bindings.any fun b => b.name == name

end Binding

end ProcessFormula.CommandLine
