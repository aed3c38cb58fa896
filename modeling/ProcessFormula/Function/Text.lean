import ProcessFormula.Function.Basic

/-!
Functions of texts.
-/

namespace ProcessFormula.TextFunction

def join (m : Moment) (args : List Value) : Evaluation := do
  let _ ← argument "concat" args 0
  return Value.derived m.now (.text (String.join (args.map Value.toText))) args

/-- The number of characters of a text. Numbers are not turned into texts here. -/
def measure (args : List Value) : Evaluation := do
  let v ← argument "length" args 0
  match v.asText? with
  | some s => return v.withPayload (.scalar (Binary64.ofNat s.length))
  | none => throw (.invalidArgument "length" 0 .notText)

def concat : Callable where
  name := "concat"
  category := "text"
  description := "Concatenate the textual forms of the arguments"
  parameters := ["a"]
  arity := .atLeast 1
  compute := join

def length : Callable where
  name := "length"
  category := "text"
  description := "Number of characters in a text"
  parameters := ["text"]
  arity := .exactly 1
  compute := fun _ => measure

def all : List Callable := [concat, length]

end ProcessFormula.TextFunction
