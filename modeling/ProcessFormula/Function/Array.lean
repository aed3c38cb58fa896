import ProcessFormula.Function.Basic
import ProcessFormula.Number.Rounding

/-!
Functions of arrays. An array of choices counts as the array of its indexes.
-/

namespace ProcessFormula.ArrayFunction

def elements (function : String) (args : List Value) (index : Nat) :
    Except EvalError (List Float) := do
  let v ← argument function args index
  match v.payload with
  | .array data _ => return data
  | .choiceArray indexes _ => return indexes.map choiceNumber
  | _ => throw (.invalidArgument function index .notArray)

/-- A number computed from an array. It keeps the alarm and the time of the array. -/
def reduce (function : String) (f : List Float → Float) (args : List Value) : Evaluation := do
  let data ← elements function args 0
  let v ← argument function args 0
  return v.withPayload (.scalar (f data))

/-- The sum from the left. The sum of no numbers is negative zero, which is neutral also for the
sign of a zero. -/
def sum (data : List Float) : Float := data.foldl (· + ·) (-0.0)

def average (data : List Float) : Float :=
  if data.isEmpty then Binary64.nan else sum data / Binary64.ofNat data.length

def collect (m : Moment) (args : List Value) : Evaluation := do
  let _ ← argument "arrayOf" args 0
  return Value.derived m.now
    (.array (args.map Value.toFloat) [UInt64.ofNat args.length]) args

/-- The element at an index, which has to be a whole number inside the array. -/
def select (m : Moment) (args : List Value) : Evaluation := do
  let data ← elements "elementAt" args 0
  let index ← argument "elementAt" args 1
  match (Binary64.natural? index.toFloat).bind (data[·]?) with
  | some x => return Value.derived m.now (.scalar x) args
  | none => throw (.invalidArgument "elementAt" 1 (.outOfRange index.toFloat data.length))

def arrayOf : Callable where
  name := "arrayOf"
  category := "array"
  description := "Numeric array of the arguments"
  parameters := ["a"]
  arity := .atLeast 1
  compute := collect

def ofReduction (name : String) (f : List Float → Float) (description : String) : Callable where
  name
  category := "array"
  description
  parameters := ["array"]
  arity := .exactly 1
  compute := fun _ => reduce name f

def arraySum : Callable := ofReduction "arraySum" sum "Sum of the array elements"

def arrayMin : Callable :=
  ofReduction "arrayMin" (·.foldl Binary64.lesser Binary64.nan) "Smallest array element"

def arrayMax : Callable :=
  ofReduction "arrayMax" (·.foldl Binary64.greater Binary64.nan) "Largest array element"

def arrayAvg : Callable := ofReduction "arrayAvg" average "Average of the array elements"

def arrayLength : Callable :=
  ofReduction "arrayLength" (Binary64.ofNat ·.length) "Number of array elements"

def elementAt : Callable where
  name := "elementAt"
  category := "array"
  description := "Array element at a zero-based index"
  parameters := ["array", "index"]
  arity := .exactly 2
  compute := select

def all : List Callable :=
  [arrayOf, arraySum, arrayMin, arrayMax, arrayAvg, arrayLength, elementAt]

end ProcessFormula.ArrayFunction
