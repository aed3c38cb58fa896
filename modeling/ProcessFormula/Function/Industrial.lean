import ProcessFormula.Function.Basic
import ProcessFormula.Number.Rounding

/-!
Scaling, limiting and rounding of process values.
-/

namespace ProcessFormula.Industrial

/-- The sign of a number as -1, 0 or 1; NaN counts as zero. -/
def sign (x : Float) : Float := if 0.0 < x then 1.0 else if x < 0.0 then -1.0 else 0.0

/-- A number brought into a range; NaN stays. -/
def limit (low high x : Float) : Float :=
  let x := if x < low then low else x
  if high < x then high else x

def clampTo (m : Moment) (args : List Value) : Evaluation := do
  let value ← argument "clamp" args 0
  let low ← argument "clamp" args 1
  let high ← argument "clamp" args 2
  if low.toFloat.isNaN || high.toFloat.isNaN || high.toFloat < low.toFloat then
    throw (.invalidArgument "clamp" 1 (.invalidRange low.toFloat high.toFloat))
  return Value.derived m.now (.scalar (limit low.toFloat high.toFloat value.toFloat)) args

/-- Beyond this many decimal places the power of ten is zero or infinite in any case. -/
def mostDecimals : Float := 400.0

/-- From this size on every double is whole. -/
def leastWhole : Float := 4503599627370496.0

/-- A number rounded to decimal places, a half going away from zero. It is multiplied by a power of
ten, rounded to a whole number and divided again. Where the product is too large to have digits
behind the point the number has none to lose and stays; where the power itself is zero no finite
number has a digit that is kept. -/
def roundTo (decimals x : Float) : Float :=
  let places := Binary64.truncate (limit (-mostDecimals) mostDecimals decimals)
  let factor := Binary64.powerOfTen places
  let scaled := x * factor
  if factor == 0.0 && x.isFinite then 0.0
  else if !scaled.isFinite || leastWhole ≤ scaled.abs then x
  else Binary64.roundHalfAway scaled / factor

/-- Rounds to the places that the second argument gives, to whole numbers without one. -/
def roundValue (m : Moment) (args : List Value) : Evaluation := do
  let value ← argument "round" args 0
  let decimals := (args[1]?.map Value.toFloat).getD 0.0
  if !decimals.isFinite then
    throw (.invalidArgument "round" 1 .decimalsNotFinite)
  return Value.derived m.now (.scalar (roundTo decimals value.toFloat)) args

def scale : Callable where
  name := "scale"
  category := "industrial"
  description := "Multiply a value by a factor"
  parameters := ["value", "factor"]
  arity := .exactly 2
  compute := fun _ => binary "scale" (· * ·)

def clamp : Callable where
  name := "clamp"
  category := "industrial"
  description := "Limit a value to [min, max]"
  parameters := ["value", "min", "max"]
  arity := .exactly 3
  compute := clampTo

def signOf : Callable where
  name := "sign"
  category := "industrial"
  description := "Sign function: -1, 0, or 1"
  parameters := ["value"]
  arity := .exactly 1
  compute := fun _ => unary "sign" sign

def round : Callable where
  name := "round"
  category := "industrial"
  description := "Round to the given number of decimal places (default 0)"
  parameters := ["value"]
  arity := .atLeast 1
  compute := roundValue

def all : List Callable := [scale, clamp, signOf, round]

end ProcessFormula.Industrial
