import ProcessFormula.Function.Basic
import ProcessFormula.Number.Transcendental

/-!
Mathematical functions. Outside its domain a function gives NaN or an infinity, as arithmetic does;
none of them fails.
-/

namespace ProcessFormula.Math

/-- The sign of a number as -1 or 1; zeros and NaN are their own sign. -/
def signum (x : Float) : Float :=
  if x == 0.0 || x.isNaN then x else if x < 0.0 then -1.0 else 1.0

def ofUnary (name : String) (f : Float → Float) (description : String) : Callable where
  name
  category := "math"
  description
  parameters := ["x"]
  arity := .exactly 1
  compute := fun _ => unary name f

def ofBinary (name : String) (f : Float → Float → Float) (parameters : List String)
    (description : String) : Callable where
  name
  category := "math"
  description
  parameters
  arity := .exactly 2
  compute := fun _ => binary name f

def pi : Float := 3.141592653589793

def e : Float := 2.718281828459045

def all : List Callable :=
  [ofUnary "abs" Float.abs "Absolute value",
    ofUnary "acos" Float.acos "Arc cosine",
    ofUnary "asin" Float.asin "Arc sine",
    ofUnary "atan" Float.atan "Arc tangent",
    ofUnary "ceil" Float.ceil "Round up",
    ofUnary "cos" Float.cos "Cosine (radians)",
    ofUnary "cosh" Float.cosh "Hyperbolic cosine",
    ofUnary "exp" Float.exp "e^x",
    ofUnary "expm1" Binary64.expm1 "e^x - 1",
    ofUnary "floor" Float.floor "Round down",
    ofUnary "log" Float.log "Natural logarithm",
    ofUnary "log10" Float.log10 "Base-10 logarithm",
    ofUnary "signum" signum "Sign of x: -1, 0 or 1",
    ofUnary "sin" Float.sin "Sine (radians)",
    ofUnary "sinh" Float.sinh "Hyperbolic sine",
    ofUnary "sqrt" Float.sqrt "Square root",
    ofUnary "tan" Float.tan "Tangent (radians)",
    ofUnary "tanh" Float.tanh "Hyperbolic tangent",
    ofUnary "toDegrees" (· * (180.0 / pi)) "Radians to degrees",
    ofUnary "toRadians" (· * (pi / 180.0)) "Degrees to radians",
    ofBinary "atan2" Float.atan2 ["y", "x"] "Angle of the point (x, y)",
    ofBinary "hypot" Binary64.hypot ["x", "y"] "sqrt(x^2 + y^2)",
    ofBinary "pow" Float.pow ["base", "exponent"] "base^exponent"]

end ProcessFormula.Math
