import ProcessFormula.Function.Basic

/-!
The functions that every registry has: a random number, the least and the greatest argument.
-/

namespace ProcessFormula.Builtin

/-- The arguments as numbers, folded from the first on. -/
def fold (function : String) (f : Float → Float → Float) (m : Moment) (args : List Value) :
    Evaluation := do
  let first ← argument function args 0
  let result := (args.tail.map Value.toFloat).foldl f first.toFloat
  return Value.derived m.now (.scalar result) args

/-- A random number below the first argument; the other arguments have no effect. -/
def random (m : Moment) (args : List Value) : Evaluation :=
  unary "rnd" (m.random * ·) args

def rnd : Callable where
  name := "rnd"
  category := "builtin"
  description := "Random number in [0, max)"
  parameters := ["max"]
  arity := .atLeast 1
  compute := random

def min : Callable where
  name := "min"
  category := "builtin"
  description := "Smallest argument"
  parameters := ["a", "b"]
  arity := .atLeast 2
  compute := fold "min" Binary64.lesser

def max : Callable where
  name := "max"
  category := "builtin"
  description := "Largest argument"
  parameters := ["a", "b"]
  arity := .atLeast 2
  compute := fold "max" Binary64.greater

def all : List Callable := [rnd, min, max]

end ProcessFormula.Builtin
