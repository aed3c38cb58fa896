import ProcessFormula.Value.Basic

/-!
Functions that a formula can call. A function is a record: how it is named, listed and called, and
what it computes. The number of arguments is checked when a formula is compiled; a function that is
called with too few nevertheless answers with an error of its own.
-/

namespace ProcessFormula

inductive Arity where
  | exactly (n : Nat)
  | atLeast (n : Nat)
  deriving DecidableEq

namespace Arity

def accepts : Arity → Nat → Bool
  | .exactly n, count => count == n
  | .atLeast n, count => decide (n ≤ count)

def text : Arity → String
  | .exactly n => toString n
  | .atLeast n => s!"at least {n}"

end Arity

inductive ArgumentFault where
  | missing
  | notArray
  | notText
  | invalidRange (low high : Float)
  | decimalsNotFinite
  | outOfRange (index : Float) (count : Nat)
  | other (reason : String)

def ArgumentFault.message : ArgumentFault → String
  | .missing => "missing argument"
  | .notArray => "expected an array"
  | .notText => "expected text"
  | .invalidRange low high =>
    "invalid range [" ++ Layout.plain.text low ++ ", " ++ Layout.plain.text high ++ "]"
  | .decimalsNotFinite => "decimals must be a finite number"
  | .outOfRange index count =>
    "index " ++ Layout.plain.text index ++ " out of range for " ++ toString count ++ " elements"
  | .other reason => reason

inductive EvalError where
  | failed (function reason : String)
  | invalidArgument (function : String) (index : Nat) (fault : ArgumentFault)

def EvalError.message : EvalError → String
  | .failed function reason => s!"Function {function}: {reason}"
  | .invalidArgument function index fault =>
    s!"Function {function}: invalid argument {index}: {fault.message}"

/-- What a call takes from outside: the current time and a random number, at least zero and below
one. -/
structure Moment where
  now : Timestamp
  random : Float

/-- The moments of several calls, the earliest first. -/
abbrev Moments := Nat → Moment

def Moments.behind (m : Moments) (count : Nat) : Moments := fun i => m (count + i)

@[simp]
theorem Moments.behind_behind (m : Moments) (count more : Nat) :
    (m.behind count).behind more = m.behind (count + more) := by
  funext i
  simp [behind, Nat.add_assoc]

abbrev Evaluation := Except EvalError Value

structure Callable where
  name : String
  category : String
  description : String
  parameters : List String
  arity : Arity
  compute : Moment → List Value → Evaluation

namespace Callable

/-- The name with the parameters, and dots after them where more arguments are allowed. -/
def signature (f : Callable) : String :=
  let more := match f.arity with
    | .exactly _ => []
    | .atLeast _ => ["..."]
  f.name ++ "(" ++ ", ".intercalate (f.parameters ++ more) ++ ")"

end Callable

def argument (function : String) (args : List Value) (index : Nat) : Evaluation :=
  match args[index]? with
  | some v => .ok v
  | none => .error (.invalidArgument function index .missing)

/-- A function of one number. The result keeps the alarm and the time of the argument. -/
def unary (function : String) (f : Float → Float) (args : List Value) : Evaluation := do
  let v ← argument function args 0
  return v.withPayload (.scalar (f v.toFloat))

def binary (function : String) (f : Float → Float → Float) (args : List Value) : Evaluation := do
  let a ← argument function args 0
  let b ← argument function args 1
  return Value.combine (f a.toFloat b.toFloat) a b

end ProcessFormula
