import ProcessFormula.Number.Binary64

/-!
Decimal numbers, the form in which doubles are read and written. A double is always a finite decimal
(`exact`), and `toFloat` gives the double nearest to a decimal.
-/

namespace ProcessFormula

/-- The number `coefficient * 10 ^ exponent`. -/
structure Decimal where
  coefficient : Nat
  exponent : Int

namespace Decimal

def ratio (d : Decimal) : Nat × Nat :=
  match d.exponent with
  | .ofNat k => (d.coefficient * Nat.pow 10 k, 1)
  | .negSucc k => (d.coefficient, Nat.pow 10 (k + 1))

/-- The bits of the double nearest to a decimal. A decimal of at least `10 ^ 310` or below
`10 ^ (-330)` is settled by its exponent alone, so that a huge exponent costs nothing. -/
def magnitude (d : Decimal) : Nat :=
  if d.coefficient = 0 then 0
  else if 310 < d.exponent then Binary64.infinityBits
  else if d.exponent + d.coefficient.log2 + 331 < 0 then 0
  else Binary64.magnitudeOf d.ratio.1 d.ratio.2

def toFloat (negative : Bool) (d : Decimal) : Float :=
  Binary64.ofMagnitude negative d.magnitude

/-- The decimal equal to `mantissa * 2 ^ exponent`. A negative power of two is a power of five over
a power of ten. -/
def exact (mantissa : Nat) (exponent : Int) : Decimal :=
  match exponent with
  | .ofNat k => ⟨mantissa * Nat.pow 2 k, 0⟩
  | .negSucc k => ⟨mantissa * Nat.pow 5 (k + 1), -(k + 1 : Int)⟩

def ofDigits (digits : List Char) : Nat :=
  digits.foldl (fun n c => 10 * n + (c.toNat - 48)) 0

def splitFraction : List Char → List Char × List Char
  | '.' :: s => s.span Char.isDigit
  | s => ([], s)

/-- Reads the exponent part that a decimal literal may end in; the whole text must be that part. -/
def exponentPart? : List Char → Option Int
  | [] => some 0
  | e :: s =>
    if e = 'e' ∨ e = 'E' then
      let (negative, digits) := match s with
        | '-' :: t => (true, t)
        | '+' :: t => (false, t)
        | t => (false, t)
      if digits.isEmpty || !digits.all Char.isDigit then none
      else some (if negative then -(ofDigits digits : Int) else ofDigits digits)
    else none

/-- Reads a decimal literal without a sign: digits with at most one point among or around them, at
least one digit, and an optional exponent. -/
def literal? (s : List Char) : Option Decimal :=
  let (whole, rest) := s.span Char.isDigit
  let (fraction, tail) := splitFraction rest
  if whole.isEmpty && fraction.isEmpty then none
  else (exponentPart? tail).map fun e => ⟨ofDigits (whole ++ fraction), e - fraction.length⟩

end Decimal

namespace Binary64

/-- Reads a number as it is given on a command line: a decimal literal, `nan`, `inf` or `infinity`
in any case, with an optional sign. -/
def ofText? (s : List Char) : Option Float :=
  let (negative, body) := match s with
    | '-' :: t => (true, t)
    | '+' :: t => (false, t)
    | t => (false, t)
  let lower := String.ofList (body.map Char.toLower)
  if lower = "nan" then some nan
  else if lower = "inf" ∨ lower = "infinity" then some (infinity negative)
  else (Decimal.literal? body).map (Decimal.toFloat negative)

end Binary64

end ProcessFormula
