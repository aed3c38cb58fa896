import ProcessFormula.Json.Basic
import ProcessFormula.Number.Decimal

/-!
Numbers in JSON. An integer has neither a point nor an exponent. A double is read fast rather than
exactly: as many digits as fit into 64 bits make the significand, the digits after them are dropped,
and one multiplication or division by a power of ten finishes it. The result may be a unit in the
last place away from the nearest double, and is an error instead of an infinity.
-/

namespace ProcessFormula.Json

structure Literal where
  negative : Bool
  whole : List Char
  fraction : List Char
  exponent : Int
  /-- Is there a point or an exponent? -/
  isInteger : Bool

def Literal.ofText (s : List Char) : Literal :=
  let (negative, body) := match s with
    | '-' :: t => (true, t)
    | t => (false, t)
  let (whole, rest) := body.span Char.isDigit
  let (fraction, tail) := Decimal.splitFraction rest
  { negative, whole, fraction
    exponent := (Decimal.exponentPart? tail).getD 0
    isInteger := rest.isEmpty }

/-- Extends a significand by digits as long as it fits into 64 bits. The digits that are left over
are returned. -/
def absorb (significand : Nat) : List Char → Nat × List Char
  | [] => (significand, [])
  | c :: rest =>
    let next := 10 * significand + (c.toNat - 48)
    if next < Nat.pow 2 64 then absorb next rest else (significand, c :: rest)

/-- Division by a power of ten. Powers beyond the largest double are divided out in steps, which
stop at zero. -/
def divideByPower (x : Float) (n : Nat) : Float :=
  if n ≤ 308 then x / Binary64.ofNat (Nat.pow 10 n)
  else if x == 0.0 then x
  else divideByPower (x / Binary64.ofNat (Nat.pow 10 308)) (n - 308)
termination_by n
decreasing_by omega

/-- `significand * 10 ^ exponent` in one operation, if it is not too large. -/
def fromParts (significand : Nat) (exponent : Int) : Option Float :=
  let x := Binary64.ofNat significand
  match exponent with
  | .ofNat n =>
    if n ≤ 308 then
      let y := x * Binary64.ofNat (Nat.pow 10 n)
      if y.isFinite then some y else none
    else if significand = 0 then some x else none
  | .negSucc n => some (divideByPower x (n + 1))

/-- The size of the double that a literal stands for. An exponent beyond 32 bits is as good as
infinite. -/
def Literal.size? (l : Literal) : Option Float :=
  let (significand, dropped) := absorb 0 l.whole
  let (significand, unused) := absorb significand l.fraction
  let places := l.fraction.length - unused.length
  if 2147483647 < l.exponent.natAbs then
    if significand ≠ 0 ∧ 0 < l.exponent then none else some 0.0
  else fromParts significand (dropped.length - places + l.exponent)

def float? : Json → Option Float
  | .number literal =>
    let l := Literal.ofText literal.toList
    l.size?.map fun x => if l.negative then -x else x
  | _ => none

/-- The integer that a number literal writes, if it is one of 64 bits, with or without a sign. The
literal `-0` is none. -/
def integer? : Json → Option Int
  | .number literal =>
    let l := Literal.ofText literal.toList
    let n := Decimal.ofDigits l.whole
    if !l.isInteger then none
    else if l.negative then
      if n ≠ 0 ∧ n ≤ Nat.pow 2 63 then some (-(n : Int)) else none
    else if n < Nat.pow 2 64 then some n else none
  | _ => none

def integerIn? (least greatest : Int) (j : Json) : Option Int :=
  j.integer?.filter fun n => decide (least ≤ n) && decide (n ≤ greatest)

def int64? (j : Json) : Option Int64 :=
  (j.integerIn? Int64.minValue.toInt Int64.maxValue.toInt).map Int64.ofInt

def uint64? (j : Json) : Option UInt64 :=
  (j.integerIn? 0 (UInt64.size - 1 : Nat)).map fun n => UInt64.ofNat n.toNat

def uint32? (j : Json) : Option UInt32 :=
  (j.integerIn? 0 (UInt32.size - 1 : Nat)).map fun n => UInt32.ofNat n.toNat

def uint8? (j : Json) : Option UInt8 :=
  (j.integerIn? 0 255).map fun n => UInt8.ofNat n.toNat

end ProcessFormula.Json
