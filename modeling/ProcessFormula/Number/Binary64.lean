/-!
Doubles as exact numbers. `read` says which number the bits of a double stand for, and `nearest`
goes the other way: it gives the double closest to a quotient of two natural numbers, a half going
to the neighbour whose last bit is zero. Everything in between is natural-number arithmetic, so a
function that must be exact (decimal text, rounding to a whole number, `hypot`) computes on
naturals and rounds once at the end.
-/

namespace ProcessFormula.Binary64

/-- What a double stands for. A finite one is `mantissa * 2 ^ exponent` with the given sign; zero
has the mantissa zero and keeps its sign. -/
inductive Reading where
  | nan
  | infinite (negative : Bool)
  | finite (negative : Bool) (mantissa : Nat) (exponent : Int)

/-- The exponent of the least positive double. -/
def leastExponent : Int := -1074

def infinityBits : Nat := 2047 * Nat.pow 2 52

def signBit : Nat := Nat.pow 2 63

/-- The sign bit of a double. The one NaN counts as positive. -/
def isNegative (x : Float) : Bool := decide (signBit ≤ x.toBits.toNat)

/-- The bits of a double without its sign. On numbers they are ordered as the absolute values. -/
def magnitude (x : Float) : Nat := x.toBits.toNat % signBit

def read (x : Float) : Reading :=
  let biased : Nat := magnitude x / Nat.pow 2 52
  let fraction := magnitude x % Nat.pow 2 52
  if biased = 2047 then
    if fraction = 0 then .infinite (isNegative x) else .nan
  else if biased = 0 then .finite (isNegative x) fraction leastExponent
  else .finite (isNegative x) (fraction + Nat.pow 2 52) ((biased : Int) - 1075)

/-- `num / den` rounded to the nearest natural number, a half to the even neighbour. -/
def roundDiv (num den : Nat) : Nat :=
  let quotient := num / den
  let twice := 2 * (num % den)
  if twice < den then quotient
  else if den < twice then quotient + 1
  else quotient + quotient % 2

/-- `num / den` over `2 ^ exponent`, again as a quotient of naturals. -/
def scale (num den : Nat) (exponent : Int) : Nat × Nat :=
  match exponent with
  | .ofNat k => (num, den * Nat.pow 2 k)
  | .negSucc k => (num * Nat.pow 2 (k + 1), den)

/-- The exponent `k` of the binade of `num / den`: `2 ^ k ≤ num / den < 2 ^ (k + 1)` where both are
positive. -/
def binade (num den : Nat) : Int :=
  let estimate : Int := (num.log2 : Int) - den.log2
  let (a, b) := scale num den estimate
  if b ≤ a then estimate else estimate - 1

/-- The bits of the double nearest to `num / den`, which are those of infinity from half a unit
above the largest double on. The sum carries a mantissa that rounds up to the next power of two into
the exponent, where it belongs. -/
def magnitudeOf (num den : Nat) : Nat :=
  if num = 0 then 0
  else
    let exponent := max (binade num den - 52) leastExponent
    let (a, b) := scale num den exponent
    min infinityBits ((exponent - leastExponent).toNat * Nat.pow 2 52 + roundDiv a b)

/-- The double with the given sign and the bits of a magnitude. -/
def ofMagnitude (negative : Bool) (bits : Nat) : Float :=
  Float.ofBits (UInt64.ofNat (if negative then signBit + bits else bits))

/-- The double nearest to `num / den`, or to its opposite. -/
def nearest (negative : Bool) (num den : Nat) : Float :=
  ofMagnitude negative (magnitudeOf num den)

def ofNat (n : Nat) : Float := nearest false n 1

def ofInt (n : Int) : Float := nearest (decide (n < 0)) n.natAbs 1

def nan : Float := Float.ofBits 0x7FF8000000000000

def infinity (negative : Bool) : Float := ofMagnitude negative infinityBits

def flag (condition : Bool) : Float := if condition then 1.0 else 0.0

/-- The lesser of two numbers. NaN is ignored, and of two equal numbers the first is kept. -/
def lesser (a b : Float) : Float :=
  if a.isNaN then b else if b.isNaN then a else if b < a then b else a

/-- The greater of two numbers. NaN is ignored, and of two equal numbers the first is kept. -/
def greater (a b : Float) : Float :=
  if a.isNaN then b else if b.isNaN then a else if a < b then b else a

def same (a b : Float) : Bool := a == b || (a.isNaN && b.isNaN)

end ProcessFormula.Binary64
