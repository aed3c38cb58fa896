import ProcessFormula.Number.Rounding

/-!
Two functions of doubles that core does not have: the length of a vector, computed exactly and
rounded once, and `e ^ x - 1`, computed without the cancellation that a subtraction from `e ^ x`
suffers near zero.
-/

namespace ProcessFormula.Binary64

def wholeRoot (n : Nat) : Nat :=
  if h : n = 0 then 0
  else
    let half := 2 * wholeRoot (n / 4)
    if (half + 1) * (half + 1) ≤ n then half + 1 else half
termination_by n
decreasing_by omega

/-- The double nearest to `sqrt n * 2 ^ exponent`. The root is taken with 64 bits behind the point
and one more that says whether anything is left, which is enough to see on which side of a half the
exact root lies. -/
def nearestRoot (n : Nat) (exponent : Int) : Float :=
  let scaled := n * Nat.pow 2 128
  let root := wholeRoot scaled
  let num := 2 * root + if root * root = scaled then 0 else 1
  let (a, b) := scale num (Nat.pow 2 65) (-exponent)
  nearest false a b

/-- The double nearest to `sqrt (x ^ 2 + y ^ 2)`. An infinite coordinate outweighs a NaN. -/
def hypot (x y : Float) : Float :=
  match read x, read y with
  | .infinite _, _ | _, .infinite _ => infinity false
  | .nan, _ | _, .nan => nan
  | .finite _ m p, .finite _ n q =>
    let least := if p < q then p else q
    let a := m * Nat.pow 2 (p - least).toNat
    let b := n * Nat.pow 2 (q - least).toNat
    nearestRoot (a * a + b * b) least

/-- `ln 2` in two parts: the first has so few bits that its small multiples are exact. -/
def ln2High : Float := 6.93147180369123816490e-01

def ln2Low : Float := 1.90821492927058770002e-10

def powerOfTwo (k : Int) : Float :=
  match k with
  | .ofNat n => nearest false (Nat.pow 2 n) 1
  | .negSucc n => nearest false 1 (Nat.pow 2 (n + 1))

/-- An argument of the exponential brought near zero: it is `remainder + rest + count * ln 2`, where
`rest` is what the subtraction rounded away. -/
structure Reduced where
  remainder : Float
  rest : Float
  count : Int

/-- Takes whole multiples of `ln 2` off an argument above `ln 2 / 2` in size, so that what remains
is at most half of `ln 2`. Arguments below `3 / 2 * ln 2` lose just one. -/
def Reduced.of (x : Float) : Reduced :=
  if x.abs ≤ 0.5 * ln2High then ⟨x, 0.0, 0⟩
  else
    let count : Int :=
      if x.abs < 1.0397207708399179 then (if x < 0.0 then -1 else 1)
      else truncate (1.44269504088896338700e+00 * x + if x < 0.0 then -0.5 else 0.5)
    let times := ofInt count
    let high := x - times * ln2High
    let low := times * ln2Low
    let remainder := high - low
    ⟨remainder, high - remainder - low, count⟩

/-- `e ^ x - 1` for the reduced argument. With `r = e ^ y - 1` it is `2 ^ k * (r + 1) - 1`; the
rational approximation of `r` and the order of the additions keep the error below one unit in the
last place for every `k`. -/
def Reduced.expm1 (a : Reduced) : Float :=
  let x := a.remainder
  let half := 0.5 * x
  let h := x * half
  let h2 := h * h
  let h4 := h2 * h2
  let r := (1.0 + h * -3.33333333333331316428e-02)
    + h2 * (1.58730158725481460165e-03 + h * -7.93650757867487942473e-05)
    + h4 * (4.00821782732936239552e-06 + h * -2.01099218183624371326e-07)
  let t := 3.0 - r * half
  let e := h * ((r - t) / (6.0 - x * t))
  if a.count = 0 then x - (x * e - h)
  else
    let e := (x * (e - a.rest) - a.rest) - h
    if a.count = -1 then 0.5 * (x - e) - 0.5
    else if a.count = 1 then
      if x < -0.25 then -2.0 * (e - (x + 0.5)) else 1.0 + 2.0 * (x - e)
    else
      let enlarge := fun y => y * powerOfTwo (a.count - 1) * 2.0
      if a.count ≤ -2 ∨ 56 < a.count then enlarge (1.0 - (e - x)) - 1.0
      else if a.count < 20 then enlarge ((1.0 - powerOfTwo (-a.count)) - (e - x))
      else enlarge ((x - (e + powerOfTwo (-a.count))) + 1.0)

/-- `e ^ x - 1`. Arguments below `2 ^ (-54)` in size are their own result, those above 709.78
overflow, and from -38.8 downward the result is -1. -/
def expm1 (x : Float) : Float :=
  if x.isNaN then nan
  else if x.abs < Float.ofBits 0x3C90000000000000 then x
  else if x ≤ -38.816242218017578125 then -1.0
  else if 709.782712893383973096 < x then infinity false
  else (Reduced.of x).expm1

end ProcessFormula.Binary64
