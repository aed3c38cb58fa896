import ProcessFormula.Number.Binary64

/-!
Whole numbers near a double, and powers of ten.
-/

namespace ProcessFormula.Binary64

/-- The whole number nearest to a finite double, a half going away from zero; the sign stays even
where the result is zero. A double with a nonnegative exponent is whole already. -/
def roundHalfAway (x : Float) : Float :=
  match read x with
  | .finite negative mantissa (.negSucc k) =>
    nearest negative ((mantissa + Nat.pow 2 k) / Nat.pow 2 (k + 1)) 1
  | _ => x

/-- The natural number that a double is, if it is one. Negative zero is zero. -/
def natural? (x : Float) : Option Nat :=
  match read x with
  | .finite negative mantissa exponent =>
    if negative && mantissa != 0 then none
    else match exponent with
      | .ofNat k => some (mantissa * Nat.pow 2 k)
      | .negSucc k =>
        if mantissa % Nat.pow 2 (k + 1) = 0 then some (mantissa / Nat.pow 2 (k + 1)) else none
  | _ => none

def truncate (x : Float) : Int :=
  match read x with
  | .finite negative mantissa exponent =>
    let size : Nat := match exponent with
      | .ofNat k => mantissa * Nat.pow 2 k
      | .negSucc k => mantissa / Nat.pow 2 (k + 1)
    if negative then -(size : Int) else size
  | _ => 0

/-- `result * base ^ n` by repeated squaring, least binary digit of `n` first. -/
def powerFrom (result base : Float) (n : Nat) : Float :=
  let result := if n % 2 = 1 then result * base else result
  if h : n / 2 = 0 then result else powerFrom result (base * base) (n / 2)
termination_by n
decreasing_by omega

/-- The power of ten that repeated squaring gives; a negative power is the inverse of a positive
one. From `10 ^ 23` on it may differ from the double nearest to the power. -/
def powerOfTen (n : Int) : Float :=
  let power := powerFrom 1.0 10.0 n.natAbs
  if n < 0 then 1.0 / power else power

end ProcessFormula.Binary64
