import ProcessFormula.Number.Shortest

/-!
How a number is written. The digits are always the shortest that read back; a layout decides where
the point stands, when an exponent is used and how the special numbers are spelled. There are three:
`Layout.plain` for texts and messages, `Layout.tree` for the constants of a printed formula and
`Layout.json` for JSON.
-/

namespace ProcessFormula

/-- Significant digits, the last one not zero, and the place of the point: the number is
`0.DIGITS * 10 ^ point`. -/
structure Digits where
  digits : List Char
  point : Int

def Decimal.significant (d : Decimal) : Digits :=
  let all := Nat.toDigits 10 d.coefficient
  ⟨(all.reverse.dropWhile (· == '0')).reverse, d.exponent + all.length⟩

/-- A way of writing numbers. `positional k` says whether a number whose leading digit stands for
`10 ^ k` is written without an exponent. -/
structure Layout where
  tie : Decimal.Tie
  positional : Int → Bool
  /-- What follows the digits of a whole number. -/
  wholeMark : String
  /-- What stands before an exponent that is not negative. -/
  exponentMark : String
  nan : String
  infinity : String
  negativeInfinity : String

namespace Layout

/-- Texts and messages: never an exponent, and no mark on whole numbers. -/
def plain : Layout where
  tie := .up
  positional := fun _ => true
  wholeMark := ""
  exponentMark := "e"
  nan := "NaN"
  infinity := "inf"
  negativeInfinity := "-inf"

/-- Constants of a printed formula: whole numbers end in `.0`, and an exponent is used below `1e-4`
and from `1e16` on. -/
def tree : Layout :=
  { plain with positional := fun k => decide (-4 ≤ k ∧ k < 16), wholeMark := ".0" }

/-- JSON: whole numbers end in `.0`, an exponent is used below `1e-5` and from `1e16` on and always
signed, a half is cut to the even digit, and what is no number is `null`. -/
def json : Layout where
  tie := .even
  positional := fun k => decide (-5 ≤ k ∧ k < 16)
  wholeMark := ".0"
  exponentMark := "e+"
  nan := "null"
  infinity := "null"
  negativeInfinity := "null"

/-- Digits without an exponent, padded with zeros up to the point on either side. -/
def positionalText (l : Layout) (d : Digits) : String :=
  match d.point with
  | .negSucc k => "0." ++ String.ofList (List.replicate (k + 1) '0' ++ d.digits)
  | .ofNat 0 => "0." ++ String.ofList d.digits
  | .ofNat k =>
    let whole := String.ofList (d.digits.take k ++ List.replicate (k - d.digits.length) '0')
    if d.digits.length ≤ k then whole ++ l.wholeMark
    else whole ++ "." ++ String.ofList (d.digits.drop k)

def exponentText (l : Layout) (d : Digits) : String :=
  let mantissa := match d.digits with
    | [c] => String.ofList [c]
    | c :: rest => String.ofList (c :: '.' :: rest)
    | [] => "0"
  let exponent := d.point - 1
  mantissa ++ (if exponent < 0 then "e-" else l.exponentMark) ++ toString exponent.natAbs

def text (l : Layout) (x : Float) : String :=
  match Binary64.read x with
  | .nan => l.nan
  | .infinite negative => if negative then l.negativeInfinity else l.infinity
  | .finite negative mantissa exponent =>
    let sign := if negative then "-" else ""
    if mantissa = 0 then sign ++ "0" ++ l.wholeMark
    else
      let decimal := Decimal.shortest l.tie (Decimal.exact mantissa exponent)
        (Binary64.magnitude x)
      let digits := decimal.significant
      sign ++ if l.positional (digits.point - 1) then l.positionalText digits
        else l.exponentText digits

end Layout

end ProcessFormula
