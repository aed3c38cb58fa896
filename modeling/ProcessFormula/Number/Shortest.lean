import ProcessFormula.Number.Decimal

/-!
The shortest decimal that reads back as a given double, and of those the nearest to it. The double
is first written out exactly. Then its two neighbours among the decimals of one digit are tried,
among those of two digits, and so on up to seventeen; the first that reads back wins, and of two the
nearer. The exact decimal stands behind the search, so the result always reads back.
-/

namespace ProcessFormula.Decimal

/-- Which of two equally near decimals is written. -/
inductive Tie where
  | up
  | even
  deriving DecidableEq

/-- The number of decimal digits of a natural number; zero has one. -/
def digitCount (n : Nat) : Nat := (Nat.toDigits 10 n).length

/-- The neighbours of a decimal among those without its last `dropped` digits, nearer one first. -/
def neighbours (tie : Tie) (d : Decimal) (dropped : Nat) : List Decimal :=
  let unit := Nat.pow 10 dropped
  let exponent := d.exponent + dropped
  let below := d.coefficient / unit
  let twice := 2 * (d.coefficient % unit)
  let upFirst := decide (unit < twice) ||
    (decide (unit = twice) && (tie == .up || below % 2 == 1))
  if upFirst then [⟨below + 1, exponent⟩, ⟨below, exponent⟩]
  else [⟨below, exponent⟩, ⟨below + 1, exponent⟩]

/-- The shortest decimal that reads back as the double with these bits, which `d` writes exactly. -/
def shortest (tie : Tie) (d : Decimal) (bits : Nat) : Decimal :=
  let length := digitCount d.coefficient
  let readingBack? := fun n =>
    (neighbours tie d (length - (n + 1))).find? fun c => c.magnitude == bits
  ((List.range 17).findSome? readingBack?).getD d

end ProcessFormula.Decimal
