import ProcessFormula.Expr.Basic
import ProcessFormula.Number.Decimal
import ProcessFormula.Syntax.Lexeme

/-!
The lexemes of formula text, said without the readers that find them. Which lexemes there can be
depends on the position: an operand is expected at the start of the text and behind an operator,
and an operator behind an operand. Runs of characters are read as far as they go, blanks between
their characters count for nothing, and inside quotes every character counts.
-/

namespace ProcessFormula.Grammar

open Text Lexeme

inductive Position where
  | operand
  | operator
  deriving DecidableEq

/-- A lexeme. A bare name in front of an opening parenthesis names a function. The two characters
that are marks at either position have one token each: the minus sign is the operator, the
exclamation mark of a negation is not part of an operator. -/
inductive Token where
  | number (x : Float)
  | text (s : String)
  | quoted (name : String)
  | bare (name : String)
  | function (name : String)
  | operator (op : BinaryOp)
  | not
  | question
  | colon
  | comma
  | opening
  | closing

def Token.next : Token → Position
  | .number _ | .text _ | .quoted _ | .bare _ | .function _ | .closing => .operator
  | .operator _ | .not | .question | .colon | .comma | .opening => .operand

def Token.variableName? : Token → Option String
  | .quoted name | .bare name => some name
  | _ => none

/-- The variables that lexemes read, from left to right and with repetitions. -/
def variableNames (tokens : List Token) : List String := tokens.filterMap Token.variableName?

def solid (s : List Char) : List Char := s.filter fun c => !isBlank c

def StartsSolid (s : List Char) : Prop := ∀ c ∈ s.head?, isBlank c = false

/-- Every character may stand behind those in front of it. -/
def Runs (goesOn : List Char → Char → Bool) (chars : List Char) : Prop :=
  ∀ before c after, chars = before ++ c :: after → goesOn before c = true

/-- The text `s` starts with the characters `chars`, which are `viable`, and `rest` is what follows.
Blanks between and behind the characters do not count. The characters are as many as can be: with
the first character of `rest` they would not be viable. -/
structure Longest (viable : List Char → Prop) (chars s rest : List Char) : Prop where
  run : ∃ run, s = run ++ rest ∧ solid run = chars
  isViable : viable chars
  startsSolid : StartsSolid rest
  maximal : ∀ c ∈ rest.head?, ¬ viable (chars ++ [c])

/-- Names consist of name characters. -/
def nameGoesOn (_ : List Char) (c : Char) : Bool := isNameChar c

/-- Numbers consist of digits, points and exponent marks, and of signs right behind an exponent
mark. -/
def numberGoesOn (before : List Char) (c : Char) : Bool :=
  c.isDigit || c == '.' || c == 'e' || c == 'E' ||
    ((c == '+' || c == '-') && (before.getLast? == some 'e' || before.getLast? == some 'E'))

def Digits (s : List Char) : Prop := s ≠ [] ∧ ∀ c ∈ s, c.isDigit = true

/-- The exponent part of a decimal literal, which may be missing. -/
inductive Exponent : List Char → Int → Prop
  | absent : Exponent [] 0
  | unsigned {mark : Char} {digits : List Char} (hmark : mark = 'e' ∨ mark = 'E')
      (hdigits : Digits digits) : Exponent (mark :: digits) (Decimal.ofDigits digits)
  | plus {mark : Char} {digits : List Char} (hmark : mark = 'e' ∨ mark = 'E')
      (hdigits : Digits digits) : Exponent (mark :: '+' :: digits) (Decimal.ofDigits digits)
  | minus {mark : Char} {digits : List Char} (hmark : mark = 'e' ∨ mark = 'E')
      (hdigits : Digits digits) :
      Exponent (mark :: '-' :: digits) (-(Decimal.ofDigits digits : Int))

/-- A decimal literal without a sign, and the number it writes: digits with at most one point
among or around them, and an exponent part. -/
inductive Literal : List Char → Decimal → Prop
  | whole {digits tail : List Char} {e : Int} (hdigits : Digits digits) (htail : Exponent tail e) :
      Literal (digits ++ tail) ⟨Decimal.ofDigits digits, e⟩
  | pointed {whole fraction tail : List Char} {e : Int} (hdigits : Digits (whole ++ fraction))
      (htail : Exponent tail e) :
      Literal (whole ++ '.' :: (fraction ++ tail))
        ⟨Decimal.ofDigits (whole ++ fraction), e - fraction.length⟩

/-- What may stand between the double quotes of a string: a double quote in it stands right behind a
backslash, and no backslash stands right in front of the closing quote. -/
structure StringBody (body : List Char) : Prop where
  escaped : ∀ before after, body = before ++ '\x22' :: after → before.getLast? = some '\\'
  closed : body.getLast? ≠ some '\\'

def spellings : Position → List (List Char × Token)
  | .operand => [(['('], .opening), ([')'], .closing), (['!'], .not), (['-'], .operator .sub)]
  | .operator =>
    [(['('], .opening), ([')'], .closing), ([','], .comma), (['?'], .question), ([':'], .colon),
      (['&'], .operator .and), (['&', '&'], .operator .and),
      (['|'], .operator .or), (['|', '|'], .operator .or),
      (['=', '='], .operator .eq), (['!', '='], .operator .ne),
      (['>'], .operator .gt), (['>', '='], .operator .ge),
      (['<'], .operator .lt), (['<', '='], .operator .le),
      (['+'], .operator .add), (['-'], .operator .sub),
      (['^'], .operator .pow), (['*'], .operator .mul), (['/'], .operator .div)]

/-- Some mark or operator is written so. -/
def Spelled (position : Position) (chars : List Char) : Prop :=
  ∃ token, (chars, token) ∈ spellings position

/-- The text `s` starts with a lexeme, and `rest` is the text from the next character behind it that
is not blank. -/
inductive Reads : Position → List Char → Token → List Char → Prop
  | number {chars s rest : List Char} {d : Decimal}
      (hrun : Longest (Runs numberGoesOn) chars s rest)
      (hhead : ∀ c ∈ chars.head?, startsNumber c = true) (hvalue : Literal chars d) :
      Reads .operand s (.number (d.toFloat false)) rest
  | bare {chars s rest : List Char} (hrun : Longest (Runs nameGoesOn) chars s rest)
      (hhead : ∃ c ∈ chars.head?, startsNumber c = false) (hrest : rest.head? ≠ some '(') :
      Reads .operand s (.bare (String.ofList chars)) rest
  | function {chars s rest : List Char} (hrun : Longest (Runs nameGoesOn) chars s rest)
      (hhead : ∃ c ∈ chars.head?, startsNumber c = false) (hrest : rest.head? = some '(') :
      Reads .operand s (.function (String.ofList chars)) rest
  | text {body blanks rest : List Char} (hbody : StringBody body) (hblanks : solid blanks = [])
      (hrest : StartsSolid rest) :
      Reads .operand ('\x22' :: (body ++ '\x22' :: (blanks ++ rest)))
        (.text (String.ofList (body.filter (· ≠ '\\')))) rest
  | quoted {quote : Char} {name blanks rest : List Char} (hquote : quote = '\x27' ∨ quote = '\x60')
      (hname : quote ∉ name) (hblanks : solid blanks = []) (hrest : StartsSolid rest) :
      Reads .operand (quote :: (name ++ quote :: (blanks ++ rest)))
        (.quoted (String.ofList name)) rest
  | mark {position : Position} {chars s rest : List Char} {token : Token}
      (hspelling : (chars, token) ∈ spellings position)
      (hrun : Longest (Spelled position) chars s rest) : Reads position s token rest

/-- The text `s` starts with the lexemes `tokens`, one behind the other, and `rest` is what follows
them. The positions are those in front of and behind the lexemes. -/
inductive Lexes : Position → List Char → List Token → Position → List Char → Prop
  | nil {position : Position} {s : List Char} : Lexes position s [] position s
  | cons {position final : Position} {s middle rest : List Char} {token : Token}
      {tokens : List Token} (hfirst : Reads position s token middle)
      (hmore : Lexes token.next middle tokens final rest) :
      Lexes position s (token :: tokens) final rest

end ProcessFormula.Grammar
