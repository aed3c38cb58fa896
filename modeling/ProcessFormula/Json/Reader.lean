import ProcessFormula.Json.Number

/-!
Reading JSON text. Only spaces, tabs and line ends may stand between the parts, nothing may follow
the document, and every deviation from the grammar makes the whole text unreadable.
-/

namespace ProcessFormula.Json

def isSpace (c : Char) : Bool := c == ' ' || c == '\n' || c == '\t' || c == '\r'

def skipSpace (s : List Char) : List Char := s.dropWhile isSpace

/-- A piece of a string literal: a character, or a UTF-16 code unit given by its number. -/
inductive Piece where
  | char (c : Char)
  | unit (n : Nat)

def hexDigit? (c : Char) : Option Nat :=
  if c.isDigit then some (c.toNat - 48)
  else if 'a' ≤ c ∧ c ≤ 'f' then some (c.toNat - 87)
  else if 'A' ≤ c ∧ c ≤ 'F' then some (c.toNat - 55)
  else none

def hexNumber? (digits : List Char) : Option Nat :=
  digits.foldlM (fun n c => (hexDigit? c).map (16 * n + ·)) 0

/-- The character whose code point hexadecimal digits write. -/
def hexCharacter? (digits : List Char) : Option Char :=
  (hexNumber? digits).bind fun n => if n.isValidChar then some (Char.ofNat n) else none

/-- The character that a letter behind a backslash stands for. -/
def escaped? (c : Char) : Option Char :=
  [('\x22', '\x22'), ('\\', '\\'), ('/', '/'), ('b', '\x08'), ('f', '\x0C'), ('n', '\n'),
    ('r', '\r'), ('t', '\t')].lookup c

/-- Reads the pieces of a string behind its opening quote, up to and past its closing quote. Control
characters may only be escaped. -/
def pieces : List Char → Option (List Piece × List Char)
  | [] => none
  | '\\' :: 'u' :: a :: b :: c :: d :: s =>
    (hexNumber? [a, b, c, d]).bind fun n =>
      (pieces s).map fun r => (.unit n :: r.1, r.2)
  | '\\' :: e :: s =>
    (escaped? e).bind fun c => (pieces s).map fun r => (.char c :: r.1, r.2)
  | c :: s =>
    if c = '\x22' then some ([], s)
    else if c.toNat < 0x20 ∨ c = '\\' then none
    else (pieces s).map fun r => (.char c :: r.1, r.2)

def isHighSurrogate (n : Nat) : Bool := decide (0xD800 ≤ n) && decide (n < 0xDC00)

def isLowSurrogate (n : Nat) : Bool := decide (0xDC00 ≤ n) && decide (n < 0xE000)

/-- The characters of a string literal, surrogate pairs joined. Half a pair is no character. -/
def joinPieces : List Piece → Option (List Char)
  | [] => some []
  | .char c :: rest => (joinPieces rest).map (c :: ·)
  | [.unit n] =>
    if isHighSurrogate n || isLowSurrogate n then none else some [Char.ofNat n]
  | .unit n :: .unit m :: rest =>
    if isHighSurrogate n && isLowSurrogate m then
      (joinPieces rest).map
        (Char.ofNat (0x10000 + 0x400 * (n - 0xD800) + (m - 0xDC00)) :: ·)
    else if isHighSurrogate n || isLowSurrogate n then none
    else (joinPieces (.unit m :: rest)).map (Char.ofNat n :: ·)
  | .unit n :: .char c :: rest =>
    if isHighSurrogate n || isLowSurrogate n then none
    else (joinPieces rest).map (Char.ofNat n :: c :: ·)

def someDigits (s : List Char) : Option (List Char × List Char) :=
  let (digits, rest) := s.span Char.isDigit
  if digits.isEmpty then none else some (digits, rest)

/-- Reads the digits before the point: a zero alone or digits that start with another one. -/
def wholeDigits (s : List Char) : Option (List Char × List Char) :=
  (someDigits s).filter fun r => r.1 == ['0'] || r.1.head? != some '0'

def fractionPart (s : List Char) : Option (List Char × List Char) :=
  match s with
  | '.' :: t => (someDigits t).map fun r => ('.' :: r.1, r.2)
  | _ => some ([], s)

def exponentPart (s : List Char) : Option (List Char × List Char) :=
  match s with
  | e :: t =>
    if e = 'e' ∨ e = 'E' then
      let (sign, u) := match t with
        | '+' :: u => (['+'], u)
        | '-' :: u => (['-'], u)
        | u => ([], u)
      (someDigits u).map fun r => (e :: (sign ++ r.1), r.2)
    else some ([], s)
  | [] => some ([], s)

def numberLiteral (s : List Char) : Option (List Char × List Char) := do
  let (sign, s) := match s with
    | '-' :: t => (['-'], t)
    | t => ([], t)
  let (whole, s) ← wholeDigits s
  let (fraction, s) ← fractionPart s
  let (exponent, s) ← exponentPart s
  return (sign ++ whole ++ fraction ++ exponent, s)

def word (w : String) (s : List Char) : Option (List Char) :=
  if w.toList.isPrefixOf s then some (s.drop w.length) else none

mutual

/-- Reads a document from text whose documents nest less than `fuel` deep. -/
def value : (fuel : Nat) → List Char → Option (Json × List Char)
  | 0, _ => none
  | fuel + 1, s =>
    match skipSpace s with
    | '\x7b' :: t =>
      match skipSpace t with
      | '\x7d' :: rest => some (.object [], rest)
      | _ => (members fuel t).map fun r => (.object r.1, r.2)
    | '[' :: t =>
      match skipSpace t with
      | ']' :: rest => some (.array [], rest)
      | _ => (items fuel t).map fun r => (.array r.1, r.2)
    | '\x22' :: t => (pieces t).map fun r =>
      (((joinPieces r.1).map fun cs => Json.string (String.ofList cs)).getD .brokenString, r.2)
    | 't' :: t => (word "rue" t).map fun rest => (.bool true, rest)
    | 'f' :: t => (word "alse" t).map fun rest => (.bool false, rest)
    | 'n' :: t => (word "ull" t).map fun rest => (.null, rest)
    | t => (numberLiteral t).map fun r => (.number (String.ofList r.1), r.2)

def items : (fuel : Nat) → List Char → Option (List Json × List Char)
  | 0, _ => none
  | fuel + 1, s => do
    let (item, rest) ← value fuel s
    match skipSpace rest with
    | ',' :: t => (items fuel t).map fun r => (item :: r.1, r.2)
    | ']' :: t => some ([item], t)
    | _ => none

def members : (fuel : Nat) → List Char → Option (List (String × Json) × List Char)
  | 0, _ => none
  | fuel + 1, s =>
    match skipSpace s with
    | '\x22' :: t => do
      let (key, rest) ← pieces t
      let key ← joinPieces key
      match skipSpace rest with
      | ':' :: t =>
        let (content, rest) ← value fuel t
        let member := (String.ofList key, content)
        match skipSpace rest with
        | ',' :: t => (members fuel t).map fun r => (member :: r.1, r.2)
        | '\x7d' :: t => some ([member], t)
        | _ => none
      | _ => none
    | _ => none

end

/-- The document that a text writes. Each level of reading takes a character away, so the length of
the text bounds the depth. -/
def parse? (text : String) : Option Json :=
  match value (text.length + 1) text.toList with
  | some (document, rest) => if (skipSpace rest).isEmpty then some document else none
  | none => none

end ProcessFormula.Json
