import ProcessFormula.Config.Tree
import ProcessFormula.Json.Reader

/-!
Configuration in TOML. A document is a list of lines: headers `[a.b]` and `[[a.b]]`, and keys with
values. The rules on what may be defined twice are kept by marking each table with the way it came
into being.
-/

namespace ProcessFormula.Config.Toml

/-- How a table came into being: as a part of a header's path, by a header, as a part of a dotted
key, or as a value, which is complete. -/
inductive Origin where
  | path
  | header
  | dotted
  | value
  deriving DecidableEq

inductive Node where
  | leaf (t : Tree)
  | table (origin : Origin) (entries : List (String × Node))
  | tables (elements : List (List (String × Node)))

mutual

def Node.tree : Node → Tree
  | .leaf t => t
  | .table _ entries => .table (trees entries)
  | .tables elements => .list (elementTrees elements)

def trees : List (String × Node) → List (String × Tree)
  | [] => []
  | (key, node) :: rest => (key, node.tree) :: trees rest

def elementTrees : List (List (String × Node)) → List Tree
  | [] => []
  | entries :: rest => .table (trees entries) :: elementTrees rest

end

def put (key : String) (node : Node) : List (String × Node) → List (String × Node)
  | [] => [(key, node)]
  | (k, old) :: rest => if k = key then (key, node) :: rest else (k, old) :: put key node rest

/-- May a path of the given origin go on into a table? No path goes into a table that is a value, a
dotted key does not go into one that has a header, and it ends only in a table that dotted keys
made. -/
def admits (origin : Origin) (isLast : Bool) : (table : Origin) → Bool
  | .value => false
  | .header => origin != .dotted
  | .path => origin != .dotted || !isLast
  | .dotted => true

/-- Changes the table at the end of a path, from the table whose entries are given. Tables that are
missing on the way are made with the given origin. Of a list of tables the last one is meant, which
has a header. -/
def descend (origin : Origin) (change : List (String × Node) → Option (List (String × Node))) :
    (path : List String) → List (String × Node) → Option (List (String × Node))
  | [], entries => change entries
  | key :: path, entries =>
    match entries.lookup key with
    | none => (descend origin change path []).map fun inner => put key (.table origin inner) entries
    | some (.table old inner) =>
      if admits origin path.isEmpty old then
        (descend origin change path inner).map fun inner => put key (.table old inner) entries
      else none
    | some (.tables elements) =>
      if path.isEmpty && !admits origin true .header then none
      else
        match elements.reverse with
        | last :: before => (descend origin change path last).map fun last =>
          put key (.tables (before.reverse ++ [last])) entries
        | [] => none
    | some (.leaf _) => none

def define (key : String) (node : Node) (entries : List (String × Node)) :
    Option (List (String × Node)) :=
  if (entries.lookup key).isSome then none else some (put key node entries)

/-- Opens the table of a header. It may have been made by the path of another header. -/
def openTable (key : String) (entries : List (String × Node)) :
    Option (List (String × Node)) :=
  match entries.lookup key with
  | none => some (put key (.table .header []) entries)
  | some (.table .path inner) => some (put key (.table .header inner) entries)
  | some _ => none

def openElement (key : String) (entries : List (String × Node)) :
    Option (List (String × Node)) :=
  match entries.lookup key with
  | none => some (put key (.tables [[]]) entries)
  | some (.tables elements) => some (put key (.tables (elements ++ [[]])) entries)
  | some _ => none

/-- Changes the table that lines after a header belong to: it is there already, and the path leads
through the last elements of lists of tables. -/
def within (change : List (String × Node) → Option (List (String × Node))) :
    (path : List String) → List (String × Node) → Option (List (String × Node))
  | [], entries => change entries
  | key :: path, entries =>
    match entries.lookup key with
    | some (.table origin inner) =>
      (within change path inner).map fun inner => put key (.table origin inner) entries
    | some (.tables elements) =>
      match elements.reverse with
      | last :: before => (within change path last).map fun last =>
        put key (.tables (before.reverse ++ [last])) entries
      | [] => none
    | _ => none

/-! Lexemes. -/

def skipSpaces (s : List Char) : List Char := s.dropWhile fun c => c == ' ' || c == '\t'

/-- Control characters stand nowhere but in line ends. -/
def isControl (c : Char) : Bool := (decide (c.toNat < 0x20) && c != '\t') || c.toNat == 0x7F

/-- The text behind a comment, if one starts here. It ends before the end of the line. -/
def skipComment : List Char → List Char
  | '#' :: s => s.dropWhile fun c => !isControl c
  | s => s

/-- The text behind spaces, comments and line ends. -/
def skipLines (fuel : Nat) (s : List Char) : List Char :=
  match fuel with
  | 0 => s
  | fuel + 1 =>
    match skipComment (skipSpaces s) with
    | '\n' :: t => skipLines fuel t
    | '\r' :: '\n' :: t => skipLines fuel t
    | t => t

/-- The text behind the rest of a line that may hold nothing but a comment. -/
def endLine (s : List Char) : Option (List Char) :=
  match skipComment (skipSpaces s) with
  | [] => some []
  | '\n' :: t => some t
  | '\r' :: '\n' :: t => some t
  | _ => none

def basic : List Char → Option (List Char × List Char)
  | [] => none
  | '\\' :: 'u' :: a :: b :: c :: d :: s => do
    let character ← Json.hexCharacter? [a, b, c, d]
    (basic s).map fun r => (character :: r.1, r.2)
  | '\\' :: 'U' :: a :: b :: c :: d :: e :: f :: g :: h :: s => do
    let character ← Json.hexCharacter? [a, b, c, d, e, f, g, h]
    (basic s).map fun r => (character :: r.1, r.2)
  | '\\' :: e :: s => do
    let character ← (Json.escaped? e).filter (· != '/')
    (basic s).map fun r => (character :: r.1, r.2)
  | c :: s =>
    if c = '\x22' then some ([], s)
    else if isControl c then none
    else (basic s).map fun r => (c :: r.1, r.2)

def literal (s : List Char) : Option (List Char × List Char) :=
  let (body, rest) := s.span fun c => c != '\x27'
  match rest with
  | _ :: rest => if body.any isControl then none else some (body, rest)
  | [] => none

/-- The text behind a line end that directly follows an opening triple quote. -/
def skipFirstLineEnd : List Char → List Char
  | '\n' :: s => s
  | '\r' :: '\n' :: s => s
  | s => s

/-- Does white space up to and including a line end come first? -/
def startsWithLineEnd (s : List Char) : Bool :=
  match skipSpaces s with
  | '\n' :: _ => true
  | '\r' :: '\n' :: _ => true
  | _ => false

/-- Reads a string between triple quotes, behind the opening ones. Up to two quotes may stand before
the closing ones. In the basic form a backslash at the end of a line joins lines. -/
def multiline (quote : Char) (joining : Bool) : List Char → Option (List Char × List Char)
  | [] => none
  | '\r' :: '\n' :: s =>
    (multiline quote joining s).map fun r => (if joining then r.1 else '\n' :: r.1, r.2)
  | c :: s =>
    if joining && (c == ' ' || c == '\t' || c == '\n') then multiline quote true s
    else if c = quote then
      match s with
      | a :: b :: t =>
        if a = quote ∧ b = quote then
          match t with
          | d :: e :: u =>
            if d = quote ∧ e = quote then some ([quote, quote], u)
            else if d = quote then some ([quote], e :: u)
            else some ([], t)
          | [d] => if d = quote then some ([quote], []) else some ([], t)
          | [] => some ([], [])
        else (multiline quote false (a :: b :: t)).map fun r => (c :: r.1, r.2)
      | t => (multiline quote false t).map fun r => (c :: r.1, r.2)
    else if c = '\\' ∧ quote = '\x22' then
      if startsWithLineEnd s then multiline quote true s
      else
        match s with
        | 'u' :: a :: b :: d :: e :: t => do
          let character ← Json.hexCharacter? [a, b, d, e]
          (multiline quote false t).map fun r => (character :: r.1, r.2)
        | 'U' :: a :: b :: d :: e :: f :: g :: h :: i :: t => do
          let character ← Json.hexCharacter? [a, b, d, e, f, g, h, i]
          (multiline quote false t).map fun r => (character :: r.1, r.2)
        | e :: t => do
          let character ← (Json.escaped? e).filter (· != '/')
          (multiline quote false t).map fun r => (character :: r.1, r.2)
        | [] => none
    else if isControl c && c != '\n' then none
    else (multiline quote false s).map fun r => (c :: r.1, r.2)

/-- Reads a string, if one starts here; triple quotes are tried first. -/
def string (s : List Char) : Option (List Char × List Char) :=
  match s with
  | '\x22' :: '\x22' :: '\x22' :: t => multiline '\x22' false (skipFirstLineEnd t)
  | '\x27' :: '\x27' :: '\x27' :: t => multiline '\x27' false (skipFirstLineEnd t)
  | '\x22' :: t => basic t
  | '\x27' :: t => literal t
  | _ => none

def isKeyChar (c : Char) : Bool := c.isAlphanum || c == '_' || c == '-'

def keyPart (s : List Char) : Option (String × List Char) :=
  match skipSpaces s with
  | '\x22' :: t => (basic t).map fun r => (String.ofList r.1, r.2)
  | '\x27' :: t => (literal t).map fun r => (String.ofList r.1, r.2)
  | t =>
    let (key, rest) := t.span isKeyChar
    if key.isEmpty then none else some (String.ofList key, rest)

/-- How many parts a key has at most, and how deep values nest. -/
def maxDepth : Nat := 79

def keyParts : (count : Nat) → List Char → Option (List String × List Char)
  | 0, _ => none
  | count + 1, s => do
    let (part, rest) ← keyPart s
    match skipSpaces rest with
    | '.' :: t => (keyParts count t).map fun r => (part :: r.1, r.2)
    | t => some ([part], t)

def keyPath (s : List Char) : Option (List String × List Char) := keyParts maxDepth s

/-! Values. -/

/-- Digits with single underscores between them. -/
def isDigits (isDigit : Char → Bool) : List Char → Bool
  | [] => false
  | [c] => isDigit c
  | c :: '_' :: d :: rest => isDigit c && isDigits isDigit (d :: rest)
  | c :: rest => isDigit c && isDigits isDigit rest

def dropSign : List Char → List Char
  | '+' :: s => s
  | '-' :: s => s
  | s => s

/-- Decimal digits without a needless leading zero. -/
def isWhole (s : List Char) : Bool :=
  isDigits Char.isDigit s && (s.length == 1 || s.head? != some '0')

def isBinary (c : Char) : Bool := c == '0' || c == '1'

def isOctal (c : Char) : Bool := decide ('0' ≤ c) && decide (c ≤ '7')

def numberIn (base : Nat) (s : List Char) : Nat :=
  s.foldl (fun n c => ((Json.hexDigit? c).map (base * n + ·)).getD n) 0

def isInteger (s : List Char) : Bool :=
  match s with
  | '0' :: 'x' :: t =>
    isDigits (fun c => (Json.hexDigit? c).isSome) t && decide (numberIn 16 t < Nat.pow 2 63)
  | '0' :: 'o' :: t => isDigits isOctal t && decide (numberIn 8 t < Nat.pow 2 63)
  | '0' :: 'b' :: t => isDigits isBinary t && decide (numberIn 2 t < Nat.pow 2 63)
  | '-' :: t => isWhole t && decide (numberIn 10 t ≤ Nat.pow 2 63)
  | t => isWhole (dropSign t) && decide (numberIn 10 t < Nat.pow 2 63)

/-- Is the word a number with a point or an exponent, or a special number? A positive one may not be
too large for a double; a negative one may, and is an infinity then. -/
def isFloat (s : List Char) : Bool :=
  let body := dropSign s
  if body = "inf".toList ∨ body = "nan".toList then true
  else
    let (mantissa, exponent) := body.span fun c => c != 'e' && c != 'E'
    let (whole, fraction) := mantissa.span fun c => c != '.'
    let size := Binary64.ofText? (s.filter (· != '_'))
    isWhole whole && (fraction.isEmpty || isDigits Char.isDigit fraction.tail) &&
      (exponent.isEmpty || isDigits Char.isDigit (dropSign exponent.tail)) &&
      !(fraction.isEmpty && exponent.isEmpty) && size.any (· != Binary64.infinity false)

/-- Does a text have the shape of a pattern in which `0` stands for any digit? -/
def hasShape : (pattern text : List Char) → Bool
  | [], [] => true
  | '0' :: p, c :: s => c.isDigit && hasShape p s
  | d :: p, c :: s => d == c && hasShape p s
  | _, _ => false

def twoDigits (s : List Char) (start : Nat) : Nat := Decimal.ofDigits ((s.drop start).take 2)

def isDate (s : List Char) : Bool :=
  hasShape "0000-00-00".toList s &&
    let year := Decimal.ofDigits (s.take 4)
    let month := twoDigits s 5
    let day := twoDigits s 8
    let leap := year % 4 == 0 && (year % 100 != 0 || year % 400 == 0)
    let days := if month = 2 then (if leap then 29 else 28)
      else if [4, 6, 9, 11].contains month then 30 else 31
    decide (1 ≤ month) && decide (month ≤ 12) && decide (1 ≤ day) && decide (day ≤ days)

/-- Is the word a time of day, possibly with a fraction of a second? -/
def isTime (s : List Char) : Bool :=
  let (clock, fraction) := s.splitAt 8
  hasShape "00:00:00".toList clock && decide (twoDigits clock 0 ≤ 23) &&
    decide (twoDigits clock 3 ≤ 59) && decide (twoDigits clock 6 ≤ 60) &&
    match fraction with
    | [] => true
    | '.' :: t => !t.isEmpty && t.all Char.isDigit
    | _ => false

/-- A time without the offset behind it, if that is well formed. -/
def dropOffset (s : List Char) : List Char :=
  match s.reverse with
  | 'Z' :: t => t.reverse
  | 'z' :: t => t.reverse
  | _ =>
    let (clock, offset) := s.splitAt (s.length - 6)
    let isOffset := (hasShape "+00:00".toList offset || hasShape "-00:00".toList offset) &&
      decide (twoDigits offset 1 ≤ 23) && decide (twoDigits offset 4 ≤ 59)
    if isOffset then clock else s

def isMoment (s : List Char) : Bool :=
  let (date, rest) := s.splitAt 10
  isTime s || (isDate date &&
    match rest with
    | [] => true
    | c :: t => (c == 'T' || c == 't' || c == ' ') && isTime (dropOffset t))

/-- The entry that a date or a time is: a table, in which no setting can be found. -/
def moment : Tree := .table []

def isWordChar (c : Char) : Bool :=
  c.isAlphanum || c == '_' || c == '-' || c == '+' || c == '.' || c == ':'

/-- Reads a number, a date or a truth value. A date and a time may have a space between them. -/
def word (s : List Char) : Option (Tree × List Char) :=
  let (first, rest) := s.span isWordChar
  let joined := match rest with
    | ' ' :: t =>
      let (second, more) := t.span isWordChar
      if isDate first && isMoment (first ++ ' ' :: second) then some (first ++ ' ' :: second, more)
      else none
    | _ => none
  let (w, rest) := joined.getD (first, rest)
  if w = "true".toList then some (.flag true, rest)
  else if w = "false".toList then some (.flag false, rest)
  else if isInteger w || isFloat w then some (.other, rest)
  else if isMoment w then some (moment, rest)
  else none

mutual

/-- Reads a value of at most `fuel` parts, in which arrays and inline tables nest at most `depth`
deep. -/
def value : (fuel depth : Nat) → List Char → Option (Node × List Char)
  | 0, _, _ => none
  | fuel + 1, depth, s =>
    match s, depth with
    | '[' :: _, 0 => none
    | '\x7b' :: _, 0 => none
    | '[' :: t, depth + 1 =>
      match skipLines t.length t with
      | ']' :: rest => some (.leaf (.list []), rest)
      | u => (items fuel depth u).map fun r => (.leaf (.list r.1), r.2)
    | '\x7b' :: t, depth + 1 =>
      match skipSpaces t with
      | '\x7d' :: rest => some (.table .value [], rest)
      | u => (entries fuel depth [] u).map fun r => (.table .value r.1, r.2)
    | _, _ =>
      if s.head? = some '\x22' ∨ s.head? = some '\x27' then
        (string s).map fun r => (.leaf (.text (String.ofList r.1)), r.2)
      else (word s).map fun r => (.leaf r.1, r.2)

def items : (fuel depth : Nat) → List Char → Option (List Tree × List Char)
  | 0, _, _ => none
  | fuel + 1, depth, s => do
    let (item, rest) ← value fuel depth s
    match skipLines rest.length rest with
    | ',' :: t =>
      match skipLines t.length t with
      | ']' :: u => some ([item.tree], u)
      | u => (items fuel depth u).map fun r => (item.tree :: r.1, r.2)
    | ']' :: t => some ([item.tree], t)
    | _ => none

def entries : (fuel depth : Nat) → List (String × Node) → List Char →
    Option (List (String × Node) × List Char)
  | 0, _, _, _ => none
  | fuel + 1, depth, table, s => do
    let (path, rest) ← keyPath s
    match rest with
    | '=' :: t =>
      let (node, rest) ← value fuel depth (skipSpaces t)
      let table ← descend .dotted (define (path.getLast?.getD "") node) path.dropLast table
      match skipSpaces rest with
      | ',' :: u => entries fuel depth table (skipSpaces u)
      | '\x7d' :: u => some (table, u)
      | _ => none
    | _ => none

end

/-! Documents. -/

/-- Reads a header behind its opening bracket: the path and the rest of the document. -/
def header (s : List Char) : Option (Bool × List String × List Char) :=
  match s with
  | '[' :: t => do
    let (path, rest) ← keyPath t
    match rest with
    | ']' :: ']' :: u => (endLine u).map fun u => (true, path, u)
    | _ => none
  | _ => do
    let (path, rest) ← keyPath s
    match rest with
    | ']' :: u => (endLine u).map fun u => (false, path, u)
    | _ => none

/-- Reads at most `fuel` lines. The lines after a header belong to the table at its path. -/
def lines : (fuel : Nat) → (current : List String) → List (String × Node) → List Char →
    Option (List (String × Node))
  | 0, _, _, _ => none
  | fuel + 1, current, root, s =>
    match skipLines s.length s with
    | [] => some root
    | '[' :: t => do
      let (isElement, path, rest) ← header t
      let key := path.getLast?.getD ""
      let change := if isElement then openElement key else openTable key
      let root ← descend .path change path.dropLast root
      lines fuel path root rest
    | t => do
      let (path, rest) ← keyPath t
      match rest with
      | '=' :: u =>
        let (node, rest) ← value (u.length + 1) maxDepth (skipSpaces u)
        let rest ← endLine rest
        let add := descend .dotted (define (path.getLast?.getD "") node) path.dropLast
        let root ← within add current root
        lines fuel current root rest
      | _ => none

def ofText? (text : String) : Option Tree :=
  let s := match text.toList with
    | '\uFEFF' :: t => t
    | t => t
  (lines (s.length + 1) [] [] s).map fun entries => .table (trees entries)

end ProcessFormula.Config.Toml
