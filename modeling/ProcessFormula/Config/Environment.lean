import ProcessFormula.Config.Tree
import ProcessFormula.Json.Reader
import ProcessFormula.Text.Blank

/-!
Configuration in environment variables. A variable counts if its name starts with `FORMULA_` in any
case; the rest of the name, in lower case and split at double underscores, is a path of keys. The
value is a truth value, a number, a list between brackets, a table between braces or a quoted text,
and otherwise text as it stands.
-/

namespace ProcessFormula.Config.Environment

open Text

/-- The path of keys that a variable's name stands for. Dots split a path as well, and no key may be
empty. Blanks at either end of the path mean nothing. -/
def path? (name : String) : Option (List String) :=
  let lower := (trimBlanks name.toList).map Char.toLower
  let start := "formula_".toList
  if start.isPrefixOf lower then
    let path := (String.ofList (lower.drop start.length)).replace "__" "."
    let keys := (String.ofList (trimBlanks path.toList)).splitOn "."
    if keys.any String.isEmpty then none else some keys
  else none

def isSpace (c : Char) : Bool :=
  c == ' ' || c == '\t' || c == '\n' || c == '\x0C' || c == '\r'

def skipSpaces (s : List Char) : List Char := s.dropWhile isSpace

/-- The characters that end a bare value. -/
def isSeparator (c : Char) : Bool :=
  c == ',' || c == '\x7b' || c == '\x7d' || c == '[' || c == ']'

/-- Does the word write an integer of 64 bits, with or without a sign bit? -/
def isInteger (word : List Char) : Bool :=
  let (digits, greatest) := match word with
    | '-' :: s => (s, Nat.pow 2 63)
    | '+' :: s => (s, Nat.pow 2 64 - 1)
    | s => (s, Nat.pow 2 64 - 1)
  !digits.isEmpty && digits.all Char.isDigit && decide (Decimal.ofDigits digits ≤ greatest)

/-- The entry that a bare value stands for. Without a point only an integer is a number. -/
def bare (s : List Char) : Tree :=
  let word := trimBlanks s
  if isInteger word || (word.contains '.' && (Binary64.ofText? word).isSome) then .other
  else .text (String.ofList word)

/-- May the character stand in a quoted text? Of the control characters only the tab may. -/
def isQuotable (c : Char) : Bool := c == '\t' || (decide (0x20 ≤ c.toNat) && c != '\x7F')

def quoted : List Char → Option (List Char × List Char)
  | [] => none
  | '\\' :: 'u' :: a :: b :: c :: d :: s => do
    let character ← Json.hexCharacter? [a, b, c, d]
    (quoted s).map fun r => (character :: r.1, r.2)
  | '\\' :: 'U' :: a :: b :: c :: d :: e :: f :: g :: h :: s => do
    let character ← Json.hexCharacter? [a, b, c, d, e, f, g, h]
    (quoted s).map fun r => (character :: r.1, r.2)
  | '\\' :: c :: s => do
    let character ← (Json.escaped? c).filter (· != '/')
    (quoted s).map fun r => (character :: r.1, r.2)
  | c :: s =>
    if c = '\x22' then some ([], s)
    else if isQuotable c then (quoted s).map fun r => (c :: r.1, r.2)
    else none

def isKeyChar (c : Char) : Bool := c.isAlphanum || c == '_' || c == '-'

/-- Reads a key of a table and the equals sign behind it. -/
def key? (s : List Char) : Option (String × List Char) := do
  let (key, rest) ← match skipSpaces s with
    | '\x22' :: t => quoted t
    | t =>
      let (key, rest) := t.span isKeyChar
      if key.isEmpty then none else some (key, rest)
  match skipSpaces rest with
  | '=' :: t => some (String.ofList key, t)
  | _ => none

mutual

/-- Reads a value inside which less than `fuel` values begin, and the white space behind it. A truth
value ends with its last letter, whatever follows. -/
def value : (fuel : Nat) → List Char → Option (Tree × List Char)
  | 0, _ => none
  | fuel + 1, s =>
    match skipSpaces s with
    | 't' :: 'r' :: 'u' :: 'e' :: t => some (.flag true, skipSpaces t)
    | 'f' :: 'a' :: 'l' :: 's' :: 'e' :: t => some (.flag false, skipSpaces t)
    | '\x7b' :: t => (entries fuel [] t).map fun r => (.table r.1, skipSpaces r.2)
    | '[' :: t => (items fuel t).map fun r => (.list r.1, skipSpaces r.2)
    | '\x22' :: t => (quoted t).map fun r => (.text (String.ofList r.1), skipSpaces r.2)
    | '\x27' :: t =>
      match t with
      | c :: '\x27' :: t => some (.text (String.ofList [c]), skipSpaces t)
      | _ => none
    | t =>
      let (word, rest) := t.span fun c => !isSeparator c
      some (bare word, rest)

/-- Reads the items of a list up to and past its closing bracket. It may follow a comma, but not
white space behind one, since an item may be empty. -/
def items : (fuel : Nat) → List Char → Option (List Tree × List Char)
  | 0, _ => none
  | _ + 1, ']' :: t => some ([], t)
  | fuel + 1, s => do
    let (item, rest) ← value fuel s
    match rest with
    | ',' :: t => (items fuel t).map fun r => (item :: r.1, r.2)
    | ']' :: t => some ([item], t)
    | _ => none

/-- Reads the entries of a table up to and past its closing brace. Of entries with the same key the
last counts. -/
def entries : (fuel : Nat) → List (String × Tree) → List Char →
    Option (List (String × Tree) × List Char)
  | 0, _, _ => none
  | _ + 1, table, '\x7d' :: t => some (table, t)
  | fuel + 1, table, s => do
    let (key, rest) ← key? s
    let (entry, rest) ← value fuel rest
    let table := Tree.put key entry table
    match rest with
    | ',' :: t => entries fuel table t
    | '\x7d' :: t => some (table, t)
    | _ => none

end

/-- The entry that the value of a variable stands for. What has no other reading is text. -/
def entry (text : String) : Tree :=
  match value (text.length + 2) text.toList with
  | some (t, []) => t
  | _ => .text text

def tree (settings : List (String × String)) : Tree :=
  let layers := settings.filterMap fun v => (path? v.1).map fun path => Tree.nest path (entry v.2)
  layers.foldl Tree.merge .empty

end ProcessFormula.Config.Environment
