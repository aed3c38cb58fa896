/-!
Places in a YAML document. Line ends are brought into one form first, except for the two separators
of Unicode, which end lines as well but stay what they are in a text.
-/

namespace ProcessFormula.Config.Yaml

def isSpace (c : Char) : Bool := c == ' ' || c == '\t'

def isBreak (c : Char) : Bool := c == '\n' || c == '\u2028' || c == '\u2029'

def plainLineEnds : List Char → List Char
  | [] => []
  | '\r' :: '\n' :: s => '\n' :: plainLineEnds s
  | c :: s => (if c = '\r' ∨ c = '\u0085' then '\n' else c) :: plainLineEnds s

def isPrintable (c : Char) : Bool :=
  c == '\t' || isBreak c || (decide (0x20 ≤ c.toNat) && decide (c.toNat ≤ 0x7E)) ||
    (decide (0xA0 ≤ c.toNat) && c != '\uFFFE' && c != '\uFFFF')

def isNameChar (c : Char) : Bool := c.isAlphanum || c == '_' || c == '-'

def endsToken : List Char → Bool
  | [] => true
  | c :: _ => isSpace c || isBreak c

/-- Does a marker of the start of a document stand here, if this is the start of a line? -/
def isStartMarker : List Char → Bool
  | '-' :: '-' :: '-' :: s => endsToken s
  | _ => false

def isEndMarker : List Char → Bool
  | '.' :: '.' :: '.' :: s => endsToken s
  | _ => false

def isMarker (s : List Char) : Bool := isStartMarker s || isEndMarker s

/-- The text behind a comment, if one starts here. It ends before the end of the line. -/
def skipComment : List Char → List Char
  | '#' :: s => s.dropWhile fun c => !isBreak c
  | s => s

/-- The text behind the rest of a line that may hold nothing but a comment. -/
def endLine? (s : List Char) : Option (List Char) :=
  match skipComment (s.dropWhile isSpace) with
  | [] => some []
  | c :: t => if isBreak c then some t else none

/-- A place in a document: the line and the column, both counted from zero, and what follows. -/
structure Cursor where
  line : Nat
  column : Nat
  rest : List Char

namespace Cursor

def step (c : Cursor) (character : Char) : Cursor :=
  if isBreak character then ⟨c.line + 1, 0, c.rest.tail⟩ else ⟨c.line, c.column + 1, c.rest.tail⟩

def drop (c : Cursor) (n : Nat) : Cursor := (c.rest.take n).foldl step c

/-- The place at which the given end of the rest begins. -/
def moveTo (c : Cursor) (rest : List Char) : Cursor := c.drop (c.rest.length - rest.length)

end Cursor

end ProcessFormula.Config.Yaml
