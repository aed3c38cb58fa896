import ProcessFormula.Config.Yaml.Tag

/-!
YAML documents as tokens. Columns open and close block collections, and a text becomes a key when
the colon behind it is found; the tokens that this calls for are then put in front of it. A key
without a question mark stands on one line with its colon, at most 1024 characters before it.
-/

namespace ProcessFormula.Config.Yaml

inductive Token where
  | directive (d : Directive)
  | startMarker
  | endMarker
  /-- A block sequence or mapping opens. -/
  | blockList
  | blockMap
  | blockEnd
  /-- The brackets and braces of flow collections. -/
  | flowList
  | flowListEnd
  | flowMap
  | flowMapEnd
  | comma
  | dash
  | key
  | value
  | reference (name : String)
  | anchor (name : String)
  | tag (t : WrittenTag)
  | scalar (s : Scalar)

/-- A place where a key may have begun: how many tokens come before it, where it stands, and whether
nothing else can stand there. -/
structure KeyStart where
  position : Nat
  line : Nat
  column : Nat
  isRequired : Bool

/-- The tokens so far, latest first, and what decides on the next ones: the columns of the open
block collections and the possible starts of keys, both from the innermost outwards. There is one
possible start in each open flow collection and one outside them. -/
structure Scan where
  place : Cursor
  tokens : List Token
  columns : List Nat
  start : Option KeyStart
  outer : List (Option KeyStart)
  /-- May a key start here? -/
  allowsKey : Bool

namespace Scan

def begin (s : List Char) : Scan := ⟨⟨0, 0, s⟩, [], [], none, [], true⟩

def isFlow (s : Scan) : Bool := !s.outer.isEmpty

/-- The first column that does not belong to what is around the innermost block collection. -/
def least (s : Scan) : Nat := (s.columns.head?.map (· + 1)).getD 0

def emit (s : Scan) (t : Token) : Scan := { s with tokens := t :: s.tokens }

def insert (s : Scan) (position : Nat) (t : Token) : Scan :=
  let (later, earlier) := s.tokens.splitAt (s.tokens.length - position)
  { s with tokens := later ++ t :: earlier }

def take (s : Scan) (n : Nat) (t : Token) : Scan := { s.emit t with place := s.place.drop n }

/-- The scan at an end of the rest, with a token for what comes before it. -/
def takeTo (s : Scan) (rest : List Char) (t : Token) : Scan :=
  { s.emit t with place := s.place.moveTo rest }

/-! Columns. -/

/-- Opens a block collection, unless one in this column is open. Nothing is opened in a flow
collection. -/
def openBlock (s : Scan) (column position : Nat) (t : Token) : Scan :=
  if !s.isFlow && decide (s.least ≤ column) then
    { s.insert position t with columns := column :: s.columns }
  else s

/-- Closes the block collections whose columns are not left of the given one. -/
def closeColumns (column : Nat) : List Nat → List Token → List Nat × List Token
  | [], tokens => ([], tokens)
  | c :: columns, tokens =>
    if column ≤ c then closeColumns column columns (.blockEnd :: tokens)
    else (c :: columns, tokens)

/-- Closes block collections, but none around a flow collection. -/
def closeBlocks (s : Scan) (column : Nat) : Scan :=
  if s.isFlow then s
  else
    let (columns, tokens) := closeColumns column s.columns s.tokens
    { s with columns, tokens }

/-! Keys. -/

/-- Gives up a possible start of a key that is too far away by now. -/
def expire? (place : Cursor) : Option KeyStart → Option (Option KeyStart)
  | none => some none
  | some k =>
    if k.line < place.line ∨ k.column + 1024 < place.column then
      if k.isRequired then none else some none
    else some (some k)

/-- Gives up all possible starts of keys that are too far away by now. -/
def expireKeys? (s : Scan) : Option Scan := do
  return { s with start := ← expire? s.place s.start, outer := ← s.outer.mapM (expire? s.place) }

/-- Gives up the possible start of a key, where a token shows that it was none. -/
def dropKey? (s : Scan) : Option Scan :=
  if s.start.any KeyStart.isRequired then none else some { s with start := none }

def noteKey? (s : Scan) : Option Scan :=
  if s.allowsKey then do
    let isRequired := !s.isFlow && s.columns.head? == some s.place.column
    let start := KeyStart.mk s.tokens.length s.place.line s.place.column isRequired
    return { ← s.dropKey? with start := some start }
  else some s

/-! Tokens. -/

def marker? (s : Scan) (t : Token) : Option Scan := do
  let s ← (s.closeBlocks 0).dropKey?
  return { s.take 3 t with allowsKey := false }

def directive? (s : Scan) : Option Scan := do
  let s ← (s.closeBlocks 0).dropKey?
  let (d, rest) ← Yaml.directive s.place.rest.tail
  return { s.takeTo rest (.directive d) with allowsKey := false }

def openFlow? (s : Scan) (t : Token) : Option Scan := do
  let s ← s.noteKey?
  return { s.take 1 t with start := none, outer := s.start :: s.outer, allowsKey := true }

def closeFlow? (s : Scan) (t : Token) : Option Scan := do
  let s ← s.dropKey?
  return { s.take 1 t with
    start := s.outer.head?.getD none, outer := s.outer.tail, allowsKey := false }

def comma? (s : Scan) : Option Scan := do
  let s ← s.dropKey?
  return { s.take 1 .comma with allowsKey := true }

/-- The dash of an item or the question mark of a key, which opens a block collection. -/
def indicator? (s : Scan) (collection t : Token) : Option Scan :=
  if s.isFlow || s.allowsKey then do
    let s ← (s.openBlock s.place.column s.tokens.length collection).dropKey?
    return s.take 1 t
  else none

def dash? (s : Scan) : Option Scan := do
  return { ← s.indicator? .blockList .dash with allowsKey := true }

def key? (s : Scan) : Option Scan := do
  return { ← s.indicator? .blockMap .key with allowsKey := !s.isFlow }

def value? (s : Scan) : Option Scan :=
  match s.start with
  | some k =>
    let s := (s.insert k.position .key).openBlock k.column k.position .blockMap
    some { s.take 1 .value with start := none, allowsKey := false }
  | none =>
    if s.isFlow then some { s.take 1 .value with allowsKey := false }
    else if s.allowsKey then
      some ((s.openBlock s.place.column s.tokens.length .blockMap).take 1 .value)
    else none

/-- A token that a key may start with and behind which none does, from the reading of the text
behind its first character. -/
def lexeme? (s : Scan) (read : List Char → Option (Token × List Char)) : Option Scan := do
  let s ← s.noteKey?
  let (t, rest) ← read s.place.rest.tail
  return { s.takeTo rest t with allowsKey := false }

def block? (s : Scan) (isFolded : Bool) : Option Scan := do
  let s ← s.dropKey?
  let (text, rest) ← Yaml.block isFolded s.least s.place.rest.tail
  return { s.takeTo rest (.scalar ⟨text, false⟩) with allowsKey := true }

/-- Plain words. A key may start behind their last line. -/
def plain? (s : Scan) : Option Scan := do
  let s ← s.noteKey?
  let (text, hasBreak, rest) ←
    plainWords s.isFlow s.least s.place.column (.spaces []) s.place.rest
  return { s.takeTo rest (.scalar ⟨text, true⟩) with allowsKey := hasBreak }

/-- Skips white space, comments and line ends. Tabs are white space only where no key may start, or
in a flow collection. A byte order mark may start a line. -/
def skipTo (isFlow : Bool) : (allowsKey inComment : Bool) → (line column : Nat) → List Char →
    Cursor × Bool
  | allowsKey, _, line, column, [] => (⟨line, column, []⟩, allowsKey)
  | allowsKey, inComment, line, column, c :: s =>
    if isBreak c then skipTo isFlow (allowsKey || !isFlow) false (line + 1) 0 s
    else if inComment ∨ c = ' ' ∨ (c = '\t' ∧ (isFlow ∨ ¬allowsKey)) ∨
        (c = '\uFEFF' ∧ column = 0) then
      skipTo isFlow allowsKey inComment line (column + 1) s
    else if c = '#' then skipTo isFlow allowsKey true line (column + 1) s
    else (⟨line, column, c :: s⟩, allowsKey)

/-- The scan at the next token, with the block collections closed that do not go on there. -/
def toToken? (s : Scan) : Option Scan := do
  let (place, allowsKey) :=
    skipTo s.isFlow s.allowsKey false s.place.line s.place.column s.place.rest
  let s ← { s with place, allowsKey }.expireKeys?
  return s.closeBlocks (place.column + 1)

def token? (s : Scan) : Option Scan :=
  match s.place.rest with
  | [] => none
  | c :: rest =>
    if s.place.column = 0 ∧ c = '%' then s.directive?
    else if s.place.column = 0 ∧ isStartMarker (c :: rest) then s.marker? .startMarker
    else if s.place.column = 0 ∧ isEndMarker (c :: rest) then s.marker? .endMarker
    else match c with
      | '[' => s.openFlow? .flowList
      | '\x7b' => s.openFlow? .flowMap
      | ']' => s.closeFlow? .flowListEnd
      | '\x7d' => s.closeFlow? .flowMapEnd
      | ',' => s.comma?
      | '*' => s.lexeme? fun t => (anchorName t).map fun r => (.reference r.1, r.2)
      | '&' => s.lexeme? fun t => (anchorName t).map fun r => (.anchor r.1, r.2)
      | '!' => s.lexeme? fun t => (writtenTag s.isFlow t).map fun r => (.tag r.1, r.2)
      | '\x27' => s.lexeme? fun t =>
        (singleQuoted (.spaces []) t).map fun r => (.scalar ⟨r.1, false⟩, r.2)
      | '\x22' => s.lexeme? fun t =>
        (doubleQuoted (.spaces []) t).map fun r => (.scalar ⟨r.1, false⟩, r.2)
      | _ =>
        if c = '-' ∧ endsToken rest then s.dash?
        else if c = '?' ∧ (s.isFlow ∨ endsToken rest) then s.key?
        else if c = ':' ∧ (s.isFlow ∨ endsToken rest) then s.value?
        else if c = '|' ∧ ¬s.isFlow then s.block? false
        else if c = '>' ∧ ¬s.isFlow then s.block? true
        else if startsPlain s.isFlow (c :: rest) then s.plain?
        else none

/-- Reads at most `fuel` tokens. At the end of the document all block collections are closed. -/
def run? : (fuel : Nat) → Scan → Option (List Token)
  | 0, _ => none
  | fuel + 1, s => do
    let s ← s.toToken?
    if s.place.rest.isEmpty then return (← (s.closeBlocks 0).dropKey?).tokens.reverse
    else run? fuel (← s.token?)

end Scan

/-- The tokens of a document. Each takes a character away, so the length of the text bounds their
number. -/
def tokens? (s : List Char) : Option (List Token) := (Scan.begin s).run? (s.length + 1)

end ProcessFormula.Config.Yaml
