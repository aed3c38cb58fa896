import ProcessFormula.Config.Yaml.Cursor
import ProcessFormula.Json.Reader

/-!
The texts of YAML scalars: plain words, quoted texts and blocks of lines. Each may run over several
lines; in all but literal blocks the line ends are then folded.
-/

namespace ProcessFormula.Config.Yaml

/-- What stands between two parts of a scalar: white space within a line, the line ends between
lines, or the line ends behind an escaped one. -/
inductive Gap where
  | spaces (s : List Char)
  | breaks (s : List Char)
  | joined (s : List Char)

namespace Gap

/-- The text that a gap leaves. A single line end becomes a space, and of several the first is
dropped, unless it is a separator of its own. -/
def text : Gap → List Char
  | .spaces s => s
  | .breaks ['\n'] => [' ']
  | .breaks ('\n' :: s) => s
  | .breaks s => s
  | .joined s => s

def isEmpty : Gap → Bool
  | .spaces s => s.isEmpty
  | _ => false

def hasBreak : Gap → Bool
  | .spaces _ => false
  | _ => true

/-- White space at either end of a line means nothing. -/
def addSpace (c : Char) : Gap → Gap
  | .spaces s => .spaces (s ++ [c])
  | gap => gap

def addBreak (c : Char) : Gap → Gap
  | .spaces _ => .breaks [c]
  | .breaks s => .breaks (s ++ [c])
  | .joined s => .joined (s ++ [c])

end Gap

def behind {α : Type} (before : List Char) (result : Option (List Char × α)) :
    Option (List Char × α) :=
  result.map fun r => (before ++ r.1, r.2)

/-! Plain words. -/

def isFlowMark (c : Char) : Bool :=
  c == ',' || c == '[' || c == ']' || c == '\x7b' || c == '\x7d'

def isIndicator (c : Char) : Bool :=
  isFlowMark c || "-?:#&*!|>%@\x22\x27\x60".toList.contains c

/-- Does a plain word start here? A dash may start one if something follows it, and outside flow
collections a question mark or a colon as well. -/
def startsPlain (isFlow : Bool) : List Char → Bool
  | [] => false
  | c :: s =>
    if isIndicator c then
      (c == '-' || (!isFlow && (c == '?' || c == ':'))) && !endsToken s
    else !endsToken [c]

/-- Reads plain words on from a column, behind a gap. Further lines have at least the given column,
except in flow collections, where only tabs may not stand further to the left. The result is the
text, whether lines end behind it, and what follows these. In flow collections a colon cannot stand
before a mark of their structure. -/
def plainWords (isFlow : Bool) (least : Nat) :
    (column : Nat) → (gap : Gap) → List Char → Option (List Char × Bool × List Char)
  | _, gap, [] => some ([], gap.hasBreak, [])
  | column, gap, c :: s =>
    if isSpace c then
      if gap.hasBreak ∧ column < least ∧ c = '\t' then none
      else plainWords isFlow least (column + 1) (gap.addSpace c) s
    else if isBreak c then plainWords isFlow least 0 (gap.addBreak c) s
    else
      let atEnd := !gap.isEmpty && ((!isFlow && decide (column < least)) ||
        (column == 0 && isMarker (c :: s)) || c == '#')
      if atEnd then some ([], gap.hasBreak, c :: s)
      else if isFlow ∧ c = ':' ∧ s.head?.any (fun d => isFlowMark d || d == '?') then none
      else if (c = ':' ∧ endsToken s) ∨ (isFlow ∧ isFlowMark c) then
        some ([], gap.hasBreak, c :: s)
      else behind (gap.text ++ [c]) (plainWords isFlow least (column + 1) (.spaces []) s)

/-! Quoted texts. -/

/-- The escapes that stand for one character, other than line ends. -/
def escapes : List (Char × Char) :=
  [('0', '\x00'), ('a', '\x07'), ('b', '\x08'), ('t', '\t'), ('\t', '\t'), ('n', '\n'),
    ('v', '\x0B'), ('f', '\x0C'), ('r', '\r'), ('e', '\x1B'), (' ', ' '), ('\x22', '\x22'),
    ('/', '/'), ('\\', '\\'), ('N', '\u0085'), ('_', '\u00A0'), ('L', '\u2028'), ('P', '\u2029')]

def singleQuoted (gap : Gap) : List Char → Option (List Char × List Char)
  | [] => none
  | '\x27' :: '\x27' :: s => behind (gap.text ++ ['\x27']) (singleQuoted (.spaces []) s)
  | c :: s =>
    if c = '\x27' then some (gap.text, s)
    else if isSpace c then singleQuoted (gap.addSpace c) s
    else if isBreak c then
      if isMarker s then none else singleQuoted (gap.addBreak c) s
    else behind (gap.text ++ [c]) (singleQuoted (.spaces []) s)

def doubleQuoted (gap : Gap) : List Char → Option (List Char × List Char)
  | [] => none
  | '\\' :: 'x' :: a :: b :: s => do
    let c ← Json.hexCharacter? [a, b]
    behind (gap.text ++ [c]) (doubleQuoted (.spaces []) s)
  | '\\' :: 'u' :: a :: b :: c :: d :: s => do
    let c ← Json.hexCharacter? [a, b, c, d]
    behind (gap.text ++ [c]) (doubleQuoted (.spaces []) s)
  | '\\' :: 'U' :: a :: b :: c :: d :: e :: f :: g :: h :: s => do
    let c ← Json.hexCharacter? [a, b, c, d, e, f, g, h]
    behind (gap.text ++ [c]) (doubleQuoted (.spaces []) s)
  | '\\' :: e :: s =>
    if isBreak e then
      if isMarker s then none else behind gap.text (doubleQuoted (.joined []) s)
    else do
      let c ← escapes.lookup e
      behind (gap.text ++ [c]) (doubleQuoted (.spaces []) s)
  | c :: s =>
    if c = '\x22' then some (gap.text, s)
    else if isSpace c then doubleQuoted (gap.addSpace c) s
    else if isBreak c then
      if isMarker s then none else doubleQuoted (gap.addBreak c) s
    else behind (gap.text ++ [c]) (doubleQuoted (.spaces []) s)

/-! Blocks of lines. -/

/-- What becomes of the line ends behind a block: none is kept, the first one, or all. -/
inductive Chomping where
  | strip
  | clip
  | keep
  deriving DecidableEq

def Chomping.ofMark? : Char → Option Chomping
  | '-' => some .strip
  | '+' => some .keep
  | _ => none

/-- The digit of an indentation, which is not zero. -/
def indentDigit? (c : Char) : Option Nat :=
  if c.isDigit ∧ c ≠ '0' then some (c.toNat - 48) else none

/-- Reads the marks behind the bar or the arrow of a block, in either order: how it ends, and by how
many columns it is indented if that is not left to its first line. -/
def blockMarks (s : List Char) : Chomping × Nat × List Char :=
  match s with
  | [] => (.clip, 0, [])
  | c :: t =>
    match Chomping.ofMark? c, indentDigit? c with
    | some chomping, _ =>
      match t.head?.bind indentDigit? with
      | some n => (chomping, n, t.tail)
      | none => (chomping, 0, t)
    | none, some n =>
      match t.head?.bind Chomping.ofMark? with
      | some chomping => (chomping, n, t.tail)
      | none => (.clip, n, t)
    | none, none => (.clip, 0, s)

/-- The result of skipping indentation: the line ends in it, the greatest column on the way, the
column that is reached, and what follows. -/
structure Indentation where
  breaks : List Char
  widest : Nat
  column : Nat
  rest : List Char

/-- Skips spaces and empty lines. No line is indented further than the column of the block, if that
is known, and no tab stands before it. -/
def indentation (known : Option Nat) : (column widest : Nat) → List Char → Option Indentation
  | column, widest, [] => some ⟨[], max widest column, column, []⟩
  | column, widest, c :: s =>
    let isBefore := known.all fun n => decide (column < n)
    if isBefore && c == ' ' then indentation known (column + 1) widest s
    else if isBefore && c == '\t' then none
    else if isBreak c then
      (indentation known 0 (max widest column) s).map fun r => { r with breaks := c :: r.breaks }
    else some ⟨[], max widest column, column, c :: s⟩

/-- Reads the lines of a block in a column, and what is left of the line ends behind it. The end of
the line before is given, whether that line starts with white space, and the empty lines since.
Folding leaves the ends of lines alone that start with white space. -/
def blockLines (isFolded : Bool) (chomping : Chomping) (column : Nat) : (fuel : Nat) →
    (lineEnd : List Char) → (afterSpace : Bool) → Indentation → Option (List Char × List Char)
  | 0, _, _, _ => none
  | fuel + 1, lineEnd, afterSpace, start =>
    if start.rest.isEmpty ∨ start.column ≠ column then
      let kept := if chomping = .strip then [] else lineEnd
      let more := if chomping = .keep then start.breaks else []
      some (kept ++ more, start.rest)
    else do
      let startsWithSpace := start.rest.head?.any isSpace
      let joint := if isFolded && lineEnd == ['\n'] && !afterSpace && !startsWithSpace then
          (if start.breaks.isEmpty then [' '] else [])
        else lineEnd
      let (line, rest) := start.rest.span fun c => !isBreak c
      let next ← indentation (some column) (if rest.isEmpty then column + line.length else 0) 0
        rest.tail
      behind (joint ++ start.breaks ++ line)
        (blockLines isFolded chomping column fuel (rest.take 1) startsWithSpace next)

/-- Reads a block of lines behind its bar or arrow. The columns to the left of the given one belong
to what is around it. -/
def block (isFolded : Bool) (least : Nat) (s : List Char) : Option (List Char × List Char) := do
  let (chomping, increment, s) := blockMarks s
  let s ← endLine? s
  let known := if increment = 0 then none else some (least - 1 + increment)
  let start ← indentation known 0 0 s
  let column := known.getD (max start.widest (max least 1))
  blockLines isFolded chomping column (s.length + 1) [] false start

/-- A scalar without its position. Only plain words may stand for anything but text. -/
structure Scalar where
  text : List Char
  isPlain : Bool

end ProcessFormula.Config.Yaml
