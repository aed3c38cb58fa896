import ProcessFormula.Config.Yaml.Schema

/-!
The names in a YAML document: anchors, tags and directives. A tag is written with a handle, which
stands for the start of a tag, or in full between angle brackets.
-/

namespace ProcessFormula.Config.Yaml

/-- Reads the name of an anchor. What follows cannot be taken for a part of it. -/
def anchorName (s : List Char) : Option (String × List Char) :=
  let (name, rest) := s.span isNameChar
  let endsName := endsToken rest || rest.head?.any fun c => "?:,]\x7d%@\x60".toList.contains c
  if name.isEmpty ∨ ¬endsName then none else some (String.ofList name, rest)

/-- A tag as it is written. Without a handle the rest is the whole tag. -/
structure WrittenTag where
  handle : Tag
  rest : Tag

/-! Parts of tags. -/

/-- The characters of a tag. Where it cannot end a flow collection there are a few more. -/
def isTagChar (inBrackets : Bool) (c : Char) : Bool :=
  isNameChar c || ";/?:@&=+$.!~*\x27()".toList.contains c || (inBrackets && ",[]".toList.contains c)

/-- An octet that is written as a percent sign and two hexadecimal digits. -/
def escapedOctet? : List Char → Option (UInt8 × List Char)
  | '%' :: a :: b :: s => (Json.hexNumber? [a, b]).map fun n => (UInt8.ofNat n, s)
  | _ => none

/-- The number of octets that follow a leading octet of UTF-8. -/
def following? (n : UInt8) : Option Nat :=
  if n &&& 0x80 = 0 then some 0
  else if n &&& 0xE0 = 0xC0 then some 1
  else if n &&& 0xF0 = 0xE0 then some 2
  else if n &&& 0xF8 = 0xF0 then some 3
  else none

def followingOctets : (count : Nat) → List Char → Option (Tag × List Char)
  | 0, s => some ([], s)
  | count + 1, s => do
    let (octet, s) ← escapedOctet? s
    if octet &&& 0xC0 = 0x80 then
      (followingOctets count s).map fun r => (octet :: r.1, r.2)
    else none

/-- Reads the characters of a tag, at most `fuel` of them. Escapes write whole sequences of UTF-8.
-/
def tagChars (inBrackets : Bool) : (fuel : Nat) → List Char → Option (Tag × List Char)
  | 0, s => some ([], s)
  | _, [] => some ([], [])
  | fuel + 1, c :: s =>
    if c = '%' then do
      let (octet, s) ← escapedOctet? (c :: s)
      let (more, s) ← followingOctets (← following? octet) s
      (tagChars inBrackets fuel s).map fun r => (octet :: (more ++ r.1), r.2)
    else if isTagChar inBrackets c then
      (tagChars inBrackets fuel s).map fun r => (Tag.ofChars [c] ++ r.1, r.2)
    else some ([], c :: s)

/-- Reads a tag or a part of one. An octet zero ends it. -/
def tagPart (inBrackets : Bool) (s : List Char) : Option (Tag × List Char) :=
  (tagChars inBrackets s.length s).map fun r => (r.1.takeWhile (· != 0), r.2)

def someTagPart (inBrackets : Bool) (s : List Char) : Option (Tag × List Char) := do
  let (part, rest) ← tagPart inBrackets s
  if rest.length = s.length then none else some (part, rest)

/-- Reads the letters of a handle behind its exclamation mark, and a second one if it is there. -/
def handleRest (s : List Char) : List Char × Bool × List Char :=
  let (name, rest) := s.span isNameChar
  match rest with
  | '!' :: t => (name, true, t)
  | _ => (name, false, rest)

/-- Reads a tag behind its exclamation mark. In a flow collection a comma may follow it. -/
def writtenTag (isFlow : Bool) (s : List Char) : Option (WrittenTag × List Char) := do
  let (tag, rest) ← match s with
    | '<' :: t => do
      let (tag, rest) ← someTagPart true t
      match rest with
      | '>' :: rest => some (WrittenTag.mk [] tag, rest)
      | _ => none
    | _ =>
      let (name, closed, t) := handleRest s
      if closed then do
        let (part, rest) ← someTagPart false t
        some (WrittenTag.mk (Tag.ofChars ('!' :: name ++ ['!'])) part, rest)
      else do
        let (part, rest) ← tagPart false t
        let part := Tag.ofChars name ++ part
        let written := if part.isEmpty then WrittenTag.mk [] Tag.unnamed
          else WrittenTag.mk Tag.unnamed part
        some (written, rest)
  if endsToken rest || (isFlow && rest.head? == some ',') then some (tag, rest) else none

/-! Directives. -/

/-- A directive: the version of the language, or a handle with the start of a tag. -/
inductive Directive where
  | version (major minor : Nat)
  | tags (handle start : Tag)

def versionNumber (s : List Char) : Option (Nat × List Char) :=
  let (digits, rest) := s.span Char.isDigit
  if digits.isEmpty ∨ 9 < digits.length then none else some (Decimal.ofDigits digits, rest)

/-- Reads a directive behind its percent sign, and the rest of its line. -/
def directive (s : List Char) : Option (Directive × List Char) := do
  let (name, rest) := s.span isNameChar
  let (directive, rest) ←
    if !endsToken rest then none
    else if name = "YAML".toList then do
      let (major, rest) ← versionNumber (rest.dropWhile isSpace)
      match rest with
      | '.' :: t => (versionNumber t).map fun r => (Directive.version major r.1, r.2)
      | _ => none
    else if name = "TAG".toList then
      match rest.dropWhile isSpace with
      | '!' :: t => do
        let (name, closed, t) := handleRest t
        let (start, rest) ← someTagPart true (t.dropWhile isSpace)
        let handle := '!' :: name ++ (if closed then ['!'] else [])
        if (closed || name.isEmpty) && t.head?.any isSpace && endsToken rest then
          some (Directive.tags (Tag.ofChars handle) start, rest)
        else none
      | _ => none
    else none
  return (directive, ← endLine? rest)

/-- The starts of tags that handles stand for. -/
abbrev Handles := List (Tag × Tag)

/-- The tag that is meant, if its handle is known. -/
def WrittenTag.tag? (handles : Handles) (t : WrittenTag) : Option Tag :=
  if t.handle.isEmpty then some t.rest else (handles.lookup t.handle).map (· ++ t.rest)

/-- The handles that directives define, behind which the two common ones are known. No handle is
defined twice, and at most one directive gives the version. -/
def handlesOf? (directives : List Directive) : Option Handles := do
  let versions := directives.filter fun d => d matches .version ..
  let isSupported := directives.all fun
    | .version major minor => major == 1 && (minor == 1 || minor == 2)
    | .tags .. => true
  let own := directives.filterMap fun
    | .tags handle start => some (handle, start)
    | .version .. => none
  let isClear := versions.length ≤ 1 ∧ (own.map Prod.fst).Nodup
  if isSupported ∧ isClear then
    some (own ++ [(Tag.unnamed, Tag.unnamed), (Tag.ofChars "!!".toList, Tag.core "")])
  else none

end ProcessFormula.Config.Yaml
