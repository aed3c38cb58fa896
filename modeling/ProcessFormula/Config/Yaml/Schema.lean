import ProcessFormula.Config.Tree
import ProcessFormula.Config.Yaml.Scalar

/-!
What YAML scalars stand for. A plain word without a tag may be a truth value, a number or nothing at
all. A tag of the core schema asks for one of these whatever the scalar looks like, a tag of the
document's own is refused, and with any other tag a scalar is text.
-/

namespace ProcessFormula.Config.Yaml

/-! Numbers. -/

def based? (base : Nat) (digits : List Char) : Option Nat :=
  if digits.isEmpty then none
  else digits.foldlM (fun n c =>
    ((Json.hexDigit? c).filter fun d => decide (d < base)).map (base * n + ·)) 0

/-- A word without its sign, and whether that is a minus. -/
def unsigned : List Char → Bool × List Char
  | '-' :: s => (true, s)
  | '+' :: s => (false, s)
  | s => (false, s)

/-- Is the word an integer of 128 bits, with or without a sign bit? After a leading zero only the
marks of a base may follow. -/
def isInteger (word : List Char) : Bool :=
  let (negative, digits) := unsigned word
  let number := match digits with
    | '0' :: 'x' :: s => based? 16 s
    | '0' :: 'o' :: s => based? 8 s
    | '0' :: 'b' :: s => based? 2 s
    | '0' :: _ :: _ => none
    | s => based? 10 s
  number.any fun n => if negative then decide (n ≤ Nat.pow 2 127) else decide (n < Nat.pow 2 128)

def isFloat (word : List Char) : Bool :=
  let text := String.ofList word
  let digits := String.ofList (unsigned word).2
  [".inf", ".Inf", ".INF"].contains digits || [".nan", ".NaN", ".NAN"].contains text ||
    (Binary64.ofText? word).any Float.isFinite

/-- Does a word consist of digits after a leading zero? Such a word is text. -/
def isPadded (word : List Char) : Bool :=
  match (unsigned word).2 with
  | '0' :: c :: s => (c :: s).all Char.isDigit
  | _ => false

/-! Words. -/

def flag? (word : String) : Option Bool :=
  if ["true", "True", "TRUE"].contains word then some true
  else if ["false", "False", "FALSE"].contains word then some false
  else none

def isNull (word : String) : Bool := ["~", "null", "Null", "NULL"].contains word

/-- The entry that a plain word without a tag stands for. -/
def plainTree (word : List Char) : Tree :=
  let text := String.ofList word
  match flag? text with
  | some b => .flag b
  | none =>
    if word.isEmpty || isNull text || isInteger word || (isFloat word && !isPadded word) then .other
    else .text text

/-! Tags. -/

/-- A tag as its octets. Escapes in a tag may write any octets. -/
abbrev Tag := List UInt8

namespace Tag

def ofChars (s : List Char) : Tag := (String.ofList s).toUTF8.toList

def core (name : String) : Tag := ofChars ("tag:yaml.org,2002:" ++ name).toList

def isOwn (tag : Tag) : Bool := tag.head? == some 0x21

/-- The tag that a lone exclamation mark is: it has no name. -/
def unnamed : Tag := [0x21]

/-- Is the tag one of the document's own that can be read as text? -/
def isReadable (tag : Tag) : Bool := tag.isOwn && (String.fromUTF8? ⟨tag.tail.toArray⟩).isSome

end Tag

namespace Scalar

def tree (s : Scalar) : Tree :=
  if s.isPlain then plainTree s.text else .text (String.ofList s.text)

/-- The entry that a scalar stands for, if that is as its tag says. -/
def tree? (s : Scalar) : Option Tag → Option Tree
  | none => some s.tree
  | some tag =>
    let text := String.ofList s.text
    if tag.isReadable then none
    else if tag = Tag.core "bool" then (flag? text).map .flag
    else if tag = Tag.core "int" then (if isInteger s.text then some .other else none)
    else if tag = Tag.core "float" then (if isFloat s.text then some .other else none)
    else if tag = Tag.core "null" then (if isNull text then some .other else none)
    else if tag.isOwn then some s.tree
    else some (.text text)

/-- The scalar as a key, which stands for its letters whatever its tag. -/
def key (s : Scalar) : String := String.ofList s.text

end Scalar

end ProcessFormula.Config.Yaml
