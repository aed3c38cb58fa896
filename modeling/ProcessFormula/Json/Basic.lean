import ProcessFormula.Number.Binary64

/-!
JSON documents. Numbers are kept as they are written, because what a number means depends on who
asks for it, and the members of an object are kept in order with their repetitions.
-/

namespace ProcessFormula

inductive Json where
  | null
  | bool (b : Bool)
  | number (literal : String)
  | string (s : String)
  /-- A string literal that names half of a surrogate pair and so is no text. -/
  | brokenString
  | array (items : List Json)
  | object (members : List (String × Json))

namespace Json

/-- The parts of a record: an object has each name exactly once, whatever else it has, and an array
has just the parts in order. -/
def fields? (names : List String) : Json → Option (List Json)
  | .object members => names.mapM fun name =>
    match members.filter fun m => m.1 == name with
    | [m] => some m.2
    | _ => none
  | .array items => if items.length = names.length then some items else none
  | _ => none

/-- A case without content: its name, or an object that gives `null` as the content. -/
def caseName? : Json → Option String
  | .string s => some s
  | .object [(name, .null)] => some name
  | _ => none

def string? : Json → Option String
  | .string s => some s
  | _ => none

def array? : Json → Option (List Json)
  | .array items => some items
  | _ => none

def list? {α : Type} (item? : Json → Option α) (j : Json) : Option (List α) :=
  j.array?.bind (·.mapM item?)

end Json

end ProcessFormula
