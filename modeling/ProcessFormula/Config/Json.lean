import ProcessFormula.Config.Tree
import ProcessFormula.Json.Reader

/-!
Configuration in JSON. The document has to be an object, of members with the same name the last
counts, and arrays and objects nest only so deep.
-/

namespace ProcessFormula.Config.Tree

mutual

/-- The configuration entry that a JSON document is. Arrays and objects nest at most `depth` deep in
it, and numbers have to be representable. -/
def ofJson? (depth : Nat) : Json → Option Tree
  | .null => some .other
  | .bool b => some (.flag b)
  | .number literal => (Json.number literal).float?.map fun _ => .other
  | .string s => some (.text s)
  | .brokenString => none
  | .array items => if depth = 0 then none else (ofItems? (depth - 1) items).map .list
  | .object members =>
    if depth = 0 then none else (ofMembers? (depth - 1) [] members).map .table

def ofItems? (depth : Nat) : List Json → Option (List Tree)
  | [] => some []
  | j :: rest => do
    let t ← ofJson? depth j
    return t :: (← ofItems? depth rest)

def ofMembers? (depth : Nat) (entries : List (String × Tree)) :
    List (String × Json) → Option (List (String × Tree))
  | [] => some entries
  | (key, j) :: rest => do
    let t ← ofJson? depth j
    ofMembers? depth (put key t entries) rest

end

/-- How deep arrays and objects nest at most, the document among them. -/
def maxJsonDepth : Nat := 127

def ofJsonText? (text : String) : Option Tree :=
  match Json.parse? text with
  | some (.object members) => ofJson? maxJsonDepth (.object members)
  | _ => none

end ProcessFormula.Config.Tree
