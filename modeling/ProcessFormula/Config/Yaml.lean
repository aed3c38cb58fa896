import ProcessFormula.Config.Yaml.Anchor

/-!
Configuration in YAML: one document, whose root is a mapping unless it is empty. Keys are texts, and
of entries with the same key the last counts. References are followed only so often and collections
nest only so deep, since a document can refer to a node from within it.
-/

namespace ProcessFormula.Config.Yaml

/-- How deep collections nest at most. -/
def maxDepth : Nat := 128

namespace Node

mutual

/-- The number of parts of a node: one for a scalar or a reference, and two around a collection. -/
def size {α : Type} : Node α → Nat
  | .reference _ => 1
  | .scalar .. => 1
  | .list _ _ items => sizes items + 2
  | .map _ _ entries => entrySizes entries + 2

def sizes {α : Type} : List (Node α) → Nat
  | [] => 0
  | item :: rest => size item + sizes rest

def entrySizes {α : Type} : List (Node α × Node α) → Nat
  | [] => 0
  | (key, value) :: rest => size key + size value + entrySizes rest

end

/-- The node that a reference stands for, or else the node itself. The state is the number of
references that may still be followed. -/
def follow (found : Anchored) : Node Nat → StateT Nat Option (Node Nat)
  | .reference n => do
    match ← get, found.lookup n with
    | left + 1, some node => do
      set left
      return node
    | _, _ => failure
  | node => return node

def key (found : Anchored) (node : Node Nat) : StateT Nat Option String := do
  match ← node.follow found with
  | .scalar _ _ s => return s.key
  | _ => failure

/-- Is a collection one that its tag does not refuse? -/
def isCollection (tag : Option Tag) : Bool := !tag.any Tag.isReadable

def putEntry (found : Anchored) (read : Node Nat → StateT Nat Option Tree)
    (table : List (String × Tree)) (entry : Node Nat × Node Nat) :
    StateT Nat Option (List (String × Tree)) := do
  let key ← entry.1.key found
  return Tree.put key (← read entry.2) table

/-- The entry that a node stands for, in which collections nest at most `depth` deep. -/
def tree (found : Anchored) : (depth : Nat) → Node Nat → StateT Nat Option Tree
  | 0, node => do
    match ← node.follow found with
    | .scalar _ tag s => s.tree? tag
    | _ => failure
  | depth + 1, node => do
    match ← node.follow found with
    | .scalar _ tag s => s.tree? tag
    | .list _ tag items =>
      if isCollection tag then return .list (← items.mapM (tree found depth)) else failure
    | .map _ tag entries =>
      if isCollection tag then
        return .table (← entries.foldlM (putEntry found (tree found depth)) [])
      else failure
    | .reference _ => failure

/-- The configuration that the root of a document is. Its tag does not matter. -/
def configuration? (root : Node String) : Option Tree := do
  let (root, _) ← root.number.run []
  let found := anchored [] root
  match root with
  | .map _ _ entries =>
    let table := entries.foldlM (putEntry found (tree found (maxDepth - 1))) []
    (table.run (100 * root.size)).map fun r => .table r.1
  | .scalar _ _ s => if s.isPlain && s.text.isEmpty then some .empty else none
  | _ => none

end Node

def ofText? (text : String) : Option Tree := do
  let chars := plainLineEnds (match text.toList with
    | '\uFEFF' :: s => s
    | s => s)
  let tokens ← if chars.all isPrintable then tokens? chars else none
  match ← Node.ofTokens? tokens with
  | some root => root.configuration?
  | none => some .empty

end ProcessFormula.Config.Yaml
