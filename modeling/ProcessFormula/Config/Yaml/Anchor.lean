import ProcessFormula.Config.Yaml.Node

/-!
Anchors in YAML documents. Each anchor gets the number of names that are known before it, so that
one with a known name takes a fresh number but leaves it to be taken once more. A reference has the
number that its name has at that place, and stands for the last node with that number.
-/

namespace ProcessFormula.Config.Yaml.Node

/-- The numbers of the names so far, each name once. -/
abbrev Numbers := List (String × Nat)

def numberAnchor : Option String → StateT Numbers Option (Option Nat)
  | none => return none
  | some name => do
    let numbers ← get
    set ((name, numbers.length) :: numbers.filter fun n => n.1 != name)
    return some numbers.length

mutual

/-- The node with numbers instead of names. References to unknown anchors have none. -/
def number : Node String → StateT Numbers Option (Node Nat)
  | .reference name => do
    match (← get).lookup name with
    | some n => return .reference n
    | none => failure
  | .scalar anchor tag s => return .scalar (← numberAnchor anchor) tag s
  | .list anchor tag items => do
    let n ← numberAnchor anchor
    return .list n tag (← numberItems items)
  | .map anchor tag entries => do
    let n ← numberAnchor anchor
    return .map n tag (← numberEntries entries)

def numberItems : List (Node String) → StateT Numbers Option (List (Node Nat))
  | [] => return []
  | item :: rest => return (← number item) :: (← numberItems rest)

def numberEntries : List (Node String × Node String) →
    StateT Numbers Option (List (Node Nat × Node Nat))
  | [] => return []
  | (key, value) :: rest => do
    let entry := (← number key, ← number value)
    return entry :: (← numberEntries rest)

end

/-- The nodes with anchors, the last one first. -/
abbrev Anchored := List (Nat × Node Nat)

def Anchored.note (found : Anchored) (anchor : Option Nat) (node : Node Nat) : Anchored :=
  match anchor with
  | some n => (n, node) :: found
  | none => found

mutual

def anchored (found : Anchored) : Node Nat → Anchored
  | .reference _ => found
  | .scalar anchor tag s => found.note anchor (.scalar anchor tag s)
  | .list anchor tag items =>
    anchoredItems (found.note anchor (.list anchor tag items)) items
  | .map anchor tag entries =>
    anchoredEntries (found.note anchor (.map anchor tag entries)) entries

def anchoredItems (found : Anchored) : List (Node Nat) → Anchored
  | [] => found
  | item :: rest => anchoredItems (anchored found item) rest

def anchoredEntries (found : Anchored) : List (Node Nat × Node Nat) → Anchored
  | [] => found
  | (key, value) :: rest => anchoredEntries (anchored (anchored found key) value) rest

end

end ProcessFormula.Config.Yaml.Node
