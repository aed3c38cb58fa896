import ProcessFormula.Function.Registry

/-!
Configuration as a tree of keys, whatever format it was written in, and what the tree says about the
functions of a registry. Layers are merged key by key; where one of two entries is not a table the
upper one replaces the lower one, lists included. Only the merged tree is checked for types.
-/

namespace ProcessFormula.Config

/-- A configuration entry. Numbers and nothing at all are never asked for and stay one case. -/
inductive Tree where
  | flag (b : Bool)
  | text (s : String)
  | other
  | list (items : List Tree)
  | table (entries : List (String × Tree))

namespace Tree

def empty : Tree := .table []

def get? (key : String) : Tree → Option Tree
  | .table entries => entries.lookup key
  | _ => none

/-- Entries with one more, which takes the place of one with the same key. -/
def put (key : String) (t : Tree) : List (String × Tree) → List (String × Tree)
  | [] => [(key, t)]
  | (k, u) :: rest => if k = key then (key, t) :: rest else (k, u) :: put key t rest

mutual

def merge (lower : Tree) : Tree → Tree
  | .table upper =>
    match lower with
    | .table entries => .table (mergeEntries entries upper)
    | _ => .table upper
  | upper => upper

/-- The upper entries laid over the lower ones, one after the other. -/
def mergeEntries (lower : List (String × Tree)) : List (String × Tree) → List (String × Tree)
  | [] => lower
  | (key, t) :: rest =>
    let merged := match lower.lookup key with
      | some u => merge u t
      | none => t
    mergeEntries (put key merged lower) rest

end

/-- A table at the end of a path of keys. -/
def nest (path : List String) (t : Tree) : Tree :=
  path.foldr (fun key inner => .table [(key, inner)]) t

def flag? : Tree → Option Bool
  | .flag b => some b
  | _ => none

def text? : Tree → Option String
  | .text s => some s
  | _ => none

def texts? : Tree → Option (List String)
  | .list items => items.mapM text?
  | _ => none

/-- An entry that must have the right type if it is there. -/
def orDefault {α : Type} (default : α) (read? : Tree → Option α) : Option Tree → Option α
  | none => some default
  | some t => read? t

/-- The section on functions: a table of settings, or a list of them in order. -/
def section? : Tree → Option RegistryConfig
  | .table entries => do
    return ⟨← orDefault true flag? (entries.lookup "discover_plugins"),
      ← orDefault [] texts? (entries.lookup "disabled_categories"),
      ← orDefault [] texts? (entries.lookup "disabled_functions")⟩
  | .list items => do
    return ⟨← orDefault true flag? items[0]?, ← orDefault [] texts? items[1]?,
      ← orDefault [] texts? items[2]?⟩
  | _ => none

/-- What a whole configuration says about functions. Keys that mean nothing are ignored. -/
def registryConfig? (t : Tree) : Option RegistryConfig :=
  orDefault {} section? (t.get? "functions")

end Tree

end ProcessFormula.Config
