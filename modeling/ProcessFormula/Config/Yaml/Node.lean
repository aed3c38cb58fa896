import ProcessFormula.Config.Yaml.Token

/-!
YAML documents as nodes. A node may have an anchor and a tag, and a reference stands for the node
with its anchor. Where a node is missing, and for an anchor or a tag without anything behind it, an
empty plain word stands.
-/

namespace ProcessFormula.Config.Yaml

/-- A node whose anchors and references carry labels of a type. -/
inductive Node (α : Type) where
  | reference (label : α)
  | scalar (anchor : Option α) (tag : Option Tag) (s : Scalar)
  | list (anchor : Option α) (tag : Option Tag) (items : List (Node α))
  | map (anchor : Option α) (tag : Option Tag) (entries : List (Node α × Node α))

namespace Node

def empty {α : Type} : Node α := .scalar none none ⟨[], true⟩

structure Properties where
  anchor : Option String
  tag : Option Tag

/-- Reads the anchor and the tag of a node, in either order. -/
def properties? (handles : Handles) : List Token → Option (Properties × List Token)
  | .anchor name :: .tag t :: rest => (t.tag? handles).map fun tag => (⟨some name, some tag⟩, rest)
  | .tag t :: .anchor name :: rest => (t.tag? handles).map fun tag => (⟨some name, some tag⟩, rest)
  | .anchor name :: rest => some (⟨some name, none⟩, rest)
  | .tag t :: rest => (t.tag? handles).map fun tag => (⟨none, some tag⟩, rest)
  | rest => some (⟨none, none⟩, rest)

/-- Does the block collection around end here, or its next part begin? -/
def isBlockPart : List Token → Bool
  | .key :: _ => true
  | .value :: _ => true
  | .blockEnd :: _ => true
  | _ => false

def isDash : List Token → Bool
  | .dash :: _ => true
  | _ => false

/-- Is the value of a key missing in a flow collection with the given end? -/
def isFlowPart (isEnd : Token → Bool) : List Token → Bool
  | .comma :: _ => true
  | t :: _ => isEnd t
  | [] => false

def isListEnd : Token → Bool
  | .flowListEnd => true
  | _ => false

def isMapEnd : Token → Bool
  | .flowMapEnd => true
  | _ => false

/-- The tokens behind the comma in front of an entry of a flow collection. The first entry has none,
and there may be one behind the last. -/
def behindComma? (isFirst : Bool) (isEnd : Token → Bool) (ts : List Token) : Option (List Token) :=
  match ts with
  | .comma :: rest => if isFirst then some ts else some rest
  | t :: _ => if isFirst || isEnd t then some ts else none
  | [] => none

mutual

/-- Reads a node. Block collections stand only in others; a sequence that is the key or the value of
a block mapping need not be indented, and no token opens it then. -/
def read (handles : Handles) : (fuel : Nat) → (isBlock isInMap : Bool) → List Token →
    Option (Node String × List Token)
  | 0, _, _, _ => none
  | fuel + 1, isBlock, isInMap, ts =>
    match ts with
    | .reference name :: rest => some (.reference name, rest)
    | _ => do
      let (p, rest) ← properties? handles ts
      let blank := if p.anchor.isSome ∨ p.tag.isSome then
        some (scalar p.anchor p.tag ⟨[], true⟩, rest) else none
      match rest with
      | .scalar s :: rest =>
        some (scalar p.anchor (p.tag.filter (· != Tag.unnamed)) s, rest)
      | .flowList :: rest =>
        (flowItems handles fuel true rest).map fun r => (list p.anchor p.tag r.1, r.2)
      | .flowMap :: rest =>
        (flowEntries handles fuel true rest).map fun r => (map p.anchor p.tag r.1, r.2)
      | .blockList :: rest =>
        if isBlock then
          (blockItems handles fuel rest).map fun r => (list p.anchor p.tag r.1, r.2)
        else blank
      | .blockMap :: rest =>
        if isBlock then
          (blockEntries handles fuel rest).map fun r => (map p.anchor p.tag r.1, r.2)
        else blank
      | .dash :: _ =>
        if isInMap then
          (bareItems handles fuel rest).map fun r => (list p.anchor p.tag r.1, r.2)
        else blank
      | _ => blank

def readUnless (handles : Handles) (isMissing : List Token → Bool) : (fuel : Nat) →
    (isBlock isInMap : Bool) → List Token → Option (Node String × List Token)
  | 0, _, _, _ => none
  | fuel + 1, isBlock, isInMap, ts =>
    if isMissing ts then some (empty, ts) else read handles fuel isBlock isInMap ts

def blockItems (handles : Handles) : (fuel : Nat) → List Token →
    Option (List (Node String) × List Token)
  | 0, _ => none
  | fuel + 1, ts =>
    match ts with
    | .dash :: rest => do
      let isMissing := fun
        | .blockEnd :: _ => true
        | ts => isDash ts
      let (item, rest) ← readUnless handles isMissing fuel true false rest
      (blockItems handles fuel rest).map fun r => (item :: r.1, r.2)
    | .blockEnd :: rest => some ([], rest)
    | _ => none

/-- Reads the items of a block sequence that no token opens or closes. -/
def bareItems (handles : Handles) : (fuel : Nat) → List Token →
    Option (List (Node String) × List Token)
  | 0, _ => none
  | fuel + 1, ts =>
    match ts with
    | .dash :: rest => do
      let isMissing := fun ts => isDash ts || isBlockPart ts
      let (item, rest) ← readUnless handles isMissing fuel true false rest
      (bareItems handles fuel rest).map fun r => (item :: r.1, r.2)
    | _ => some ([], ts)

def blockEntries (handles : Handles) : (fuel : Nat) → List Token →
    Option (List (Node String × Node String) × List Token)
  | 0, _ => none
  | fuel + 1, ts =>
    match ts with
    | .key :: rest => do
      let (key, rest) ← readUnless handles isBlockPart fuel true true rest
      let (value, rest) ← match rest with
        | .value :: rest => readUnless handles isBlockPart fuel true true rest
        | _ => some (empty, rest)
      (blockEntries handles fuel rest).map fun r => ((key, value) :: r.1, r.2)
    | .blockEnd :: rest => some ([], rest)
    | _ => none

/-- Reads the items of a flow sequence up to and past its end. An item may be a single entry of a
mapping. Where the key of one is missing, the token behind the question mark is passed over. -/
def flowItems (handles : Handles) : (fuel : Nat) → (isFirst : Bool) → List Token →
    Option (List (Node String) × List Token)
  | 0, _, _ => none
  | fuel + 1, isFirst, ts => do
    let ts ← behindComma? isFirst isListEnd ts
    match ts with
    | .flowListEnd :: rest => some ([], rest)
    | .key :: rest => do
      let (key, rest) ← match rest with
        | .value :: rest => some (empty, rest)
        | .comma :: rest => some (empty, rest)
        | .flowListEnd :: rest => some (empty, rest)
        | _ => read handles fuel false false rest
      let (value, rest) ← flowValue handles isListEnd fuel rest
      (flowItems handles fuel false rest).map fun r => (map none none [(key, value)] :: r.1, r.2)
    | _ => do
      let (item, rest) ← read handles fuel false false ts
      (flowItems handles fuel false rest).map fun r => (item :: r.1, r.2)

/-- Reads the entries of a flow mapping up to and past its end. A key may stand alone. -/
def flowEntries (handles : Handles) : (fuel : Nat) → (isFirst : Bool) → List Token →
    Option (List (Node String × Node String) × List Token)
  | 0, _, _ => none
  | fuel + 1, isFirst, ts => do
    let ts ← behindComma? isFirst isMapEnd ts
    match ts with
    | .flowMapEnd :: rest => some ([], rest)
    | .key :: rest => do
      let isMissing := fun
        | .value :: _ => true
        | ts => isFlowPart isMapEnd ts
      let (key, rest) ← readUnless handles isMissing fuel false false rest
      let (value, rest) ← flowValue handles isMapEnd fuel rest
      (flowEntries handles fuel false rest).map fun r => ((key, value) :: r.1, r.2)
    | _ => do
      let (key, rest) ← read handles fuel false false ts
      (flowEntries handles fuel false rest).map fun r => ((key, empty) :: r.1, r.2)

def flowValue (handles : Handles) (isEnd : Token → Bool) : (fuel : Nat) → List Token →
    Option (Node String × List Token)
  | 0, _ => none
  | fuel + 1, ts =>
    match ts with
    | .value :: rest => readUnless handles (isFlowPart isEnd) fuel false false rest
    | _ => some (empty, ts)

end

def directives : List Token → List Directive × List Token
  | .directive d :: rest =>
    let (ds, rest) := directives rest
    (d :: ds, rest)
  | rest => ([], rest)

/-- Does a document that has been announced have no content? -/
def isBare : List Token → Bool
  | [] => true
  | .directive _ :: _ => true
  | .startMarker :: _ => true
  | .endMarker :: _ => true
  | _ => false

def isEndMarker : Token → Bool
  | .endMarker => true
  | _ => false

/-- The root of the one document that the tokens write. Without any token there is none. -/
def ofTokens? (ts : List Token) : Option (Option (Node String)) :=
  let fuel := 4 * ts.length + 4
  if ts.isEmpty then some none
  else do
    let (ds, rest) := directives ts
    let handles ← handlesOf? ds
    let (root, rest) ← match rest with
      | .startMarker :: rest => readUnless handles isBare fuel true false rest
      | _ => if ds.isEmpty then read handles fuel true false ts else none
    if (rest.dropWhile isEndMarker).isEmpty then some (some root) else none

end Node

end ProcessFormula.Config.Yaml
