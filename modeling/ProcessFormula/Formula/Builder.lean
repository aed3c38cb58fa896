import ProcessFormula.Formula.Basic
import ProcessFormula.Syntax.Parser

/-!
Formula text read into a tree over variables, in one pass. While the text is read a state is kept:
how many levels of nesting are open, which variables and constants there are so far, the cells that
were added for them, and the latest unquoted name. The state goes on to whatever is read next and is
handed back together with the result, a failure included.

The grammar, the operators and the limits are those of `Parser`. A tree carries its height, which is
counted as the tree is put together. A name is looked up where it stands: among the variables, then
among the constants, and a name that is in neither gets one new cell if it may have one.

The readers of the grammar call each other in a circle, through parentheses, arguments and else
branches. Each is given the reader for what stands inside of these, for all texts that are shorter
than its own, so the circle ends because the text does.
-/

namespace ProcessFormula

/-- The names that stand for numbers unless the caller has variables of these names. -/
def namedConstants : List (String × Float) := [("E", Math.e), ("PI", Math.pi)]

def constantNamed? (name : String) : Option Float := namedConstants.lookup name

namespace Builder

open Lexeme ProcessFormula.Parser Text

structure Setting where
  resolve : String → Option Callable
  mode : BindingMode
  now : Timestamp

structure State where
  /-- The parentheses, arguments and else branches that are open. -/
  nesting : Nat
  /-- The caller's variables, and behind them those that were discovered. -/
  inputs : List Variable
  /-- The constants that occurred, one cell for each name. -/
  constants : List Variable
  /-- The latest unquoted name and the text from it on. -/
  lastName : Option (String × Input)
  store : Store

abbrev Build := ExceptT Failure (StateM State)

def Build.runFrom {α : Type} (x : Build α) (state : State) : Except Failure α × State :=
  x.run.run state

/-- A tree with the height that was counted for it. -/
structure Subtree where
  node : Expr Variable
  height : Nat

def Subtree.leaf (node : Expr Variable) : Subtree := ⟨node, 1⟩

structure Read (α : Type) (s : Input) where
  result : α
  rest : Input
  shorter : rest.length < s.length

def Read.behind {α : Type} {s : Input} {inner : Shorter s} (p : Read α inner.1) : Read α s :=
  ⟨p.result, p.rest, Nat.lt_trans p.shorter inner.2⟩

/-- A reader of expressions for the texts that are shorter than `s`. -/
abbrev Nested (s : Input) := (t : Input) → t.length < s.length → Build (Read Subtree t)

def Nested.behind {s : Input} (nested : Nested s) (inner : Shorter s) : Nested inner.1 :=
  fun t h => nested t (Nat.lt_trans h inner.2)

abbrev Level := (s : Input) → Nested s → Build (Read Subtree s)

/-! ### Limits -/

/-- A tree whose tallest child is one less high, unless it is too tall. -/
def branch (node : Expr Variable) (height : Nat) (unread : Input) : Except Failure Subtree :=
  if maxHeight < height then .error ⟨.tooDeep maxHeight, unread⟩ else .ok ⟨node, height⟩

def binary (op : BinaryOp) (left right : Subtree) (unread : Input) : Except Failure Subtree :=
  branch (.binary op left.node right.node) (max left.height right.height + 1) unread

/-- Reads from `unread` with one level more open, and closes it whatever comes of it. -/
def enter {α : Type} (unread : Input) (inside : Build α) : Build α := do
  if (← get).nesting = maxNesting then throw ⟨.tooDeep maxNesting, unread⟩
  modify fun d => { d with nesting := d.nesting + 1 }
  let result ← ExceptT.lift inside.run
  modify fun d => { d with nesting := d.nesting - 1 }
  liftM result

/-! ### Names -/

def State.addConstant (d : State) (name : String) (value : Value) : Variable × State :=
  let (v, store) := d.store.create name value
  (v, { d with constants := d.constants ++ [v], store })

def State.addVariable (d : State) (name : String) (value : Value) : Variable × State :=
  let (v, store) := d.store.create name value
  (v, { d with inputs := d.inputs ++ [v], store })

def State.lookup (d : State) (name : String) : Option Variable :=
  (d.inputs.find? fun v => v.name == name).or (d.constants.find? fun v => v.name == name)

def findVariable (setting : Setting) (name : String) (start : Input) : Build Variable := do
  let d ← get
  match d.lookup name with
  | some v => return v
  | none =>
    match constantNamed? name with
    | some x =>
      let (v, d) := d.addConstant name (.number setting.now x)
      set d
      return v
    | none =>
      if setting.mode = .autoDetect then
        let (v, d) := d.addVariable name (.number setting.now Binary64.nan)
        set d
        return v
      else throw ⟨.unknownVariable name, start⟩

/-! ### Operands -/

def number (c : Char) (s : Input) (h : startsNumber c = true) :
    Except Failure (Read Float (c :: s)) :=
  let run := numberRun false (c :: s)
  match Decimal.literal? run.1 with
  | some d => .ok ⟨d.toFloat false, run.2, length_numberRun_lt c s h⟩
  | none => .error ⟨.malformedNumber (String.ofList run.1), c :: s⟩

theorem shorter_string {c : Char} {s : Input} {r : List Char × Input}
    (h : stringBody false s = some r) : r.2.length < (c :: s).length :=
  Nat.lt_succ_of_lt (length_stringBody_lt false s r h)

def string (c : Char) (s : Input) : Except Failure (Read String (c :: s)) :=
  match h : stringBody false s with
  | some r => .ok ⟨String.ofList r.1, r.2, shorter_string h⟩
  | none => .error ⟨.unterminatedQuote .string, []⟩

theorem shorter_quotedName {c : Char} {s : Input} {r : List Char × Input} (h : upTo c s = some r) :
    r.2.length < (c :: s).length :=
  Nat.lt_succ_of_lt (length_upTo_lt c s r h)

/-- Reads a variable's name behind its opening quote `c`, which also closes it. -/
def quotedName (c : Char) (s : Input) : Except Failure (Read String (c :: s)) :=
  match h : upTo c s with
  | some r => .ok ⟨String.ofList r.1, r.2, shorter_quotedName h⟩
  | none => .error ⟨.unterminatedQuote .variableName, []⟩

def quotedVariable (setting : Setting) (c : Char) (s : Input) : Build (Read Subtree (c :: s)) := do
  let name ← quotedName c s
  let v ← findVariable setting name.result (c :: s)
  return ⟨.leaf (.var v), name.rest, name.shorter⟩

theorem shorter_closed {s : Input} {α : Type} (inner : Shorter s) (p : Read α inner.1)
    (close : Shorter p.rest) : close.1.length < s.length :=
  Nat.lt_trans close.2 (Nat.lt_trans p.shorter inner.2)

def parenthesised {s : Input} (nested : Nested s) (inner : Shorter s) :
    Build (Read Subtree s) := do
  let p ← nested inner.1 inner.2
  let rest ← closeParenthesis p.rest
  return ⟨p.result, rest.1, shorter_closed inner p rest⟩

def arguments {s : Input} (nested : Nested s) (t : Input) (ht : t.length < s.length) :
    Build (Read (List Subtree) t) := do
  let first ← nested t ht
  match accept ',' first.rest with
  | none => return ⟨[first.result], first.rest, first.shorter⟩
  | some rest =>
    have shorter : rest.1.length < t.length := Nat.lt_trans rest.2 first.shorter
    let more ← arguments nested rest.1 (Nat.lt_trans shorter ht)
    return ⟨first.result :: more.result, more.rest, Nat.lt_trans more.shorter shorter⟩
termination_by t.length

theorem shorter_empty {s : Input} (inner : Shorter s) (close : Shorter inner.1) :
    close.1.length < s.length :=
  Nat.lt_trans close.2 inner.2

/-- Reads the arguments of a call behind its opening parenthesis, and the closing one. -/
def argumentList {s : Input} (nested : Nested s) (inner : Shorter s) :
    Build (Read (List Subtree) s) := do
  match accept ')' inner.1 with
  | some rest => return ⟨[], rest.1, shorter_empty inner rest⟩
  | none =>
    let args ← arguments nested inner.1 inner.2
    let rest ← closeParenthesis args.rest
    return ⟨args.result, rest.1, shorter_closed inner args rest⟩

def call (setting : Setting) (name : String) (start : Input) (args : List Subtree)
    (unread : Input) : Except Failure Subtree :=
  match setting.resolve name with
  | none => .error ⟨.unknownFunction name, start⟩
  | some function =>
    if function.arity.accepts args.length then
      branch (.call function (args.map Subtree.node)) ((args.map Subtree.height).foldr max 0 + 1)
        unread
    else .error ⟨.arityMismatch function.signature function.arity args.length, start⟩

/-- Reads an unquoted name: a variable, or a function if a parenthesis follows. -/
def named (setting : Setting) (s : Input) (nested : Nested s) : Build (Read Subtree s) := do
  let run := bareName s
  let name := String.ofList run.1
  if h : run.1 = [] then throw (unexpected .operand s)
  else
    have shorter : run.2.length < s.length := length_bareName_lt s h
    modify fun d => { d with lastName := some (name, s) }
    match accept '(' run.2 with
    | none =>
      let v ← findVariable setting name s
      return ⟨.leaf (.var v), run.2, shorter⟩
    | some inner =>
      let args ← argumentList nested ⟨inner.1, Nat.lt_trans inner.2 shorter⟩
      let tree ← call setting name s args.result args.rest
      return ⟨tree, args.rest, args.shorter⟩

/-- Reads what a minus sign subtracts from zero, the first character deciding its kind. -/
def compound (setting : Setting) (c : Char) (s : Input) (nested : Nested (c :: s)) :
    Build (Read Subtree (c :: s)) :=
  if c = '\x27' ∨ c = '\x60' then quotedVariable setting c s
  else
    match accept '(' (c :: s) with
    | some inner => parenthesised nested inner
    | none => named setting (c :: s) nested

/-- Reads an operand behind its sign. A minus sign negates a number and has no effect on a string. -/
def signed (setting : Setting) (negative : Bool) : Level
  | [], _ => throw ⟨.unexpectedEnd, []⟩
  | c :: s, nested => do
    if c = '\x22' then
      let text ← string c s
      return ⟨.leaf (.constant (.text setting.now text.result)), text.rest, text.shorter⟩
    else if h : startsNumber c = true then
      let x ← number c s h
      let value := if negative then -x.result else x.result
      return ⟨.leaf (.constant (.number setting.now value)), x.rest, x.shorter⟩
    else
      let p ← compound setting c s nested
      if negative then
        let zero := Subtree.leaf (.constant (.number setting.now 0.0))
        let tree ← binary .sub zero p.result p.rest
        return ⟨tree, p.rest, p.shorter⟩
      else return p

/-! ### Levels -/

def primary (setting : Setting) : Level := fun s nested =>
  match accept '-' s with
  | none => signed setting false s nested
  | some inner => do
    let p ← signed setting true inner.1 (nested.behind inner)
    return p.behind

def unary (setting : Setting) : Level := fun s nested =>
  match accept '!' s with
  | none => primary setting s nested
  | some inner => do
    let p ← primary setting inner.1 (nested.behind inner)
    let tree ← branch (.unary .not p.result.node) (p.result.height + 1) p.rest
    return ⟨tree, p.rest, Nat.lt_trans p.shorter inner.2⟩

def chainFrom (operator : (s : Input) → Except Failure (Operator s)) (operand : Level) {s : Input}
    (nested : Nested s) (left : Read Subtree s) : Build (Read Subtree s) := do
  match ← operator left.rest with
  | none => return left
  | some (op, rest) =>
    let right ← operand rest.1 (nested.behind ⟨rest.1, Nat.lt_trans rest.2 left.shorter⟩)
    let tree ← binary op left.result right.result right.rest
    have shorter : right.rest.length < left.rest.length := Nat.lt_trans right.shorter rest.2
    chainFrom operator operand nested ⟨tree, right.rest, Nat.lt_trans shorter left.shorter⟩
termination_by left.rest.length

def chain (operator : (s : Input) → Except Failure (Operator s)) (operand : Level) : Level :=
  fun s nested => do
    let left ← operand s nested
    chainFrom operator operand nested left

def product (setting : Setting) : Level := chain productOperator (unary setting)

def sum (setting : Setting) : Level := chain sumOperator (product setting)

def compare (setting : Setting) : Level := chain compareOperator (sum setting)

/-- The colon of a conditional is missing behind the then branch that starts at `branchStart`. The
latest unquoted name has most likely swallowed it if it stands in that branch and holds a colon. -/
def missingColon (lastName : Option (String × Input)) (branchStart unread : Input) : Failure :=
  match lastName with
  | some (name, start) =>
    if start.length ≤ branchStart.length ∧ name.contains ':' then ⟨.colonInName name, start⟩
    else unexpected .branchColon unread
  | none => unexpected .branchColon unread

/-- Goes on with a chain of logical operators and conditionals, whose tree so far is `left`. -/
def logicalFrom (setting : Setting) {s : Input} (nested : Nested s) (left : Read Subtree s) :
    Build (Read Subtree s) := do
  match (doubled '&' .and left.rest).or (doubled '|' .or left.rest) with
  | some (op, rest) =>
    let right ← compare setting rest.1 (nested.behind ⟨rest.1, Nat.lt_trans rest.2 left.shorter⟩)
    let tree ← binary op left.result right.result right.rest
    have shorter : right.rest.length < left.rest.length := Nat.lt_trans right.shorter rest.2
    logicalFrom setting nested ⟨tree, right.rest, Nat.lt_trans shorter left.shorter⟩
  | none =>
    match accept '?' left.rest with
    | none => return left
    | some rest =>
      have inside : rest.1.length < s.length := Nat.lt_trans rest.2 left.shorter
      let thenBranch ← compare setting rest.1 (nested.behind ⟨rest.1, inside⟩)
      match accept ':' thenBranch.rest with
      | none => throw (missingColon (← get).lastName rest.1 thenBranch.rest)
      | some afterColon =>
        have behind : afterColon.1.length < rest.1.length :=
          Nat.lt_trans afterColon.2 thenBranch.shorter
        let elseBranch ← nested afterColon.1 (Nat.lt_trans behind inside)
        let height := max (max left.result.height thenBranch.result.height)
          elseBranch.result.height + 1
        let tree ← branch
          (.conditional left.result.node thenBranch.result.node elseBranch.result.node) height
          elseBranch.rest
        have shorter : elseBranch.rest.length < left.rest.length :=
          Nat.lt_trans elseBranch.shorter (Nat.lt_trans behind rest.2)
        logicalFrom setting nested ⟨tree, elseBranch.rest, Nat.lt_trans shorter left.shorter⟩
termination_by left.rest.length

def logical (setting : Setting) : Level := fun s nested => do
  let left ← compare setting s nested
  logicalFrom setting nested left

/-- Reads a logical expression in which parentheses, arguments and else branches hold others. -/
def expression (setting : Setting) (s : Input) : Build (Read Subtree s) :=
  logical setting s fun t _ => enter t (expression setting t)
termination_by s.length
decreasing_by assumption

def formula (setting : Setting) (text : List Char) : Build (Expr Variable) := do
  let p ← expression setting (skipBlanks text)
  if p.rest.isEmpty then return p.result.node
  else throw ⟨.trailingInput (String.ofList p.rest), p.rest⟩

end Builder

end ProcessFormula
