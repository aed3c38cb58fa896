import ProcessFormula.Expr.Basic
import ProcessFormula.Function.Registry
import ProcessFormula.Number.Decimal
import ProcessFormula.Syntax.Error
import ProcessFormula.Syntax.Lexeme

/-!
The grammar of formula text, lowest binding strength first:

    logical := compare (("&&" | "&") compare | ("||" | "|") compare | "?" compare ":" logical)*
    compare := sum (("==" | "!=" | ">=" | "<=" | ">" | "<") sum)*
    sum     := product (("+" | "-") product)*
    product := unary (("^" | "*" | "/") unary)*
    unary   := "!" primary | primary
    primary := ["-"] (number | string | quoted name | "(" logical ")" | name
                      | name "(" [logical ("," logical)*] ")")

Operators of one level associate to the left. A conditional shares its level with the logical
operators, and its else branch takes the rest of the logical expression.

A reader returns what it read together with the unread text, which is shorter than the text it was
given; that is why the operator chains and argument lists end. Parentheses, arguments and else
branches open a level of nesting. The number of levels that may still be opened goes down by one
with each, which is why the grammar's recursion ends. Trees are built over names; which names may
occur does not depend on what was read before.

This is the grammar without a state. A formula is put together by `Builder`, which reads the same
grammar and keeps a counter, tables of names and recorded heights; `Builder.refined_formula` says
that both read the same.
-/

namespace ProcessFormula.Parser

open Lexeme Text

/-- The most levels of parentheses, arguments and else branches that may be open at once. -/
def maxNesting : Nat := 64

def maxHeight : Nat := 256

/-- What the names in formula text may refer to, and the time for its constants. -/
structure Scope where
  knows : String → Bool
  resolve : String → Option Callable
  now : Timestamp

/-- A fault and the unread text where it was met. -/
structure Failure where
  fault : Fault
  unread : Input

/-- A tree read from the start of `s`. The last unquoted name in it is kept with the text from that
name on, for the hint on a missing colon. -/
structure Parsed (s : Input) where
  tree : Expr String
  lastName : Option (String × Input)
  rest : Input
  shorter : rest.length < s.length

abbrev Reader := (s : Input) → Except Failure (Parsed s)

def unexpected (expected : Expected) : Input → Failure
  | [] => ⟨.unexpectedEnd, []⟩
  | c :: s => ⟨.unexpectedToken expected (String.ofList [c]), c :: s⟩

/-- The second half of a two-character operator had to stand here. -/
def unfinished (expected : Expected) (first : Char) (s : Input) : Failure :=
  ⟨.unexpectedToken expected (String.ofList (first :: s.take 1)), s⟩

/-- A tree that was just completed, unless it is too tall. -/
def limited (tree : Expr String) (unread : Input) : Except Failure (Expr String) :=
  if tree.height ≤ maxHeight then .ok tree else .error ⟨.tooDeep maxHeight, unread⟩

/-- A step past an operator at the start of `s`. -/
abbrev Operator (s : Input) := Option (BinaryOp × Shorter s)

/-- The operator `op` if the text starts with its one character `c`. -/
def single (c : Char) (op : BinaryOp) (s : Input) : Operator s :=
  (accept c s).map fun rest => (op, rest)

/-- The operator `op` written `c` or `cc`. -/
def doubled (c : Char) (op : BinaryOp) (s : Input) : Operator s :=
  (accept c s).map fun rest =>
    (op, ⟨skip c rest.1, Nat.lt_of_le_of_lt (length_skip_le c rest.1) rest.2⟩)

def productOperator (s : Input) : Except Failure (Operator s) :=
  .ok (((single '^' .pow s).or (single '*' .mul s)).or (single '/' .div s))

def sumOperator (s : Input) : Except Failure (Operator s) :=
  .ok ((single '+' .add s).or (single '-' .sub s))

/-- The operator `op` if the text starts with `c` and an equals sign. Behind `c` nothing else may
stand. -/
def withEquals (c : Char) (op : BinaryOp) (expected : Expected) (s : Input) :
    Except Failure (Operator s) :=
  match accept c s with
  | none => .ok none
  | some rest =>
    match accept '=' rest.1 with
    | some more => .ok (some (op, ⟨more.1, Nat.lt_trans more.2 rest.2⟩))
    | none => .error (unfinished expected c rest.1)

/-- The operator `orEqual` if the text starts with `c` and an equals sign, `alone` if only with
`c`. -/
def maybeEquals (c : Char) (alone orEqual : BinaryOp) (s : Input) : Operator s :=
  (accept c s).map fun rest =>
    match accept '=' rest.1 with
    | some more => (orEqual, ⟨more.1, Nat.lt_trans more.2 rest.2⟩)
    | none => (alone, rest)

def compareOperator (s : Input) : Except Failure (Operator s) := do
  let ne ← withEquals '!' .ne .notEqual s
  let eq ← withEquals '=' .eq .equal s
  return ((ne.or eq).or (maybeEquals '>' .gt .ge s)).or (maybeEquals '<' .lt .le s)

/-- Goes on with a chain of operators of one level, whose tree so far is `left`. -/
def chainFrom (operator : (s : Input) → Except Failure (Operator s)) (operand : Reader)
    {s : Input} (left : Parsed s) : Except Failure (Parsed s) := do
  match ← operator left.rest with
  | none => return left
  | some (op, rest) =>
    let right ← operand rest.1
    let tree ← limited (.binary op left.tree right.tree) right.rest
    have shorter : right.rest.length < left.rest.length := Nat.lt_trans right.shorter rest.2
    chainFrom operator operand
      ⟨tree, right.lastName.or left.lastName, right.rest, Nat.lt_trans shorter left.shorter⟩
termination_by left.rest.length

def chain (operator : (s : Input) → Except Failure (Operator s)) (operand : Reader) : Reader :=
  fun s => do
    let left ← operand s
    chainFrom operator operand left

def closeParenthesis (s : Input) : Except Failure (Shorter s) :=
  match accept ')' s with
  | some rest => .ok rest
  | none => .error (unexpected .closingParenthesis s)

/-- The arguments of a call up to its closing parenthesis, which is not read. -/
structure Arguments (s : Input) where
  trees : List (Expr String)
  lastName : Option (String × Input)
  rest : Input
  shorter : rest.length < s.length

def arguments (nested : Reader) (s : Input) : Except Failure (Arguments s) := do
  let first ← nested s
  match accept ',' first.rest with
  | none => return ⟨[first.tree], first.lastName, first.rest, first.shorter⟩
  | some rest =>
    have shorter : rest.1.length < s.length := Nat.lt_trans rest.2 first.shorter
    let more ← arguments nested rest.1
    return ⟨first.tree :: more.trees, more.lastName.or first.lastName, more.rest,
      Nat.lt_trans more.shorter shorter⟩
termination_by s.length

def call (scope : Scope) (name : String) (start : Input) (args : List (Expr String))
    (unread : Input) : Except Failure (Expr String) :=
  match scope.resolve name with
  | none => .error ⟨.unknownFunction name, start⟩
  | some function =>
    if function.arity.accepts args.length then limited (.call function args) unread
    else .error ⟨.arityMismatch function.signature function.arity args.length, start⟩

def variableNamed (scope : Scope) (name : String) (start : Input) :
    Except Failure (Expr String) :=
  if scope.knows name then .ok (.var name) else .error ⟨.unknownVariable name, start⟩

/-- An operand without its minus sign. Numbers and strings take the sign in ways of their own. -/
inductive Unsigned where
  | number (x : Float)
  | string (text : String)
  | compound (tree : Expr String)

/-- The tree of an operand. A minus sign negates a number, has no effect on a string, and subtracts
anything else from zero. -/
def Unsigned.tree (now : Timestamp) (negative : Bool) : Unsigned → Expr String
  | .number x => .constant (.number now (if negative then -x else x))
  | .string text => .constant (.text now text)
  | .compound tree =>
    if negative then .binary .sub (.constant (.number now 0.0)) tree else tree

structure Operand (s : Input) where
  operand : Unsigned
  lastName : Option (String × Input)
  rest : Input
  shorter : rest.length < s.length

def number (c : Char) (s : Input) (h : startsNumber c = true) :
    Except Failure (Operand (c :: s)) :=
  let run := numberRun false (c :: s)
  match Decimal.literal? run.1 with
  | some d => .ok ⟨.number (d.toFloat false), none, run.2, length_numberRun_lt c s h⟩
  | none => .error ⟨.malformedNumber (String.ofList run.1), c :: s⟩

def string (c : Char) (s : Input) : Except Failure (Operand (c :: s)) :=
  match h : stringBody false s with
  | some r => .ok ⟨.string (String.ofList r.1), none, r.2,
      Nat.lt_succ_of_lt (length_stringBody_lt false s r h)⟩
  | none => .error ⟨.unterminatedQuote .string, []⟩

/-- Reads a variable's name behind its opening quote `c`, which also closes it. -/
def quotedName (scope : Scope) (c : Char) (s : Input) : Except Failure (Operand (c :: s)) :=
  match h : upTo c s with
  | some r => do
    let tree ← variableNamed scope (String.ofList r.1) (c :: s)
    return ⟨.compound tree, none, r.2, Nat.lt_succ_of_lt (length_upTo_lt c s r h)⟩
  | none => .error ⟨.unterminatedQuote .variableName, []⟩

def parenthesised (nested : Reader) (s : Input) (inner : Shorter s) :
    Except Failure (Operand s) := do
  let p ← nested inner.1
  let rest ← closeParenthesis p.rest
  return ⟨.compound p.tree, p.lastName, rest.1,
    Nat.lt_trans rest.2 (Nat.lt_trans p.shorter inner.2)⟩

/-- Reads an unquoted name: a variable, or a function if a parenthesis follows. -/
def named (scope : Scope) (nested : Reader) (s : Input) : Except Failure (Operand s) :=
  let run := bareName s
  let name := String.ofList run.1
  if h : run.1 = [] then .error (unexpected .operand s)
  else
    have shorter : run.2.length < s.length := length_bareName_lt s h
    match accept '(' run.2 with
    | none => do
      let tree ← variableNamed scope name s
      return ⟨.compound tree, some (name, s), run.2, shorter⟩
    | some inner =>
      match accept ')' inner.1 with
      | some rest => do
        let tree ← call scope name s [] rest.1
        return ⟨.compound tree, some (name, s), rest.1,
          Nat.lt_trans rest.2 (Nat.lt_trans inner.2 shorter)⟩
      | none => do
        let args ← arguments nested inner.1
        let rest ← closeParenthesis args.rest
        let tree ← call scope name s args.trees rest.1
        return ⟨.compound tree, args.lastName.or (some (name, s)), rest.1,
          Nat.lt_trans rest.2 (Nat.lt_trans args.shorter (Nat.lt_trans inner.2 shorter))⟩

/-- Reads an operand behind its sign, the first character deciding its kind. -/
def unsigned (scope : Scope) (nested : Reader) (s : Input) : Except Failure (Operand s) :=
  match s with
  | [] => .error ⟨.unexpectedEnd, []⟩
  | c :: rest =>
    if c = '\x27' ∨ c = '\x60' then quotedName scope c rest
    else if c = '\x22' then string c rest
    else if h : startsNumber c = true then number c rest h
    else
      match accept '(' (c :: rest) with
      | some inner => parenthesised nested (c :: rest) inner
      | none => named scope nested (c :: rest)

def primary (scope : Scope) (nested : Reader) : Reader := fun s =>
  match accept '-' s with
  | none => do
    let p ← unsigned scope nested s
    return ⟨p.operand.tree scope.now false, p.lastName, p.rest, p.shorter⟩
  | some inner => do
    let p ← unsigned scope nested inner.1
    let tree ← limited (p.operand.tree scope.now true) p.rest
    return ⟨tree, p.lastName, p.rest, Nat.lt_trans p.shorter inner.2⟩

def unary (scope : Scope) (nested : Reader) : Reader := fun s =>
  match accept '!' s with
  | none => primary scope nested s
  | some inner => do
    let p ← primary scope nested inner.1
    let tree ← limited (.unary .not p.tree) p.rest
    return ⟨tree, p.lastName, p.rest, Nat.lt_trans p.shorter inner.2⟩

def product (scope : Scope) (nested : Reader) : Reader :=
  chain productOperator (unary scope nested)

def sum (scope : Scope) (nested : Reader) : Reader :=
  chain sumOperator (product scope nested)

def compare (scope : Scope) (nested : Reader) : Reader :=
  chain compareOperator (sum scope nested)

/-- The colon of a conditional is missing behind its then branch. The last unquoted name in that
branch has most likely swallowed it if the name holds a colon. -/
def missingColon {s : Input} (thenBranch : Parsed s) : Failure :=
  match thenBranch.lastName with
  | some (name, start) =>
    if name.contains ':' then ⟨.colonInName name, start⟩
    else unexpected .branchColon thenBranch.rest
  | none => unexpected .branchColon thenBranch.rest

/-- Goes on with a chain of logical operators and conditionals, whose tree so far is `left`. -/
def logicalFrom (scope : Scope) (nested : Reader) {s : Input} (left : Parsed s) :
    Except Failure (Parsed s) := do
  match (doubled '&' .and left.rest).or (doubled '|' .or left.rest) with
  | some (op, rest) =>
    let right ← compare scope nested rest.1
    let tree ← limited (.binary op left.tree right.tree) right.rest
    have shorter : right.rest.length < left.rest.length := Nat.lt_trans right.shorter rest.2
    logicalFrom scope nested
      ⟨tree, right.lastName.or left.lastName, right.rest, Nat.lt_trans shorter left.shorter⟩
  | none =>
    match accept '?' left.rest with
    | none => return left
    | some rest =>
      let thenBranch ← compare scope nested rest.1
      match accept ':' thenBranch.rest with
      | none => throw (missingColon thenBranch)
      | some afterColon =>
        let elseBranch ← nested afterColon.1
        let tree ← limited (.conditional left.tree thenBranch.tree elseBranch.tree) elseBranch.rest
        have shorter : elseBranch.rest.length < left.rest.length :=
          Nat.lt_trans elseBranch.shorter
            (Nat.lt_trans afterColon.2 (Nat.lt_trans thenBranch.shorter rest.2))
        logicalFrom scope nested
          ⟨tree, (elseBranch.lastName.or thenBranch.lastName).or left.lastName, elseBranch.rest,
            Nat.lt_trans shorter left.shorter⟩
termination_by left.rest.length

def logical (scope : Scope) (nested : Reader) : Reader := fun s => do
  let left ← compare scope nested s
  logicalFrom scope nested left

/-- Reads a logical expression in which `levels` levels of nesting may still be opened, its own
included. -/
def expression (scope : Scope) : (levels : Nat) → Reader
  | 0 => fun s => .error ⟨.tooDeep maxNesting, s⟩
  | levels + 1 => logical scope (expression scope levels)

def formula (scope : Scope) (text : List Char) : Except Failure (Expr String) := do
  let s := skipBlanks text
  let p ← expression scope (maxNesting + 1) s
  if p.rest.isEmpty then return p.tree
  else throw ⟨.trailingInput (String.ofList p.rest), p.rest⟩

/-- The tree that formula text writes. A position is the number of characters that were read. -/
def parse (scope : Scope) (text : String) : Except CompileError (Expr String) :=
  match formula scope text.toList with
  | .ok tree => .ok tree
  | .error failure =>
    .error ⟨failure.fault, text, text.toList.length - failure.unread.length⟩

end ProcessFormula.Parser
