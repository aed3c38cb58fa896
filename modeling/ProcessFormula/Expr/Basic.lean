import ProcessFormula.Function.Basic

/-!
The syntax tree of a formula. The type of the variables is a parameter: the reader of formula text
builds trees over names, and compiling replaces the names by cells.
-/

namespace ProcessFormula

inductive UnaryOp where
  | negate
  | not
  deriving DecidableEq

inductive BinaryOp where
  | add
  | sub
  | mul
  | div
  | pow
  | lt
  | le
  | gt
  | ge
  | eq
  | ne
  | and
  | or
  deriving DecidableEq

def UnaryOp.symbol : UnaryOp → String
  | .negate => "-"
  | .not => "!"

def BinaryOp.symbol : BinaryOp → String
  | .add => "+"
  | .sub => "-"
  | .mul => "*"
  | .div => "/"
  | .pow => "^"
  | .lt => "<"
  | .le => "<="
  | .gt => ">"
  | .ge => ">="
  | .eq => "=="
  | .ne => "!="
  | .and => "&&"
  | .or => "||"

/-- A formula over variables of type `ν`. -/
inductive Expr (ν : Type) where
  | constant (value : Value)
  | var (x : ν)
  | unary (op : UnaryOp) (operand : Expr ν)
  | binary (op : BinaryOp) (left right : Expr ν)
  | conditional (condition thenBranch elseBranch : Expr ν)
  | call (function : Callable) (args : List (Expr ν))

namespace Expr

variable {ν μ : Type}

mutual

/-- The height of the tree: one for a leaf, and otherwise one more than the tallest branch. -/
def height : Expr ν → Nat
  | .constant _ => 1
  | .var _ => 1
  | .unary _ operand => operand.height + 1
  | .binary _ left right => max left.height right.height + 1
  | .conditional condition thenBranch elseBranch =>
    max (max condition.height thenBranch.height) elseBranch.height + 1
  | .call _ args => tallest args + 1

def tallest : List (Expr ν) → Nat
  | [] => 0
  | e :: rest => max e.height (tallest rest)

end

mutual

/-- The calls in the tree, in the order in which they are evaluated: the function and the number of
its arguments, a call behind those in its arguments. -/
def calls : Expr ν → List (Callable × Nat)
  | .constant _ => []
  | .var _ => []
  | .unary _ operand => operand.calls
  | .binary _ left right => left.calls ++ right.calls
  | .conditional condition thenBranch elseBranch =>
    condition.calls ++ thenBranch.calls ++ elseBranch.calls
  | .call function args => allCalls args ++ [(function, args.length)]

def allCalls : List (Expr ν) → List (Callable × Nat)
  | [] => []
  | e :: rest => e.calls ++ allCalls rest

end

mutual

/-- The variables of the leaves, from left to right and with repetitions. -/
def vars : Expr ν → List ν
  | .constant _ => []
  | .var x => [x]
  | .unary _ operand => operand.vars
  | .binary _ left right => left.vars ++ right.vars
  | .conditional condition thenBranch elseBranch =>
    condition.vars ++ thenBranch.vars ++ elseBranch.vars
  | .call _ args => allVars args

def allVars : List (Expr ν) → List ν
  | [] => []
  | e :: rest => e.vars ++ allVars rest

end

mutual

def map (f : ν → μ) : Expr ν → Expr μ
  | .constant value => .constant value
  | .var x => .var (f x)
  | .unary op operand => .unary op (operand.map f)
  | .binary op left right => .binary op (left.map f) (right.map f)
  | .conditional condition thenBranch elseBranch =>
    .conditional (condition.map f) (thenBranch.map f) (elseBranch.map f)
  | .call function args => .call function (mapAll f args)

def mapAll (f : ν → μ) : List (Expr ν) → List (Expr μ)
  | [] => []
  | e :: rest => e.map f :: mapAll f rest

end

end Expr

end ProcessFormula
