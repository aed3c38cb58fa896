import ProcessFormula.Expr.Basic
import ProcessFormula.Text.NameChar

/-!
Formula text for a syntax tree. Every operator with two operands and every conditional is put in
parentheses, so that the text shows the shape of the tree whatever the strength of the operators.
-/

namespace ProcessFormula.Expr

variable {ν : Type}

def isBareName (name : String) : Bool := !name.isEmpty && name.toList.all Text.isNameChar

/-- A variable's name, in single quotes unless it consists of name characters. -/
def nameText (name : String) : String := if isBareName name then name else "'" ++ name ++ "'"

/-- A constant: a number so that it reads back as the same number, a text in double quotes, and any
other value in the form that it is shown in. -/
def constantText (value : Value) : String :=
  match value.payload with
  | .scalar x => Layout.tree.text x
  | .text s => "\x22" ++ s ++ "\x22"
  | _ => value.toText

mutual

def text (nameOf : ν → String) : Expr ν → String
  | .constant value => constantText value
  | .var x => nameText (nameOf x)
  | .unary op operand => op.symbol ++ operand.text nameOf
  | .binary op left right =>
    "(" ++ left.text nameOf ++ " " ++ op.symbol ++ " " ++ right.text nameOf ++ ")"
  | .conditional condition thenBranch elseBranch =>
    "(" ++ condition.text nameOf ++ " ? " ++ thenBranch.text nameOf ++ " : " ++
      elseBranch.text nameOf ++ ")"
  | .call function args => function.name ++ "(" ++ ", ".intercalate (texts nameOf args) ++ ")"

def texts (nameOf : ν → String) : List (Expr ν) → List String
  | [] => []
  | e :: rest => e.text nameOf :: texts nameOf rest

end

end ProcessFormula.Expr
