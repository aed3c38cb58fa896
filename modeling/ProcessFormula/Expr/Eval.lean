import ProcessFormula.Expr.Basic

/-!
The value of a formula. Operands and arguments are evaluated from left to right and the first error
wins; a logical operator whose left operand decides, and a conditional, leave out the part that they
do not need. Every result carries the worst alarm and the latest time of what it was computed from.
-/

namespace ProcessFormula

open Binary64 (flag)

def UnaryOp.apply : UnaryOp → Float → Float
  | .negate, x => -x
  | .not, x => flag (x == 0.0)

def BinaryOp.apply : BinaryOp → Float → Float → Float
  | .add, a, b => a + b
  | .sub, a, b => a - b
  | .mul, a, b => a * b
  | .div, a, b => a / b
  | .pow, a, b => Float.pow a b
  | .lt, a, b => flag (decide (a < b))
  | .le, a, b => flag (decide (a ≤ b))
  | .gt, a, b => flag (decide (b < a))
  | .ge, a, b => flag (decide (b ≤ a))
  | .eq, a, b => flag (a == b)
  | .ne, a, b => flag (a != b)
  | .and, a, b => flag (a != 0.0 && b != 0.0)
  | .or, a, b => flag (a != 0.0 || b != 0.0)

/-- Does the left operand decide the result alone? -/
def BinaryOp.decidedBy (op : BinaryOp) (left : Value) : Bool :=
  (op == .and && !left.isTrue) || (op == .or && left.isTrue)

/-- The result of an operator over both operands. A sum with a text is the two texts together. -/
def BinaryOp.combine (op : BinaryOp) (a b : Value) : Value :=
  if op = .add ∧ (a.isText ∨ b.isText) then
    ⟨.text (a.toText ++ b.toText), a.alarm.worst b.alarm, a.time.latest b.time⟩
  else Value.combine (op.apply a.toFloat b.toFloat) a b

namespace Expr

variable {ν : Type}

mutual

/-- The value of a formula when `read` gives the values of its variables. Every call has a moment of
its own, also one that turns out not to be needed. -/
def eval (read : ν → Value) (m : Moments) : Expr ν → Evaluation
  | .constant value => .ok value
  | .var x => .ok (read x)
  | .unary op operand => do
    let v ← operand.eval read m
    return v.withPayload (.scalar (op.apply v.toFloat))
  | .binary op left right => do
    let a ← left.eval read m
    if op.decidedBy a then return a.withPayload (.scalar (flag a.isTrue))
    let b ← right.eval read (m.behind left.calls.length)
    return op.combine a b
  | .conditional condition thenBranch elseBranch => do
    let c ← condition.eval read m
    if c.isTrue then thenBranch.eval read (m.behind condition.calls.length)
    else elseBranch.eval read (m.behind (condition.calls ++ thenBranch.calls).length)
  | .call function args => do
    let values ← evalAll read m args
    function.compute (m (allCalls args).length) values

def evalAll (read : ν → Value) (m : Moments) : List (Expr ν) → Except EvalError (List Value)
  | [] => .ok []
  | e :: rest => do
    let v ← e.eval read m
    let more ← evalAll read (m.behind e.calls.length) rest
    return v :: more

end

end Expr

end ProcessFormula
