import ProcessFormula.Expr.Printer
import ProcessFormula.Function.Registry
import ProcessFormula.Proofs.Expr.Height

/-!
When the printed text of a tree shows the tree. A property of a tree is a property of each of its
subtrees; what the text of a subtree can hide depends on its root and on what stands right below.
-/

namespace ProcessFormula.Expr

variable {ν : Type}

/-! ### Subtrees -/

mutual

def Everywhere (holds : Expr ν → Prop) : Expr ν → Prop
  | .constant value => holds (.constant value)
  | .var x => holds (.var x)
  | .unary op operand => holds (.unary op operand) ∧ operand.Everywhere holds
  | .binary op left right =>
    holds (.binary op left right) ∧ left.Everywhere holds ∧ right.Everywhere holds
  | .conditional condition thenBranch elseBranch =>
    holds (.conditional condition thenBranch elseBranch) ∧ condition.Everywhere holds ∧
      thenBranch.Everywhere holds ∧ elseBranch.Everywhere holds
  | .call f args => holds (.call f args) ∧ AllEverywhere holds args

def AllEverywhere (holds : Expr ν → Prop) : List (Expr ν) → Prop
  | [] => True
  | e :: rest => e.Everywhere holds ∧ AllEverywhere holds rest

end

theorem allEverywhere_iff {holds : Expr ν → Prop} {args : List (Expr ν)} :
    AllEverywhere holds args ↔ ∀ arg ∈ args, arg.Everywhere holds := by
  induction args with
  | nil => simp [AllEverywhere]
  | cons e rest ih => simp [AllEverywhere, ih]

theorem Everywhere.root {holds : Expr ν → Prop} {e : Expr ν} (h : e.Everywhere holds) :
    holds e := by
  cases e with
  | constant | var => exact h
  | unary | binary | conditional | call => exact h.1

mutual

/-- A property of all subtrees may be weakened. -/
theorem Everywhere.imp {holds weaker : Expr ν → Prop} (himp : ∀ e, holds e → weaker e) {e : Expr ν}
    (h : e.Everywhere holds) : e.Everywhere weaker := by
  cases e with
  | constant | var => exact himp _ h
  | unary _ operand => exact ⟨himp _ h.1, h.2.imp himp⟩
  | binary _ left right => exact ⟨himp _ h.1, h.2.1.imp himp, h.2.2.imp himp⟩
  | conditional condition thenBranch elseBranch =>
      exact ⟨himp _ h.1, h.2.1.imp himp, h.2.2.1.imp himp, h.2.2.2.imp himp⟩
  | call _ args => exact ⟨himp _ h.1, h.2.imp himp⟩

theorem AllEverywhere.imp {holds weaker : Expr ν → Prop} (himp : ∀ e, holds e → weaker e)
    {args : List (Expr ν)} (h : AllEverywhere holds args) : AllEverywhere weaker args := by
  cases args with
  | nil => trivial
  | cons e rest => exact ⟨h.1.imp himp, h.2.imp himp⟩

end

/-! ### Constants of another time -/

mutual

def atTime (now : Timestamp) : Expr ν → Expr ν
  | .constant value => .constant (value.withTime now)
  | .var x => .var x
  | .unary op operand => .unary op (operand.atTime now)
  | .binary op left right => .binary op (left.atTime now) (right.atTime now)
  | .conditional condition thenBranch elseBranch =>
    .conditional (condition.atTime now) (thenBranch.atTime now) (elseBranch.atTime now)
  | .call f args => .call f (allAtTime now args)

def allAtTime (now : Timestamp) : List (Expr ν) → List (Expr ν)
  | [] => []
  | e :: rest => e.atTime now :: allAtTime now rest

end

theorem allAtTime_eq_map (now : Timestamp) (args : List (Expr ν)) :
    allAtTime now args = args.map (atTime now) := by
  induction args with
  | nil => rfl
  | cons e rest ih => rw [allAtTime, ih, List.map_cons]

mutual

@[simp]
theorem vars_atTime (now : Timestamp) (e : Expr ν) : (e.atTime now).vars = e.vars := by
  cases e with
  | constant | var => rfl
  | unary _ operand => exact vars_atTime now operand
  | binary _ left right => simp [atTime, vars, vars_atTime now left, vars_atTime now right]
  | conditional condition thenBranch elseBranch =>
      simp [atTime, vars, vars_atTime now condition, vars_atTime now thenBranch,
        vars_atTime now elseBranch]
  | call _ args => exact allVars_allAtTime now args

theorem allVars_allAtTime (now : Timestamp) (args : List (Expr ν)) :
    allVars (allAtTime now args) = allVars args := by
  cases args with
  | nil => rfl
  | cons e rest => simp [allAtTime, allVars, vars_atTime now e, allVars_allAtTime now rest]

end

mutual

/-- The time of the constants is no part of a tree's shape. -/
@[simp]
theorem height_atTime (now : Timestamp) (e : Expr ν) : (e.atTime now).height = e.height := by
  cases e with
  | constant | var => rfl
  | unary _ operand => simp [atTime, height, height_atTime now operand]
  | binary _ left right => simp [atTime, height, height_atTime now left, height_atTime now right]
  | conditional condition thenBranch elseBranch =>
      simp [atTime, height, height_atTime now condition, height_atTime now thenBranch,
        height_atTime now elseBranch]
  | call _ args => simp [atTime, height, tallest_allAtTime now args]

theorem tallest_allAtTime (now : Timestamp) (args : List (Expr ν)) :
    tallest (allAtTime now args) = tallest args := by
  cases args with
  | nil => rfl
  | cons e rest => simp [allAtTime, tallest, height_atTime now e, tallest_allAtTime now rest]

end

/-! ### Printed text -/

mutual

/-- How deep the text of a tree nests parentheses, arguments and else branches. -/
def printedNesting : Expr ν → Nat
  | .constant _ | .var _ => 0
  | .unary _ operand => operand.printedNesting
  | .binary _ left right => 1 + max left.printedNesting right.printedNesting
  | .conditional condition thenBranch elseBranch =>
    1 + max (max condition.printedNesting thenBranch.printedNesting)
      (1 + elseBranch.printedNesting)
  | .call _ args => argumentNesting args

def argumentNesting : List (Expr ν) → Nat
  | [] => 0
  | e :: rest => max (1 + e.printedNesting) (argumentNesting rest)

end

/-- An argument stands one level further in than its call. -/
theorem printedNesting_le_argumentNesting {args : List (Expr ν)} {arg : Expr ν}
    (h : arg ∈ args) : 1 + arg.printedNesting ≤ argumentNesting args := by
  induction args with
  | nil => cases h
  | cons e rest ih =>
      rw [argumentNesting]
      rcases List.mem_cons.mp h with rfl | h
      · exact Nat.le_max_left _ _
      · exact Nat.le_trans (ih h) (Nat.le_max_right _ _)

/-- The text of a subtree says what the subtree is: a number is finite; a double quote would end a
text and a single quote a quoted name; a bare name does not look like a number; there is only one
exclamation mark; the colon of a conditional does not become part of a bare name in front of it; and
the name of a function is one by which the function is found. -/
def Presentable (registry : Registry) : Expr String → Prop
  | .constant value =>
    match value.payload with
    | .scalar x => x.isFinite = true
    | .text s => '\x22' ∉ s.toList
    | _ => True
  | .var name =>
    if isBareName name then ∀ c ∈ name.toList.head?, c.isDigit = false else '\x27' ∉ name.toList
  | .unary .not (.unary .not _) => False
  | .conditional _ (.var name) _ | .conditional _ (.unary .not (.var name)) _ =>
    isBareName name = false
  | .call f _ => registry.resolve f.name = some f
  | _ => True

def endsBare : Expr String → Bool
  | .var name => isBareName name
  | .unary _ operand => operand.endsBare
  | _ => false

end ProcessFormula.Expr
