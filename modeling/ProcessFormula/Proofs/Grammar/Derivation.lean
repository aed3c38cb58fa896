import ProcessFormula.Proofs.Grammar.Lexical
import ProcessFormula.Syntax.Parser

/-!
The grammar of formulas over rows of lexemes, and the tree that each rule builds. Rules put rows of
lexemes one behind the other and say nothing on how a text is read. Every rule is given at some
depth, the number of parentheses, arguments and else branches around it.
-/

namespace ProcessFormula

/-- The binding strengths of the operators, weakest first. -/
inductive Strength where
  | junction
  | comparison
  | sum
  | product
  deriving DecidableEq

def BinaryOp.strength : BinaryOp → Strength
  | .and | .or => .junction
  | .eq | .ne | .ge | .le | .gt | .lt => .comparison
  | .add | .sub => .sum
  | .pow | .mul | .div => .product

namespace Grammar

open ProcessFormula.Parser

/-- What a row of lexemes can be read as. -/
inductive Level where
  | logical
  | chain (strength : Strength)
  | unary
  | primary
  | operand
  deriving DecidableEq

def Level.operandOf : Strength → Level
  | .junction => .chain .comparison
  | .comparison => .chain .sum
  | .sum => .chain .product
  | .product => .unary

def separated (rows : List (List Token)) : List Token := [Token.comma].intercalate rows

theorem separated_one (row : List Token) : separated [row] = row := by
  simp [separated]

/-- A row has a comma behind it if there are more. -/
theorem separated_cons (row : List Token) {rows : List (List Token)} (h : rows ≠ []) :
    separated (row :: rows) = row ++ .comma :: separated rows := by
  cases rows with
  | nil => exact absurd rfl h
  | cons next rows => simp [separated, List.intercalate]

theorem separated_eq_append (row : List Token) (rows : List (List Token)) :
    ∃ more, separated (row :: rows) = row ++ more := by
  by_cases hrows : rows = []
  · exact ⟨[], by rw [hrows, separated_one, List.append_nil]⟩
  · exact ⟨_, separated_cons row hrows⟩

/-- The tree of a row of lexemes at a level. A chain grows to the right, so its operators associate
to the left. A conditional is never an operand of an operator of its own strength: the else branch
is all that follows the colon. -/
inductive Derives (scope : Scope) : Nat → Level → List Token → Expr String → Prop
  | chains {depth : Nat} {row : List Token} {tree : Expr String}
      (h : Derives scope depth (.chain .junction) row tree) : Derives scope depth .logical row tree
  | conditional {depth : Nat} {first second third : List Token}
      {condition thenBranch elseBranch : Expr String}
      (hcondition : Derives scope depth (.chain .junction) first condition)
      (hthen : Derives scope depth (.chain .comparison) second thenBranch)
      (hdepth : depth < maxNesting) (helse : Derives scope (depth + 1) .logical third elseBranch) :
      Derives scope depth .logical (first ++ .question :: (second ++ .colon :: third))
        (.conditional condition thenBranch elseBranch)
  | single {depth : Nat} {strength : Strength} {row : List Token} {tree : Expr String}
      (h : Derives scope depth (.operandOf strength) row tree) :
      Derives scope depth (.chain strength) row tree
  | chain {depth : Nat} {op : BinaryOp} {first second : List Token} {left right : Expr String}
      (hleft : Derives scope depth (.chain op.strength) first left)
      (hright : Derives scope depth (.operandOf op.strength) second right) :
      Derives scope depth (.chain op.strength) (first ++ .operator op :: second)
        (.binary op left right)
  | not {depth : Nat} {row : List Token} {tree : Expr String}
      (h : Derives scope depth .primary row tree) :
      Derives scope depth .unary (.not :: row) (.unary .not tree)
  | plain {depth : Nat} {row : List Token} {tree : Expr String}
      (h : Derives scope depth .primary row tree) : Derives scope depth .unary row tree
  | number {depth : Nat} (x : Float) :
      Derives scope depth .primary [.number x] (.constant (.number scope.now x))
  | negativeNumber {depth : Nat} (x : Float) :
      Derives scope depth .primary [.operator .sub, .number x]
        (.constant (.number scope.now (-x)))
  | text {depth : Nat} (s : String) :
      Derives scope depth .primary [.text s] (.constant (.text scope.now s))
  | negativeText {depth : Nat} (s : String) :
      Derives scope depth .primary [.operator .sub, .text s] (.constant (.text scope.now s))
  | unsigned {depth : Nat} {row : List Token} {tree : Expr String}
      (h : Derives scope depth .operand row tree) : Derives scope depth .primary row tree
  | negative {depth : Nat} {row : List Token} {tree : Expr String}
      (h : Derives scope depth .operand row tree) :
      Derives scope depth .primary (.operator .sub :: row)
        (.binary .sub (.constant (.number scope.now 0.0)) tree)
  | quoted {depth : Nat} {name : String} (hknown : scope.knows name = true) :
      Derives scope depth .operand [.quoted name] (.var name)
  | bare {depth : Nat} {name : String} (hknown : scope.knows name = true) :
      Derives scope depth .operand [.bare name] (.var name)
  | parenthesised {depth : Nat} {row : List Token} {tree : Expr String}
      (hdepth : depth < maxNesting) (h : Derives scope (depth + 1) .logical row tree) :
      Derives scope depth .operand (.opening :: (row ++ [.closing])) tree
  | call {depth : Nat} {name : String} {f : Callable} {args : List (List Token × Expr String)}
      (hresolve : scope.resolve name = some f) (harity : f.arity.accepts args.length = true)
      (hdepth : args ≠ [] → depth < maxNesting)
      (hargs : ∀ arg ∈ args, Derives scope (depth + 1) .logical arg.1 arg.2) :
      Derives scope depth .operand
        (.function name :: .opening :: (separated (args.map Prod.fst) ++ [.closing]))
        (.call f (args.map Prod.snd))

def Token.endsOperand : Token → Bool
  | .number _ | .text _ | .quoted _ | .bare _ | .closing => true
  | _ => false

theorem Token.next_of_endsOperand {token : Token} (h : token.endsOperand = true) :
    token.next = .operator := by
  cases token <;> first | rfl | cases h

/-- A row of lexemes that has a tree does not start with a closing parenthesis, and it ends as an
operand does. -/
theorem Derives.ends {scope : Scope} {depth : Nat} {level : Level} {row : List Token}
    {tree : Expr String} (h : Derives scope depth level row tree) :
    (∃ first ∈ row.head?, first ≠ .closing) ∧ ∃ last ∈ row.getLast?, last.endsOperand = true := by
  simp only [Option.mem_def]
  induction h with
  | chains _ ih | single _ ih | plain _ ih | unsigned _ ih => exact ih
  | conditional _ _ _ _ ihcondition _ ihelse =>
      obtain ⟨⟨first, hfirst, hclosing⟩, -⟩ := ihcondition
      obtain ⟨-, last, hlast, hends⟩ := ihelse
      exact ⟨⟨first, by simp [hfirst], hclosing⟩, last, by simp [List.getLast?_cons, hlast], hends⟩
  | chain _ _ ihleft ihright =>
      obtain ⟨⟨first, hfirst, hclosing⟩, -⟩ := ihleft
      obtain ⟨-, last, hlast, hends⟩ := ihright
      exact ⟨⟨first, by simp [hfirst], hclosing⟩, last, by simp [List.getLast?_cons, hlast], hends⟩
  | not _ ih | negative _ ih =>
      obtain ⟨-, last, hlast, hends⟩ := ih
      exact ⟨⟨_, rfl, by simp⟩, last, by simp [List.getLast?_cons, hlast], hends⟩
  | number | text | quoted | bare => exact ⟨⟨_, rfl, by simp⟩, _, rfl, rfl⟩
  | negativeNumber | negativeText => exact ⟨⟨_, rfl, by simp⟩, _, rfl, rfl⟩
  | parenthesised | call => exact ⟨⟨_, rfl, by simp⟩, .closing, by simp [List.getLast?_cons], rfl⟩

/-- An expression does not end with the name of a function. -/
theorem Derives.last_ne_function {scope : Scope} {depth : Nat} {level : Level} {row : List Token}
    {tree : Expr String} (h : Derives scope depth level row tree) (name : String) :
    row.getLast? ≠ some (.function name) := by
  intro hfunction
  obtain ⟨-, last, hlast, hends⟩ := h.ends
  obtain rfl := Option.some.inj (hlast.symm.trans hfunction)
  cases hends

/-- The tree of a text: that of its lexemes, unless it is too tall. -/
def Sentence (scope : Scope) (text : String) (tree : Expr String) : Prop :=
  ∃ tokens, Lexes .operand (Text.skipBlanks text.toList) tokens .operator [] ∧
    Derives scope 0 .logical tokens tree ∧ tree.height ≤ maxHeight

end Grammar

end ProcessFormula
