import ProcessFormula.Proofs.Parser.Loops

/-!
Two parsers of which the second knows all functions that the first knows, and perhaps more. They
read alike until the first meets a function that it does not know; only then do they part, and then
the first has failed. Every reader is compared with its counterpart, in the order in which they are
built from each other.
-/

namespace ProcessFormula.Parser

open Lexeme Text

/-- The second result is the first one, unless the first is that a function is unknown. -/
inductive Widened {α : Type} : Except Failure α → Except Failure α → Prop
  | same (x : Except Failure α) : Widened x x
  | unknown (name : String) (unread : Input) (y : Except Failure α) :
      Widened (.error ⟨.unknownFunction name, unread⟩) y

theorem Widened.bind {α β : Type} {x y : Except Failure α} {f g : α → Except Failure β}
    (h : Widened x y) (hmore : ∀ a, Widened (f a) (g a)) : Widened (x >>= f) (y >>= g) := by
  cases h with
  | same =>
      cases x with
      | error e => exact .same (.error e)
      | ok a => exact hmore a
  | unknown name unread => exact .unknown name unread _

/-- Every result of the second reader is that of the first, but where a function is unknown. -/
def Widens {α : Input → Type} (reader reader' : (s : Input) → Except Failure (α s)) : Prop :=
  ∀ s, Widened (reader s) (reader' s)

/-! ### Loops -/

section

variable {scope scope' : Scope} {nested nested' : Reader}

theorem widened_chainFrom {operator : (s : Input) → Except Failure (Operator s)}
    {operand operand' : Reader} (h : Widens operand operand') {s : Input} (left : Parsed s) :
    Widened (chainFrom operator operand left) (chainFrom operator operand' left) := by
  induction left using chainFrom.induct with
  | case1 left ih =>
      rw [chainFrom, chainFrom.eq_def operator operand']
      refine (Widened.same (operator left.rest)).bind fun found => ?_
      rcases found with _ | ⟨op, rest⟩
      · exact .same _
      · refine (h rest.1).bind fun right => ?_
        exact (Widened.same _).bind fun tree => ih rest right tree

theorem widens_chain {operator : (s : Input) → Except Failure (Operator s)}
    {operand operand' : Reader} (h : Widens operand operand') :
    Widens (chain operator operand) (chain operator operand') :=
  fun s => (h s).bind fun left => widened_chainFrom h left

theorem widens_arguments (h : Widens nested nested') :
    Widens (arguments nested) (arguments nested') := by
  intro s
  induction s using arguments.induct with
  | case1 s ih =>
      rw [arguments, arguments.eq_def nested']
      refine (h s).bind fun first => ?_
      split
      · exact .same _
      · next rest hcomma => exact (ih first rest).bind fun more => .same _

theorem widened_logicalFrom (hcompare : Widens (compare scope nested) (compare scope' nested'))
    (h : Widens nested nested') {s : Input} (left : Parsed s) :
    Widened (logicalFrom scope nested left) (logicalFrom scope' nested' left) := by
  induction left using logicalFrom.induct with
  | case1 left op rest hop ih =>
      rw [logicalFrom, logicalFrom.eq_def scope' nested']
      simp only [hop]
      refine (hcompare rest.1).bind fun right => ?_
      exact (Widened.same _).bind fun tree => ih right tree
  | case2 left hop hmark =>
      rw [logicalFrom, logicalFrom.eq_def scope' nested']
      simp only [hop, hmark]
      exact .same _
  | case3 left hop rest hmark ih =>
      rw [logicalFrom, logicalFrom.eq_def scope' nested']
      simp only [hop, hmark]
      refine (hcompare rest.1).bind fun thenBranch => ?_
      split
      · exact .same _
      · next afterColon hcolon =>
        refine (h afterColon.1).bind fun elseBranch => ?_
        exact (Widened.same _).bind fun tree => ih thenBranch afterColon elseBranch tree

end

/-! ### Operands -/

section

variable {scope : Scope} {resolve : String → Option Callable} {nested nested' : Reader}
  (hresolve : ∀ name f, scope.resolve name = some f → resolve name = some f)
include hresolve

theorem widened_call (name : String) (start unread : Input) (args : List (Expr String)) :
    Widened (call scope name start args unread)
      (call { scope with resolve } name start args unread) := by
  unfold call
  cases hf : scope.resolve name with
  | none => exact .unknown name start _
  | some f =>
      rw [show ({ scope with resolve } : Scope).resolve name = some f from hresolve name f hf]
      exact .same _

theorem widens_named (h : Widens nested nested') :
    Widens (named scope nested) (named { scope with resolve } nested') := by
  intro s
  unfold named
  dsimp only
  split
  · exact .same _
  · split
    · exact .same _
    · next inner hinner =>
      split
      · exact (widened_call hresolve _ _ _ _).bind fun tree => .same _
      · refine (widens_arguments h inner.1).bind fun args => ?_
        refine (Widened.same _).bind fun rest => ?_
        exact (widened_call hresolve _ _ _ _).bind fun tree => .same _

theorem widens_unsigned (h : Widens nested nested') :
    Widens (unsigned scope nested) (unsigned { scope with resolve } nested') := by
  intro s
  unfold unsigned
  split
  · exact .same _
  · split
    · exact .same _
    · split
      · exact .same _
      · split
        · exact .same _
        · split
          · next inner hinner =>
            exact (h inner.1).bind fun p => .same _
          · exact widens_named hresolve h _

theorem widens_primary (h : Widens nested nested') :
    Widens (primary scope nested) (primary { scope with resolve } nested') := by
  intro s
  unfold primary
  split
  · exact (widens_unsigned hresolve h s).bind fun p => .same _
  · next inner hinner => exact (widens_unsigned hresolve h inner.1).bind fun p => .same _

theorem widens_unary (h : Widens nested nested') :
    Widens (unary scope nested) (unary { scope with resolve } nested') := by
  intro s
  unfold unary
  split
  · exact widens_primary hresolve h s
  · next inner hinner => exact (widens_primary hresolve h inner.1).bind fun p => .same _

theorem widens_compare (h : Widens nested nested') :
    Widens (compare scope nested) (compare { scope with resolve } nested') :=
  widens_chain (widens_chain (widens_chain (widens_unary hresolve h)))

/-! ### Formulas -/

theorem widens_expression (levels : Nat) :
    Widens (expression scope levels) (expression { scope with resolve } levels) := by
  induction levels with
  | zero => exact fun s => .same _
  | succ levels ih =>
      have hcompare := widens_compare hresolve ih
      exact fun s => (hcompare s).bind fun left => widened_logicalFrom hcompare ih left

/-- A text is read alike with more functions, unless it was refused because a function is
unknown. -/
theorem widened_formula (text : List Char) :
    Widened (formula scope text) (formula { scope with resolve } text) :=
  (widens_expression hresolve (maxNesting + 1) (skipBlanks text)).bind fun _ => .same _

end

theorem parse_of_resolve (scope : Scope) {resolve : String → Option Callable}
    (hresolve : ∀ name f, scope.resolve name = some f → resolve name = some f) (text : String) :
    parse { scope with resolve } text = parse scope text ∨
      ∃ name position, parse scope text = .error ⟨.unknownFunction name, text, position⟩ := by
  have h := widened_formula hresolve text.toList
  unfold parse
  generalize formula scope text.toList = first at h ⊢
  generalize formula { scope with resolve } text.toList = second at h ⊢
  cases h with
  | same => exact Or.inl rfl
  | unknown name unread => exact Or.inr ⟨name, _, rfl⟩

end ProcessFormula.Parser
