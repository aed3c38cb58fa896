import ProcessFormula.Proofs.Grammar.Derivation

/-!
The levels of nesting that a row of lexemes leaves open, counted without any reading of the row. A
parenthesis opens a level and the colon of a conditional opens one; a closing parenthesis closes its
level with all branches in it, and a comma closes the branches of the argument in front of it. What
the grammar derives leaves nothing open but the branches that end where it ends.
-/

namespace ProcessFormula.Grammar

open ProcessFormula.Parser

/-- What opens a level of nesting: a parenthesis, also that of a call, or an else branch. -/
inductive Opener where
  | bracket
  | branch
  deriving DecidableEq

def endBranches (levels : List Opener) : List Opener := levels.dropWhile (· == .branch)

def levelsBehind (levels : List Opener) : Token → List Opener
  | .opening => .bracket :: levels
  | .colon => .branch :: levels
  | .comma => endBranches levels
  | .closing => (endBranches levels).tail
  | _ => levels

/-- The levels that a row of lexemes leaves open. -/
def openLevels (row : List Token) : List Opener := row.foldl levelsBehind []

/-- A row of lexemes opens some levels more than it closes, and closes none that were open. -/
def Opens (count : Nat) (row : List Token) : Prop :=
  ∃ opened : List Opener, opened.length = count ∧
    ∀ levels, row.foldl levelsBehind levels = opened ++ levels

/-- A row of lexemes opens else branches only. -/
def Branches (row : List Token) : Prop :=
  ∃ count, ∀ levels, row.foldl levelsBehind levels = List.replicate count .branch ++ levels

theorem opens_nil : Opens 0 [] := ⟨[], rfl, fun _ => rfl⟩

/-- Levels that stay open add up. -/
theorem Opens.append {count count' : Nat} {row row' : List Token} (h : Opens count row)
    (h' : Opens count' row') : Opens (count + count') (row ++ row') := by
  obtain ⟨opened, rfl, hrow⟩ := h
  obtain ⟨opened', rfl, hrow'⟩ := h'
  refine ⟨opened' ++ opened, by simp [Nat.add_comm], fun levels => ?_⟩
  rw [List.foldl_append, hrow, hrow', List.append_assoc]

theorem Opens.length_openLevels {count : Nat} {row : List Token} (h : Opens count row) :
    (openLevels row).length = count := by
  obtain ⟨opened, hcount, hrow⟩ := h
  rw [openLevels, hrow, List.append_nil, hcount]

/-- A row that opens no level leaves those around it as they are. -/
theorem Opens.foldl {row : List Token} (h : Opens 0 row) (levels : List Opener) :
    row.foldl levelsBehind levels = levels := by
  obtain ⟨opened, hopened, hrow⟩ := h
  rw [hrow, List.length_eq_zero_iff.mp hopened, List.nil_append]

theorem Opens.branches {row : List Token} (h : Opens 0 row) : Branches row := by
  exact ⟨0, h.foldl⟩

/-- Lexemes that have no influence on the levels. -/
def Token.isPlain : Token → Bool
  | .opening | .closing | .comma | .colon => false
  | _ => true

theorem opens_plain {token : Token} (h : token.isPlain = true) : Opens 0 [token] := by
  refine ⟨[], rfl, fun levels => ?_⟩
  cases token <;> first | rfl | cases h

theorem opens_opening : Opens 1 [.opening] := ⟨[.bracket], rfl, fun _ => rfl⟩

theorem opens_colon : Opens 1 [.colon] := ⟨[.branch], rfl, fun _ => rfl⟩

theorem endBranches_replicate (count : Nat) (levels : List Opener) :
    endBranches (List.replicate count .branch ++ .bracket :: levels) = .bracket :: levels := by
  rw [endBranches, List.dropWhile_append_of_pos (by simp)]
  rfl

/-- What stands between parentheses closes with them. -/
theorem Branches.parenthesised {row : List Token} (h : Branches row) :
    Opens 0 (.opening :: (row ++ [.closing])) := by
  obtain ⟨count, hrow⟩ := h
  refine ⟨[], rfl, fun levels => ?_⟩
  rw [List.foldl_cons, List.foldl_append, hrow]
  exact congrArg List.tail (endBranches_replicate count levels)

/-- A comma behind an argument closes the else branches in the argument. -/
theorem Branches.comma {row : List Token} (h : Branches row) (levels : List Opener) :
    (row ++ [Token.comma]).foldl levelsBehind (.bracket :: levels) = .bracket :: levels := by
  obtain ⟨count, hrow⟩ := h
  rw [List.foldl_append, hrow]
  exact endBranches_replicate count levels

/-- Between the parentheses of a call only else branches are opened, and a comma ends those in front
of it. -/
theorem foldl_separated {rows : List (List Token)} (h : ∀ row ∈ rows, Branches row)
    (levels : List Opener) :
    ∃ count, (separated rows).foldl levelsBehind (.bracket :: levels) =
      List.replicate count .branch ++ .bracket :: levels := by
  induction rows with
  | nil => exact ⟨0, rfl⟩
  | cons row rows ih =>
      have hfirst := h row (by simp)
      by_cases hrows : rows = []
      · obtain ⟨count, hrow⟩ := hfirst
        subst hrows
        exact ⟨count, by rw [separated_one, hrow]⟩
      · obtain ⟨count, hmore⟩ := ih fun row' hrow' => h row' (by simp [hrow'])
        refine ⟨count, ?_⟩
        rw [separated_cons row hrows, List.append_cons, List.foldl_append, hfirst.comma, hmore]

/-- The closing parenthesis of a call closes all that was opened inside. -/
theorem opens_call {name : String} {rows : List (List Token)} (h : ∀ row ∈ rows, Branches row) :
    Opens 0 (.function name :: .opening :: (separated rows ++ [.closing])) := by
  refine ⟨[], rfl, fun levels => ?_⟩
  obtain ⟨count, hrows⟩ := foldl_separated h levels
  show (separated rows ++ [Token.closing]).foldl levelsBehind (.bracket :: levels) = levels
  rw [List.foldl_append, hrows]
  exact congrArg List.tail (endBranches_replicate count levels)

/-- A conditional leaves its else branch open until something ends it. -/
theorem Branches.conditional {first second third : List Token} (hfirst : Opens 0 first)
    (hsecond : Opens 0 second) (hthird : Branches third) :
    Branches (first ++ .question :: (second ++ .colon :: third)) := by
  obtain ⟨count, hthird⟩ := hthird
  refine ⟨count + 1, fun levels => ?_⟩
  calc (first ++ .question :: (second ++ .colon :: third)).foldl levelsBehind levels
    _ = (second ++ .colon :: third).foldl levelsBehind levels := by
        rw [List.foldl_append, hfirst.foldl]
        rfl
    _ = third.foldl levelsBehind (.branch :: levels) := by
        rw [List.foldl_append, hsecond.foldl]
        rfl
    _ = List.replicate (count + 1) .branch ++ levels := by
        rw [hthird, List.replicate_succ', List.append_assoc]
        rfl

/-- What the grammar derives closes every level that it opens, but for the else branches at the end
of a logical expression. -/
theorem Derives.levels {scope : Scope} {depth : Nat} {level : Level} {row : List Token}
    {tree : Expr String} (h : Derives scope depth level row tree) :
    (level ≠ .logical → Opens 0 row) ∧ Branches row := by
  have hkeeps {level : Level} {row : List Token} (h : Opens 0 row) :
      (level ≠ .logical → Opens 0 row) ∧ Branches row := ⟨fun _ => h, h.branches⟩
  induction h with
  | chains _ ih => exact ⟨fun hlevel => absurd rfl hlevel, ih.2⟩
  | conditional _ _ _ _ ihcondition ihthen ihelse =>
      exact ⟨fun hlevel => absurd rfl hlevel,
        .conditional (ihcondition.1 (by simp)) (ihthen.1 (by simp)) ihelse.2⟩
  | @single _ strength _ _ _ ih =>
      exact hkeeps (ih.1 (by cases strength <;> simp [Level.operandOf]))
  | @chain _ op _ _ _ _ _ _ ihleft ihright =>
      refine hkeeps ((ihleft.1 (by simp)).append
        ((opens_plain (show (Token.operator op).isPlain = true from rfl)).append (ihright.1 ?_)))
      cases op.strength <;> simp [Level.operandOf]
  | not _ ih => exact hkeeps ((opens_plain (show Token.not.isPlain = true from rfl)).append
      (ih.1 (by simp)))
  | plain _ ih | unsigned _ ih => exact hkeeps (ih.1 (by simp))
  | number | text | quoted | bare => exact hkeeps (opens_plain rfl)
  | negativeNumber | negativeText => exact hkeeps ((opens_plain rfl).append (opens_plain rfl))
  | negative _ ih => exact hkeeps ((opens_plain rfl).append (ih.1 (by simp)))
  | parenthesised _ _ ih => exact hkeeps ih.2.parenthesised
  | call _ _ _ _ ih =>
      refine hkeeps (opens_call fun row hrow => ?_)
      obtain ⟨arg, harg, rfl⟩ := List.mem_map.mp hrow
      exact (ih arg harg).2

end ProcessFormula.Grammar
