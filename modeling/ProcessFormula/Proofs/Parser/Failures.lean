import ProcessFormula.Proofs.Parser.Loops

/-!
How the loops of the parser fail: after some rounds that went well, one of the steps of the next
round fails, and its failure is that of the loop.
-/

namespace ProcessFormula.Parser

open Lexeme

/-- A sequence of two steps fails if the first fails or if the second fails behind it. -/
theorem bind_eq_error_iff {ε α β : Type} {x : Except ε α} {f : α → Except ε β} {e : ε} :
    x >>= f = .error e ↔ x = .error e ∨ ∃ a, x = .ok a ∧ f a = .error e := by
  rcases x with e' | a <;> simp [bind, Except.bind]

/-- Only the height of a tree makes it too tall, and the failure says so. -/
theorem limited_eq_error_iff {tree : Expr String} {unread : Input} {e : Failure} :
    limited tree unread = .error e ↔
      maxHeight < tree.height ∧ ⟨.tooDeep maxHeight, unread⟩ = e := by
  unfold limited
  split
  · next h => simp [Nat.not_lt.mpr h]
  · next h => simp [Nat.lt_of_not_le h]

section

variable {operator : (s : Input) → Except Failure (Operator s)} {operand : Reader} {s : Input}

/-- The next round of a chain of operators fails. -/
inductive ChainFails (operator : (s : Input) → Except Failure (Operator s)) (operand : Reader)
    (left : Parsed s) (e : Failure) : Prop
  | operator (h : operator left.rest = .error e)
  | operand {op : BinaryOp} {rest : Shorter left.rest}
      (hop : operator left.rest = .ok (some (op, rest))) (h : operand rest.1 = .error e)
  | height {op : BinaryOp} {rest : Shorter left.rest} {right : Parsed rest.1}
      (hop : operator left.rest = .ok (some (op, rest))) (hright : operand rest.1 = .ok right)
      (h : limited (.binary op left.tree right.tree) right.rest = .error e)

theorem chainFrom_failure (invariant : Parsed s → Prop)
    (hround : ∀ (left : Parsed s) (op : BinaryOp) (rest : Shorter left.rest)
      (right : Parsed rest.1) (next : Parsed s), invariant left →
      operator left.rest = .ok (some (op, rest)) → operand rest.1 = .ok right →
      (Expr.binary op left.tree right.tree).height ≤ maxHeight →
      next.tree = .binary op left.tree right.tree → next.rest = right.rest → invariant next)
    {left : Parsed s} {e : Failure} (he : chainFrom operator operand left = .error e)
    (hleft : invariant left) : ∃ last, invariant last ∧ ChainFails operator operand last e := by
  induction left using chainFrom.induct with
  | case1 left ih =>
      rw [chainFrom] at he
      rcases bind_eq_error_iff.mp he with hop | ⟨found, hop, he⟩
      · exact ⟨left, hleft, .operator hop⟩
      rcases found with _ | ⟨op, rest⟩
      · cases he
      rcases bind_eq_error_iff.mp he with hright | ⟨right, hright, he⟩
      · exact ⟨left, hleft, .operand hop hright⟩
      rcases bind_eq_error_iff.mp he with htree | ⟨tree, htree, he⟩
      · exact ⟨left, hleft, .height hop hright htree⟩
      obtain ⟨hheight, rfl⟩ := limited_eq_ok_iff.mp htree
      exact ih rest right _ he (hround left op rest right _ hleft hop hright hheight rfl rfl)

end

section

variable {scope : Scope} {nested : Reader} {s : Input}

/-- The next round of a logical expression fails. -/
inductive LogicalFails (scope : Scope) (nested : Reader) (left : Parsed s) (e : Failure) : Prop
  | operand {op : BinaryOp} {rest : Shorter left.rest}
      (hop : junctionOperator left.rest = some (op, rest))
      (h : compare scope nested rest.1 = .error e)
  | height {op : BinaryOp} {rest : Shorter left.rest} {right : Parsed rest.1}
      (hop : junctionOperator left.rest = some (op, rest))
      (hright : compare scope nested rest.1 = .ok right)
      (h : limited (.binary op left.tree right.tree) right.rest = .error e)
  | thenBranch {rest : Shorter left.rest} (hmark : accept '?' left.rest = some rest)
      (h : compare scope nested rest.1 = .error e)
  | colon {rest : Shorter left.rest} {thenBranch : Parsed rest.1}
      (hmark : accept '?' left.rest = some rest) (h : missingColon thenBranch = e)
  | elseBranch {rest : Shorter left.rest} {thenBranch : Parsed rest.1}
      {afterColon : Shorter thenBranch.rest} (hmark : accept '?' left.rest = some rest)
      (hthen : compare scope nested rest.1 = .ok thenBranch)
      (hcolon : accept ':' thenBranch.rest = some afterColon)
      (h : nested afterColon.1 = .error e)
  | conditional {rest : Shorter left.rest} {thenBranch : Parsed rest.1}
      {afterColon : Shorter thenBranch.rest} {elseBranch : Parsed afterColon.1}
      (hmark : accept '?' left.rest = some rest)
      (hthen : compare scope nested rest.1 = .ok thenBranch)
      (hcolon : accept ':' thenBranch.rest = some afterColon)
      (helse : nested afterColon.1 = .ok elseBranch)
      (h : limited (.conditional left.tree thenBranch.tree elseBranch.tree) elseBranch.rest =
        .error e)

theorem logicalFrom_failure (invariant : Parsed s → Prop)
    (hround : ∀ (left : Parsed s) (op : BinaryOp) (rest : Shorter left.rest)
      (right : Parsed rest.1) (next : Parsed s), invariant left →
      junctionOperator left.rest = some (op, rest) → compare scope nested rest.1 = .ok right →
      (Expr.binary op left.tree right.tree).height ≤ maxHeight →
      next.tree = .binary op left.tree right.tree → next.rest = right.rest → invariant next)
    (hconditional : ∀ (left : Parsed s) (rest : Shorter left.rest) (thenBranch : Parsed rest.1)
      (afterColon : Shorter thenBranch.rest) (elseBranch : Parsed afterColon.1) (next : Parsed s),
      invariant left → accept '?' left.rest = some rest →
      compare scope nested rest.1 = .ok thenBranch →
      accept ':' thenBranch.rest = some afterColon → nested afterColon.1 = .ok elseBranch →
      (Expr.conditional left.tree thenBranch.tree elseBranch.tree).height ≤ maxHeight →
      next.tree = .conditional left.tree thenBranch.tree elseBranch.tree →
      next.rest = elseBranch.rest → invariant next)
    {left : Parsed s} {e : Failure} (he : logicalFrom scope nested left = .error e)
    (hleft : invariant left) : ∃ last, invariant last ∧ LogicalFails scope nested last e := by
  induction left using logicalFrom.induct with
  | case1 left op rest hop ih =>
      rw [logicalFrom] at he
      simp only [hop] at he
      rcases bind_eq_error_iff.mp he with hright | ⟨right, hright, he⟩
      · exact ⟨left, hleft, .operand hop hright⟩
      rcases bind_eq_error_iff.mp he with htree | ⟨tree, htree, he⟩
      · exact ⟨left, hleft, .height hop hright htree⟩
      obtain ⟨hheight, rfl⟩ := limited_eq_ok_iff.mp htree
      exact ih right _ he (hround left op rest right _ hleft hop hright hheight rfl rfl)
  | case2 left hop hmark =>
      rw [logicalFrom] at he
      simp only [hop, hmark] at he
      cases he
  | case3 left hop rest hmark ih =>
      rw [logicalFrom] at he
      simp only [hop, hmark] at he
      rcases bind_eq_error_iff.mp he with hthen | ⟨thenBranch, hthen, he⟩
      · exact ⟨left, hleft, .thenBranch hmark hthen⟩
      split at he
      · exact ⟨left, hleft, .colon hmark (Except.error.inj he)⟩
      · next afterColon hcolon =>
        rcases bind_eq_error_iff.mp he with helse | ⟨elseBranch, helse, he⟩
        · exact ⟨left, hleft, .elseBranch hmark hthen hcolon helse⟩
        rcases bind_eq_error_iff.mp he with htree | ⟨tree, htree, he⟩
        · exact ⟨left, hleft, .conditional hmark hthen hcolon helse htree⟩
        obtain ⟨hheight, rfl⟩ := limited_eq_ok_iff.mp htree
        exact ih thenBranch afterColon elseBranch _ he (hconditional left rest thenBranch afterColon
          elseBranch _ hleft hmark hthen hcolon helse hheight rfl rfl)

/-- What holds where the first argument fails, and holds of arguments behind a comma if it holds of
the rest of them, holds wherever arguments fail. -/
theorem arguments_failure (property : Input → Prop) {e : Failure}
    (hfirst : ∀ s, nested s = .error e → property s)
    (hmore : ∀ (s : Input) (first : Parsed s) (rest : Shorter first.rest), nested s = .ok first →
      accept ',' first.rest = some rest → property rest.1 → property s)
    (he : arguments nested s = .error e) : property s := by
  induction s using arguments.induct with
  | case1 s ih =>
      rw [arguments] at he
      rcases bind_eq_error_iff.mp he with hnested | ⟨first, hnested, he⟩
      · exact hfirst s hnested
      split at he
      · cases he
      · next rest hcomma =>
        rcases bind_eq_error_iff.mp he with hrest | ⟨more, -, he⟩
        · exact hmore s first rest hnested hcomma (ih first rest hrest)
        · cases he

end

end ProcessFormula.Parser
