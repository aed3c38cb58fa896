import ProcessFormula.Proofs.Formula.Compiling
import ProcessFormula.Proofs.Grammar.LastNames
import ProcessFormula.Proofs.Grammar.Limits
import ProcessFormula.Proofs.Grammar.PrintedLexemes

/-!
The missing colon of a conditional. Where no colon stands behind a then branch, the text is refused.
The error blames the last unquoted name in the branch if that name contains a colon, also where
other lexemes stand behind it in the branch, and otherwise what stands in place of the colon.
-/

namespace ProcessFormula

namespace Grammar

open Text Lexeme ProcessFormula.Parser

/-- What has been read of a logical expression from `s` after some rounds. -/
inductive Rounds (scope : Scope) (nested : Reader) (s : Input) : Parsed s → Prop
  | start {left : Parsed s} (hleft : compare scope nested s = .ok left) : Rounds scope nested s left
  | junction {left : Parsed s} {op : BinaryOp} {rest : Shorter left.rest} {right : Parsed rest.1}
      (h : Rounds scope nested s left) (hop : junctionOperator left.rest = some (op, rest))
      (hright : compare scope nested rest.1 = .ok right)
      (hheight : (Expr.binary op left.tree right.tree).height ≤ maxHeight)
      (hshorter : right.rest.length < s.length) :
      Rounds scope nested s
        ⟨.binary op left.tree right.tree, right.lastName.or left.lastName, right.rest, hshorter⟩
  | conditional {left : Parsed s} {rest : Shorter left.rest} {thenBranch : Parsed rest.1}
      {afterColon : Shorter thenBranch.rest} {elseBranch : Parsed afterColon.1}
      (h : Rounds scope nested s left) (hop : junctionOperator left.rest = none)
      (hmark : accept '?' left.rest = some rest)
      (hthen : compare scope nested rest.1 = .ok thenBranch)
      (hcolon : accept ':' thenBranch.rest = some afterColon)
      (helse : nested afterColon.1 = .ok elseBranch)
      (hheight : (Expr.conditional left.tree thenBranch.tree elseBranch.tree).height ≤ maxHeight)
      (hshorter : elseBranch.rest.length < s.length) :
      Rounds scope nested s
        ⟨.conditional left.tree thenBranch.tree elseBranch.tree,
          (elseBranch.lastName.or thenBranch.lastName).or left.lastName, elseBranch.rest, hshorter⟩

/-- In the course of reading a formula, a then branch is read from `start`, and `rest` is what
follows it. -/
inductive ThenBranch (scope : Scope) (text : List Char) : Input → Input → Prop
  | intro {levels : Nat} {s : Input} {left : Parsed s} {after : Shorter left.rest}
      {branch : Parsed after.1} (hduring : During scope text (levels + 1) s)
      (hrounds : Rounds scope (expression scope levels) s left)
      (hop : junctionOperator left.rest = none) (hmark : accept '?' left.rest = some after)
      (hbranch : compare scope (expression scope levels) after.1 = .ok branch) :
      ThenBranch scope text after.1 branch.rest

variable {scope : Scope} {text : List Char} {start rest : Input} {row : List Token}

/-- After any rounds, reading goes on from what has been read so far. -/
theorem Rounds.logical_eq {nested : Reader} {s : Input} {left : Parsed s}
    (h : Rounds scope nested s left) :
    logical scope nested s = logicalFrom scope nested left := by
  induction h with
  | start hleft => rw [logical, hleft]; rfl
  | junction _ hop hright hheight hshorter ih =>
      exact ih.trans (logicalFrom_junction hop hright hheight hshorter)
  | conditional _ hop hmark hthen hcolon helse hheight hshorter ih =>
      exact ih.trans (logicalFrom_question hop hmark hthen hcolon helse hheight hshorter)

theorem ThenBranch.startsSolid (h : ThenBranch scope text start rest) : StartsSolid start := by
  cases h with
  | intro _ _ _ hmark _ => exact (lone_question.reads hmark).startsSolid

/-- The name that is kept with a then branch is the last unquoted name in it. Where no colon stands
behind the branch, the whole formula is refused for that. -/
theorem ThenBranch.names (h : ThenBranch scope text start rest) :
    ∃ (branch : Parsed start) (row : List Token), branch.rest = rest ∧
      Names .operand start row .operator rest branch.lastName ∧
      (rest.head? ≠ some ':' → formula scope text = .error (missingColon branch)) := by
  obtain @⟨levels, s, left, after, branch, hduring, hrounds, hop, hmark, hbranch⟩ := h
  have hkeeps : KeepsNames (compare scope (expression scope levels)) :=
    keepsNames_compare (keepsNames_expression scope levels)
  obtain ⟨row, hrow⟩ := hkeeps after.1 branch (lone_question.reads hmark).startsSolid hbranch
  refine ⟨branch, row, rfl, hrow, fun hcolon => hduring.fails ?_⟩
  exact hrounds.logical_eq.trans
    (logicalFrom_colonError hop hmark hbranch (accept_eq_none_iff.mpr hcolon))

/-- A then branch consists of lexemes. -/
theorem ThenBranch.exists_row (h : ThenBranch scope text start rest) :
    ∃ row, Lexes .operand start row .operator rest := by
  obtain ⟨_, row, -, hrow, -⟩ := h.names
  exact ⟨row, hrow.lexes⟩

/-- Without a colon behind a then branch the whole text is refused, with the fault of the branch.
The failure goes through all expressions that are open there. -/
theorem ThenBranch.fails (h : ThenBranch scope text start rest) (hcolon : rest.head? ≠ some ':')
    (hrow : Lexes .operand start row .operator rest) :
    ∃ branch : Parsed start, branch.rest = rest ∧ LastName .operand start row branch.lastName ∧
      formula scope text = .error (missingColon branch) := by
  obtain ⟨branch, row', hrest, hrow', hfails⟩ := h.names
  obtain rfl := hrow'.lexes.row_unique h.startsSolid hrow
  exact ⟨branch, hrest, hrow'.last, hfails hcolon⟩

/-- The last unquoted name in the branch is blamed if it contains a colon. -/
theorem ThenBranch.blames (h : ThenBranch scope text start rest) (hcolon : rest.head? ≠ some ':')
    (hrow : Lexes .operand start row .operator rest) {name : String} {t : Input}
    (hlast : LastName .operand start row (some (name, t))) (hname : ':' ∈ name.toList) :
    formula scope text = .error ⟨.colonInName name, t⟩ := by
  obtain ⟨branch, -, hkept, hfails⟩ := h.fails hcolon hrow
  have hsame : branch.lastName = some (name, t) := hkept.unique h.startsSolid hlast
  have hcontains : name.contains ':' = true := by simpa using hname
  rw [hfails]
  simp only [missingColon, hsame, hcontains, if_true]

/-- If no name can be blamed, the colon itself is what was expected. -/
theorem ThenBranch.unexpected (h : ThenBranch scope text start rest)
    (hcolon : rest.head? ≠ some ':') (hrow : Lexes .operand start row .operator rest)
    (hnone : ∀ name t, LastName .operand start row (some (name, t)) → ':' ∉ name.toList) :
    formula scope text = .error (Parser.unexpected .branchColon rest) := by
  obtain ⟨branch, rfl, hkept, hfails⟩ := h.fails hcolon hrow
  rw [hfails, missingColon]
  split
  · next name t hlast =>
    rw [hlast] at hkept
    have hcontains : ¬ name.contains ':' = true := by simpa using hnone name t hkept
    rw [if_neg hcontains]
  · rfl

theorem unexpected_fault_ne (expected : Expected) (s : Input) (name : String) :
    (Parser.unexpected expected s).fault ≠ .colonInName name := by
  cases s <;> exact fun h => nomatch h

theorem unread_unexpected (expected : Expected) (s : Input) :
    (Parser.unexpected expected s).unread = s := by
  cases s <;> rfl

/-- A reader reads up to some rest. -/
theorem exists_read {reader : Reader} {s : Input}
    (h : (reader s).toOption.map Parsed.rest = some rest) :
    ∃ p, reader s = .ok p ∧ p.rest = rest := by
  cases hread : reader s with
  | error e =>
      rw [hread] at h
      cases h
  | ok p =>
      rw [hread] at h
      exact ⟨p, rfl, Option.some.inj h⟩

/-- The then branch of a conditional with which a formula starts. -/
theorem thenBranch_of_condition {first : Input}
    (hcondition : (compare scope (expression scope maxNesting) (skipBlanks text)).toOption.map
      Parsed.rest = some ('?' :: first))
    (hbranch : (compare scope (expression scope maxNesting) (skipBlanks first)).toOption.map
      Parsed.rest = some rest) : ThenBranch scope text (skipBlanks first) rest := by
  obtain ⟨left, hleft, hrest⟩ := exists_read hcondition
  obtain ⟨after, hmark, hafter⟩ := accept_of_eq_cons hrest
  rw [← hafter] at hbranch ⊢
  obtain ⟨branch, hread, rfl⟩ := exists_read hbranch
  exact .intro .whole (.start hleft) (by rw [hrest]; rfl) hmark hread

end Grammar

namespace Formula

open Grammar Text

variable {registry : Registry} {now : Timestamp} {mode : BindingMode} {offered : List Variable}
  {text : String} {store : Store}

/-- Where no colon stands behind a then branch, a name is blamed exactly if it is the last unquoted
name in the branch and contains a colon. If there is no such name, what stands in place of the colon
is unexpected. -/
theorem compile_missingColon {start rest : List Char}
    (hbranch : ThenBranch (scope registry now mode offered) text.toList start rest)
    (hcolon : rest.head? ≠ some ':') :
    (∃ row, Lexes .operand start row .operator rest) ∧
    ∀ row, Lexes .operand start row .operator rest →
      (∀ name position, compile registry now mode offered text store =
          .error ⟨.colonInName name, text, position⟩ ↔
        ∃ t, LastName .operand start row (some (name, t)) ∧ ':' ∈ name.toList ∧
          position = text.length - t.length) ∧
      ((∀ name t, LastName .operand start row (some (name, t)) → ':' ∉ name.toList) →
        compile registry now mode offered text store =
          .error ⟨(Parser.unexpected .branchColon rest).fault, text, text.length - rest.length⟩) := by
  refine ⟨hbranch.exists_row, fun row hrow => ?_⟩
  have hblamed {name : String} {t : List Char}
      (hlast : LastName .operand start row (some (name, t))) (hname : ':' ∈ name.toList) :
      compile registry now mode offered text store =
        .error ⟨.colonInName name, text, text.length - t.length⟩ := by
    rw [← String.length_toList]
    exact compile_of_failure (hbranch.blames hcolon hrow hlast hname) store
  have hunexpected
      (hnone : ∀ name t, LastName .operand start row (some (name, t)) → ':' ∉ name.toList) :
      compile registry now mode offered text store =
        .error ⟨(Parser.unexpected .branchColon rest).fault, text, text.length - rest.length⟩ := by
    have hcompile := compile_of_failure (hbranch.unexpected hcolon hrow hnone) store
    rwa [unread_unexpected, String.length_toList] at hcompile
  refine ⟨fun name position => ⟨fun herror => ?_, ?_⟩, hunexpected⟩
  · by_cases hnone : ∀ name t, LastName .operand start row (some (name, t)) → ':' ∉ name.toList
    · rw [hunexpected hnone] at herror
      exact absurd (congrArg CompileError.fault (Except.error.inj herror))
        (unexpected_fault_ne _ _ _)
    · push Not at hnone
      obtain ⟨name', t, hlast, hname⟩ := hnone
      rw [hblamed hlast hname] at herror
      obtain ⟨hfault, -, rfl⟩ := CompileError.mk.inj (Except.error.inj herror)
      obtain rfl := Fault.colonInName.inj hfault
      exact ⟨t, hlast, hname, rfl⟩
  · rintro ⟨t, hlast, hname, rfl⟩
    exact hblamed hlast hname

theorem nameText_colon : NameText "a:b".toList :=
  ⟨List.all_eq_true.mp (by decide +kernel), 'a', rfl, rfl⟩

/-- In `c ? a:b` the then branch ends with the name that has swallowed the colon. -/
theorem compile_missingColon_swallowed :
    compile .builtinsOnly ⟨0, 0⟩ .autoDetect [] "c ? a:b" .empty =
      .error ⟨.colonInName "a:b", "c ? a:b", 4⟩ := by
  have hbranch : ThenBranch (scope .builtinsOnly ⟨0, 0⟩ .autoDetect []) "c ? a:b".toList
      "a:b".toList [] :=
    @thenBranch_of_condition _ _ _ " a:b".toList (by decide +kernel) (by decide +kernel)
  have hrow : Lexes .operand "a:b".toList [.bare "a:b"] .operator [] :=
    written_bare nameText_colon [] (fun _ hc => nomatch hc)
  obtain ⟨-, hblamed⟩ := @compile_missingColon _ _ _ _ _ .empty _ _ hbranch (by simp)
  exact ((hblamed _ hrow).1 "a:b" 4).mpr
    ⟨_, ⟨[], _, _, [], rfl, .nil, rfl, by simp⟩, by decide, rfl⟩

/-- In `c ? a:b + 1` the then branch ends with a number, and the name in front of it is blamed. -/
theorem missingColon_blames_earlier_name :
    let text := "c ? a:b + 1"
    ∃ start rest row, ThenBranch (scope .builtinsOnly ⟨0, 0⟩ .autoDetect []) text.toList start rest ∧
      rest.head? ≠ some ':' ∧ Lexes .operand start row .operator rest ∧
      (∀ name, row.getLast? ≠ some (.bare name)) ∧
      compile .builtinsOnly ⟨0, 0⟩ .autoDetect [] text .empty =
        .error ⟨.colonInName "a:b", text, 4⟩ := by
  intro text
  have hbranch : ThenBranch (scope .builtinsOnly ⟨0, 0⟩ .autoDetect []) text.toList
      "a:b + 1".toList [] :=
    @thenBranch_of_condition _ _ _ " a:b + 1".toList (by decide +kernel) (by decide +kernel)
  have hone : Numeral ['1'] ⟨Decimal.ofDigits ['1'], 0⟩ :=
    @Numeral.intro ['1'] [] [] 0 ⟨by simp, by simp⟩ (.inr (by simp)) (by simp) .absent
  have hplus : Reads .operator "+ 1".toList (.operator .add) ['1'] :=
    lone_plus.reads_cons " 1".toList
  have hnumber := written_number hone [] fun _ hc => nomatch hc
  have hname : Lexes .operand "a:b + 1".toList [.bare "a:b"] .operator "+ 1".toList :=
    (written_bare nameText_colon).lexes_blank (by decide : '+' ∈ stops) (by simp) " 1".toList
  have hnamed : Names .operand "a:b + 1".toList [.bare "a:b"] .operator "+ 1".toList
      (some ("a:b", "a:b + 1".toList)) := ⟨hname, [], _, _, [], rfl, .nil, rfl, by simp⟩
  have hsum : Names .operator "+ 1".toList _ .operator [] none :=
    .cons hplus rfl ⟨hnumber, by simp [LastName, Token.unquotedName?]⟩
  have hrow := hnamed.append hsum
  refine ⟨_, [], _, hbranch, by simp, hrow.lexes, by simp, ?_⟩
  have hfails := hbranch.blames (by simp) hrow.lexes hrow.last (by decide)
  have hposition : text.toList.length - "a:b + 1".toList.length = 4 := by decide +kernel
  rw [compile_of_failure hfails .empty, hposition]

end Formula

end ProcessFormula
