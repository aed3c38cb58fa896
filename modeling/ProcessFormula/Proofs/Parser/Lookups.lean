import Mathlib.Logic.Function.Basic
import ProcessFormula.Proofs.Grammar.Origin
import ProcessFormula.Proofs.Parser.Tracing

/-!
Which names the parser looks up among the functions. It reads a name only where the text does not
start with a blank, a digit or a point, and a name ends before the first character that is no name
character; so whatever the functions of other names are, every text is read alike.
-/

namespace ProcessFormula.Parser

open Lexeme Text Grammar

/-- The tree or the error of the text depends on the function of this name. -/
def Consults (scope : Scope) (text name : String) : Prop :=
  ∃ f : Option Callable,
    parse { scope with resolve := Function.update scope.resolve name f } text ≠ parse scope text

/-- Two readers give the same results wherever the text does not start with a blank. -/
def Alike {α : Input → Type} (reader reader' : (s : Input) → Except Failure (α s)) : Prop :=
  ∀ s, StartsSolid s → reader s = reader' s

/-- What is read alike in front of a place may be read on alike from there. -/
theorem Traced.bind_congr {scope : Scope} {s : Input} {α β : Type} {stops : α → Prop}
    {x : Except Failure α} (h : Traced scope s stops x) {f g : α → Except Failure β}
    (hmore : ∀ a, stops a → f a = g a) : x >>= f = x >>= g := by
  cases h with
  | ok h => exact hmore _ h
  | error => rfl

theorem bind_congr_right {α β : Type} (x : Except Failure α) {f g : α → Except Failure β}
    (hmore : ∀ a, f a = g a) : x >>= f = x >>= g :=
  congrArg (x >>= ·) (funext hmore)

/-! ### Loops -/

section

variable {scope scope' : Scope} {nested nested' : Reader}

theorem chainFrom_congr {operator : (s : Input) → Except Failure (Operator s)}
    {operand operand' : Reader}
    (hoperator : ∀ u, StartsSolid u → Traced scope u (OperatorStops u) (operator u))
    (hoperand : Traces scope operand) (h : Alike operand operand') {s : Input} {left : Parsed s}
    (hleft : StartsSolid left.rest) :
    chainFrom operator operand left = chainFrom operator operand' left := by
  induction left using chainFrom.induct with
  | case1 left ih =>
      rw [chainFrom, chainFrom.eq_def operator operand']
      refine (hoperator left.rest hleft).bind_congr fun found hfound => ?_
      rcases found with _ | ⟨op, rest⟩
      · rfl
      · obtain ⟨-, hrest⟩ := hfound op rest rfl
        dsimp only
        rw [← h rest.1 hrest]
        refine (hoperand rest.1 hrest).bind_congr fun right hright => ?_
        exact bind_congr_right _ fun tree => ih rest right tree hright.solid

theorem alike_chain {operator : (s : Input) → Except Failure (Operator s)}
    {operand operand' : Reader}
    (hoperator : ∀ u, StartsSolid u → Traced scope u (OperatorStops u) (operator u))
    (hoperand : Traces scope operand) (h : Alike operand operand') :
    Alike (chain operator operand) (chain operator operand') := by
  intro s hs
  rw [chain, chain, ← h s hs]
  exact (hoperand s hs).bind_congr fun left hleft =>
    chainFrom_congr hoperator hoperand h hleft.solid

theorem alike_arguments (hnested : Traces scope nested) (h : Alike nested nested') :
    Alike (arguments nested) (arguments nested') := by
  intro s hs
  induction s using arguments.induct with
  | case1 s ih =>
      rw [arguments, arguments.eq_def nested', ← h s hs]
      refine (hnested s hs).bind_congr fun first hfirst => ?_
      split
      · rfl
      · next rest hcomma => rw [ih first rest (hfirst.accept rfl hcomma).solid]

theorem logicalFrom_congr (hcompare : Traces scope (compare scope nested))
    (hnested : Traces scope nested)
    (hcompare' : Alike (compare scope nested) (compare scope' nested')) (h : Alike nested nested')
    {s : Input} {left : Parsed s} (hleft : StartsSolid left.rest) :
    logicalFrom scope nested left = logicalFrom scope' nested' left := by
  induction left using logicalFrom.induct with
  | case1 left op rest hop ih =>
      rw [logicalFrom, logicalFrom.eq_def scope' nested']
      simp only [hop]
      have hstops : OperatorStops left.rest
          ((doubled '&' .and left.rest).or (doubled '|' .or left.rest)) :=
        (operatorStops_doubled rfl .and).or (operatorStops_doubled rfl .or)
      obtain ⟨-, hrest⟩ := hstops op rest hop
      rw [← hcompare' rest.1 hrest]
      refine (hcompare rest.1 hrest).bind_congr fun right hright => ?_
      exact bind_congr_right _ fun tree => ih right tree hright.solid
  | case2 left hop hmark =>
      rw [logicalFrom, logicalFrom.eq_def scope' nested']
      simp only [hop, hmark]
  | case3 left hop rest hmark ih =>
      rw [logicalFrom, logicalFrom.eq_def scope' nested']
      simp only [hop, hmark]
      have hrest := startsSolid_accept hmark
      rw [← hcompare' rest.1 hrest]
      refine (hcompare rest.1 hrest).bind_congr fun thenBranch hthen => ?_
      split
      · rfl
      · next afterColon hcolon =>
        have hafter := startsSolid_accept hcolon
        rw [← h afterColon.1 hafter]
        refine (hnested afterColon.1 hafter).bind_congr fun elseBranch helse => ?_
        exact bind_congr_right _ fun tree => ih thenBranch afterColon elseBranch tree helse.solid

end

/-! ### Operands -/

/-- What is read as a name where no number starts is an unquoted name. -/
theorem nameText_bareName {s : Input} (hs : StartsSolid s)
    (hhead : ∀ c ∈ s.head?, startsNumber c = false) (hne : (bareName s).1 ≠ []) :
    NameText (bareName s).1 := by
  have hrun : Longest (Runs nameGoesOn) (bareName s).1 s (bareName s).2 := bareName_eq_iff.mp rfl
  exact ⟨runs_name_iff.mp hrun.isViable, head_bareName hs hhead hne⟩

section

variable {scope : Scope} {resolve : String → Option Callable} {nested nested' : Reader}
  (hresolve : ∀ name, NameText name.toList → scope.resolve name = resolve name)
include hresolve

theorem call_congr {name : String} (hname : NameText name.toList) (start unread : Input)
    (args : List (Expr String)) :
    call scope name start args unread = call { scope with resolve } name start args unread := by
  rw [call, call, hresolve name hname]

theorem named_congr (hnested : Traces scope nested) (h : Alike nested nested') {s : Input}
    (hs : StartsSolid s) (hhead : ∀ c ∈ s.head?, startsNumber c = false) :
    named scope nested s = named { scope with resolve } nested' s := by
  unfold named
  dsimp only
  split
  · rfl
  · next hne =>
    have hname : NameText (String.ofList (bareName s).1).toList := by
      rw [String.toList_ofList]
      exact nameText_bareName hs hhead hne
    split
    · rfl
    · next inner hinner =>
      split
      · rw [call_congr hresolve hname]
      · rw [← alike_arguments hnested h inner.1 (startsSolid_accept hinner)]
        refine bind_congr_right _ fun args => bind_congr_right _ fun rest => ?_
        rw [call_congr hresolve hname]

theorem alike_unsigned (hnested : Traces scope nested) (h : Alike nested nested') :
    Alike (unsigned scope nested) (unsigned { scope with resolve } nested') := by
  intro s hs
  cases s with
  | nil => rfl
  | cons c rest =>
      unfold unsigned
      dsimp only
      split
      · rfl
      · split
        · rfl
        · split
          · rfl
          · next hnumber =>
            split
            · next inner hinner =>
              rw [parenthesised, parenthesised, h inner.1 (startsSolid_accept hinner)]
            · refine named_congr hresolve hnested h hs fun d hd => ?_
              obtain rfl : c = d := by simpa using hd
              simpa using hnumber

theorem alike_primary (hnested : Traces scope nested) (h : Alike nested nested') :
    Alike (primary scope nested) (primary { scope with resolve } nested') := by
  intro s hs
  unfold primary
  split
  · rw [alike_unsigned hresolve hnested h s hs]
  · next inner hinner =>
    rw [alike_unsigned hresolve hnested h inner.1 (startsSolid_accept hinner)]

theorem alike_unary (hnested : Traces scope nested) (h : Alike nested nested') :
    Alike (unary scope nested) (unary { scope with resolve } nested') := by
  intro s hs
  unfold unary
  split
  · exact alike_primary hresolve hnested h s hs
  · next inner hinner =>
    rw [alike_primary hresolve hnested h inner.1 (startsSolid_accept hinner)]

theorem alike_compare (hnested : Traces scope nested) (h : Alike nested nested') :
    Alike (compare scope nested) (compare { scope with resolve } nested') := by
  have hunary := traces_unary hnested
  have hproduct := traces_chain (fun _ _ => traced_productOperator) hunary
  have hsum := traces_chain (fun _ _ => traced_sumOperator) hproduct
  exact alike_chain (fun _ => traced_compareOperator) hsum
    (alike_chain (fun _ _ => traced_sumOperator) hproduct
      (alike_chain (fun _ _ => traced_productOperator) hunary (alike_unary hresolve hnested h)))

/-! ### Formulas -/

/-- An expression is read alike with two resolvers that agree on the names that are consulted. -/
theorem alike_expression (levels : Nat) :
    Alike (expression scope levels) (expression { scope with resolve } levels) := by
  induction levels with
  | zero => exact fun _ _ => rfl
  | succ levels ih =>
      intro s hs
      have hnested := traces_expression scope levels
      have hcompare := traces_compare hnested
      have halike := alike_compare hresolve hnested ih
      rw [expression, expression, logical, logical, ← halike s hs]
      exact (hcompare s hs).bind_congr fun left hleft =>
        logicalFrom_congr hcompare hnested halike ih hleft.solid

/-- Scopes with the same functions under all unquoted names read every text alike. -/
theorem parse_congr (text : String) : parse scope text = parse { scope with resolve } text := by
  have hexpression := alike_expression hresolve (maxNesting + 1) (skipBlanks text.toList)
    (startsSolid_skipBlanks _)
  rw [parse, parse, formula, formula, hexpression]

end

/-- Only what can be an unquoted name is ever looked up. -/
theorem Consults.nameText {scope : Scope} {text name : String} (h : Consults scope text name) :
    NameText name.toList := by
  obtain ⟨f, hne⟩ := h
  by_contra hname
  refine hne (parse_congr (fun other hother => ?_) text).symm
  have hdistinct : other ≠ name := by
    rintro rfl
    exact hname hother
  rw [Function.update_of_ne hdistinct]

end ProcessFormula.Parser
