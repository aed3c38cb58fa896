import ProcessFormula.Proofs.Formula.Positions
import ProcessFormula.Proofs.Parser.Blanks

/-!
Blanks outside of literals mean nothing. Text without them compiles to the same formula, or is
refused for the same reason, at the place where the blamed characters stand once the blanks are gone.
-/

namespace ProcessFormula

open Grammar

/-- The error for a text without the blanks. Its position counts only what is kept of the text in
front of the place at which the text is refused. -/
def CompileError.squeezed (e : CompileError) : CompileError where
  fault := e.fault.squeezed
  formula := String.ofList (squeeze e.formula.toList)
  position := (squeeze (e.formula.toList.take e.position)).length

namespace Parser

variable {scope : Scope} {e : Failure}

/-- The place of a refusal parts the text where it parts the text without blanks. -/
theorem exists_lead_of_formula {text : List Char} (h : formula scope text = .error e) :
    ∃ lead, text = lead ++ e.unread ∧ squeeze text = squeeze lead ++ squeeze e.unread := by
  rcases clear_formula h with hend | hclear
  · exact ⟨text, by rw [hend, List.append_nil], by rw [hend, squeeze_nil, List.append_nil]⟩
  · exact hclear.squeeze

/-- A text and what is left of it without blanks are the same formula or have the same fault. -/
theorem parse_squeeze (scope : Scope) (text : String) :
    parse scope (String.ofList (squeeze text.toList)) =
      (parse scope text).mapError CompileError.squeezed := by
  have hmirrored := mirrored_formula scope text.toList
  rw [parse, parse, String.toList_ofList]
  cases hrun : formula scope text.toList with
  | ok tree =>
      rw [hrun] at hmirrored
      generalize formula scope (squeeze text.toList) = run' at hmirrored ⊢
      cases hmirrored with
      | ok h => exact congrArg Except.ok h.symm
  | error e =>
      obtain ⟨lead, htext, hsqueezed⟩ := exists_lead_of_formula hrun
      rw [hrun] at hmirrored
      generalize formula scope (squeeze text.toList) = run' at hmirrored ⊢
      cases hmirrored with
      | error =>
          have hposition : text.toList.take (text.toList.length - e.unread.length) = lead := by
            rw [htext, List.length_append, Nat.add_sub_cancel, List.take_left]
          have hkept : (squeeze text.toList).length - e.squeezed.unread.length =
              (squeeze lead).length := by
            rw [hsqueezed, List.length_append]
            exact Nat.add_sub_cancel ..
          dsimp only [Except.mapError, CompileError.squeezed]
          rw [hposition, hkept]
          rfl

end Parser

namespace Formula

/-- A text compiles exactly if it does without the blanks outside of its literals, and the two
formulas differ in their texts alone. If it is refused, so is the other text, for the same reason
and at the corresponding place. -/
theorem compile_squeeze (registry : Registry) (now : Timestamp) (mode : BindingMode)
    (offered : List Variable) (text : String) (store : Store) :
    compile registry now mode offered (String.ofList (squeeze text.toList)) store =
      match compile registry now mode offered text store with
      | .ok (f, store') => .ok ({ f with source := String.ofList (squeeze text.toList) }, store')
      | .error e => .error e.squeezed := by
  rw [compile_eq_map, compile_eq_map, Parser.parse_squeeze]
  cases Parser.parse (scope registry now mode offered) text with
  | ok tree => rfl
  | error e => rfl

end Formula

end ProcessFormula
