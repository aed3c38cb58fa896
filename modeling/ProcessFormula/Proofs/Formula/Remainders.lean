import ProcessFormula.Proofs.Formula.Positions
import ProcessFormula.Proofs.Grammar.Acceptance
import ProcessFormula.Proofs.Grammar.Cutting
import ProcessFormula.Proofs.Grammar.Limits

/-!
Input that is left over. The parser reads on as long as the text can be part of the formula, so what
it leaves over stands behind a text that is a formula by itself. It does not read on over a closing
parenthesis that nothing opened: behind a formula everything from there on is left over.
-/

namespace ProcessFormula

namespace Grammar

open Text Lexeme ProcessFormula.Parser

variable {scope : Scope}

/-- What follows an expression is not why the expression is refused. -/
theorem expression_ne_trailingInput {s : Input} {e : Failure} (hs : StartsSolid s)
    (he : expression scope (maxNesting + 1) s = .error e) (rest : String) :
    e.fault ≠ .trailingInput rest := by
  intro hfault
  cases explained_expression maxNesting 0 (Nat.zero_add _) s e hs he with
  | own h =>
      rw [hfault] at h
      cases h
  | tall | deep => cases hfault

/-- The text in front of what is left over is a sentence. -/
theorem sentence_of_trailingInput {text : List Char} {rest : String} {unread : Input}
    (h : formula scope text = .error ⟨.trailingInput rest, unread⟩) :
    ∃ lead tree, text = lead ++ unread ∧ Sentence scope (String.ofList lead) tree := by
  have hsolid : StartsSolid (skipBlanks text) := startsSolid_skipBlanks text
  rcases bind_eq_error_iff.mp h with he | ⟨p, hp, h⟩
  · exact absurd rfl (expression_ne_trailingInput hsolid he rest)
  obtain ⟨row, hrow, hderives, hheight⟩ := sound_expression maxNesting 0 (Nat.zero_add _) _ p hsolid hp
  split at h
  · cases h
  have hunread : p.rest = unread := congrArg Failure.unread (Except.error.inj h)
  rw [hunread] at hrow
  obtain ⟨blanks, htext, -⟩ := exists_blanks text
  obtain ⟨lead, hlead⟩ := hrow.suffix
  have hwhole : text = blanks ++ lead ++ unread := by rw [List.append_assoc, ← hlead, ← htext]
  have hlexes : Lexes .operand (skipBlanks (blanks ++ lead) ++ unread) row .operator unread := by
    rw [← skipBlanks_append_of_startsSolid _ (hrow.startsSolid hsolid), ← hwhole]
    exact hrow
  refine ⟨blanks ++ lead, p.tree, hwhole, row, ?_, hderives, hheight⟩
  rw [String.toList_ofList]
  exact hlexes.cut hderives.last_ne_function

/-- A closing parenthesis behind a sentence is left over, with all that follows it. -/
theorem formula_of_closes {text : String} {tree : Expr String} {u : Input}
    (h : Sentence scope text tree) (hu : Closes u) :
    formula scope (text.toList ++ u) = .error ⟨.trailingInput (String.ofList u), u⟩ := by
  obtain ⟨row, hrow, hderives, hheight⟩ := h
  have hextended := hrow.extend hu
  rw [List.nil_append, ← skipBlanks_append_of_startsSolid _ hu.startsSolid] at hextended
  obtain ⟨more, rfl⟩ := List.head?_eq_some_iff.mp hu
  have hclosing : Reads .operator (')' :: more) .closing (skipBlanks more) :=
    reads_one (lone_closing _).spelled fun d _ => (lone_closing _).alone d
  obtain ⟨p, hp, -, hrest⟩ := hderives.complete maxNesting _ _ (Nat.zero_add _)
    (startsSolid_skipBlanks _) hextended hheight (over_of_closing hclosing)
  have hread : expression scope (maxNesting + 1) (skipBlanks (text.toList ++ ')' :: more)) =
      .ok p := hp
  simp only [formula, hread, bind, Except.bind, hrest, List.isEmpty_cons, Bool.false_eq_true,
    if_false]
  rfl

end Grammar

namespace Formula

open Grammar

/-- Where a text is refused because input is left over, the text up to the position of the error is
a formula by itself. Behind a text that is a formula, a closing parenthesis and what follows it are
left over. -/
theorem compile_trailingInput (registry : Registry) (now : Timestamp) (mode : BindingMode)
    (offered : List Variable) (text : String) (store : Store) :
    (∀ e rest, compile registry now mode offered text store = .error e →
      e.fault = .trailingInput rest →
      ∃ f store', compile registry now mode offered (String.ofList (text.toList.take e.position))
        store = .ok (f, store')) ∧
    ∀ f store', compile registry now mode offered text store = .ok (f, store') →
      ∀ more : String, compile registry now mode offered (text ++ ")" ++ more) store =
        .error ⟨.trailingInput (")" ++ more), text ++ ")" ++ more, text.length⟩ := by
  constructor
  · intro e rest he hfault
    obtain ⟨⟨fault, unread⟩, hfailure, rfl⟩ := failure_of_compile he
    obtain rfl : fault = .trailingInput rest := hfault
    obtain ⟨lead, tree, htext, hsentence⟩ := sentence_of_trailingInput hfailure
    have hposition : text.toList.take (text.toList.length - unread.length) = lead := by
      rw [htext, List.length_append, Nat.add_sub_cancel, List.take_left]
    dsimp only
    rw [hposition]
    exact ⟨_, _, compile_of_parse (parse_of_sentence hsentence) store⟩
  · intro f store' hcompile more
    obtain ⟨tree, htree, -⟩ := compile_eq_ok_iff.mp hcompile
    have hcloses : Closes (")" ++ more).toList := by rw [String.toList_append]; rfl
    have hfails := formula_of_closes (sentence_of_parse htree) hcloses
    rw [← String.toList_append, ← String.append_assoc, String.ofList_toList] at hfails
    have hposition : (text ++ ")" ++ more).toList.length - (")" ++ more).toList.length =
        text.length := by
      rw [String.append_assoc, String.toList_append, List.length_append, Nat.add_sub_cancel,
        String.length_toList]
    rw [← hposition]
    exact compile_of_failure hfails store

/-- What stands in front of a closing bracket is a formula, and a second closing parenthesis is left
over. -/
theorem compile_trailingInput_unopened :
    (∃ f store', compile .builtinsOnly ⟨0, 0⟩ .autoDetect [] "a " .empty = .ok (f, store')) ∧
    compile .builtinsOnly ⟨0, 0⟩ .autoDetect [] "(a)) + 1" .empty =
      .error ⟨.trailingInput ") + 1", "(a)) + 1", 3⟩ := by
  constructor
  · have hfails : compile .builtinsOnly ⟨0, 0⟩ .autoDetect [] "a ] b" .empty =
        .error ⟨.trailingInput "] b", "a ] b", 2⟩ := eq_error_of_map (by decide +kernel)
    obtain ⟨f, store', hlead⟩ := (compile_trailingInput _ _ _ _ _ _).1 _ _ hfails rfl
    have htext : String.ofList ("a ] b".toList.take 2) = "a " := by decide
    rw [htext] at hlead
    exact ⟨f, store', hlead⟩
  · have hcompiles : (compile .builtinsOnly ⟨0, 0⟩ .autoDetect [] "(a)" .empty).isOk = true := by
      decide +kernel
    obtain ⟨_, hcompile⟩ := exists_of_isOk hcompiles
    exact (compile_trailingInput _ _ _ _ _ _).2 _ _ hcompile " + 1"

end Formula

end ProcessFormula
