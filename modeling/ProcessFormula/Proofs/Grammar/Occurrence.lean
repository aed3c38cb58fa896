import ProcessFormula.Proofs.Grammar.Refusal

/-!
Where the variables of a text stand. Lexemes follow one another to the right, so the lexeme at which
a text is refused is the first that has its name.
-/

namespace ProcessFormula.Grammar

open Text Lexeme ProcessFormula.Parser

/-- A lexeme that names the variable starts at this position of the text, counted in characters. -/
def OccursAt (text name : String) (position : Nat) : Prop :=
  ∃ lead t before token rest, text.toList = lead ++ t ∧ lead.length = position ∧
    Lexes .operand (skipBlanks text.toList) before .operand t ∧ Reads .operand t token rest ∧
    token.variableName? = some name

/-- The leftmost lexeme that names the variable starts at this position. -/
def FirstOccursAt (text name : String) (position : Nat) : Prop :=
  OccursAt text name position ∧ ∀ other, OccursAt text name other → position ≤ other

theorem Reads.suffix {position : Position} {s rest : List Char} {token : Token}
    (h : Reads position s token rest) : ∃ lead, s = lead ++ rest := by
  cases h with
  | number hrun | bare hrun | function hrun | mark _ hrun =>
      obtain ⟨run, hs, -⟩ := hrun.run
      exact ⟨run, hs⟩
  | @text body blanks => exact ⟨'\x22' :: (body ++ '\x22' :: blanks), by simp⟩
  | @quoted quote name blanks => exact ⟨quote :: (name ++ quote :: blanks), by simp⟩

/-- Lexemes are read from left to right. -/
theorem Lexes.suffix {position final : Position} {s rest : List Char} {tokens : List Token}
    (h : Lexes position s tokens final rest) : ∃ lead, s = lead ++ rest := by
  induction h with
  | nil => exact ⟨[], rfl⟩
  | cons hfirst _ ih =>
      obtain ⟨lead, rfl⟩ := hfirst.suffix
      obtain ⟨lead', rfl⟩ := ih
      exact ⟨lead ++ lead', by simp⟩

/-- A place between lexemes is a place of the text. -/
theorem exists_lead {text : String} {before : List Token} {position : Position} {t : List Char}
    (h : Lexes .operand (skipBlanks text.toList) before position t) :
    ∃ lead, text.toList = lead ++ t := by
  obtain ⟨blanks, hblanks, -⟩ := exists_blanks text.toList
  obtain ⟨lead, hlead⟩ := h.suffix
  exact ⟨blanks ++ lead, by rw [List.append_assoc, ← hlead, ← hblanks]⟩

/-- Where no lexeme in front of a lexeme has its name, it is the first of that name. -/
theorem firstOccursAt {text name : String} {lead t rest : List Char} {before : List Token}
    {token : Token} (htext : text.toList = lead ++ t)
    (hbefore : Lexes .operand (skipBlanks text.toList) before .operand t)
    (htoken : Reads .operand t token rest) (hname : token.variableName? = some name)
    (hfirst : name ∉ variableNames before) : FirstOccursAt text name lead.length := by
  refine ⟨⟨lead, t, before, token, rest, htext, rfl, hbefore, htoken, hname⟩, ?_⟩
  rintro _ ⟨lead', t', before', token', rest', htext', rfl, hbefore', htoken', hname'⟩
  have hsolid : StartsSolid (skipBlanks text.toList) := startsSolid_skipBlanks _
  have hlength : lead.length + t.length = lead'.length + t'.length := by
    rw [← List.length_append, ← List.length_append, ← htext, ← htext']
  rcases hbefore.prefix_or hbefore' hsolid with ⟨more, rfl, hmore⟩ | ⟨more, rfl, hmore⟩
  · obtain ⟨between, rfl⟩ := hmore.suffix
    rw [List.length_append] at hlength
    omega
  · -- The other lexeme would stand in front, but no lexeme there has the name.
    cases hmore with
    | nil => omega
    | cons hother _ =>
        obtain ⟨rfl, -⟩ := hother.unique (hbefore'.startsSolid hsolid) htoken'
        exact absurd (by simp [variableNames, hname']) hfirst

/-- A refused text is refused at the first occurrence of its first unknown name. -/
theorem Refused.firstOccursAt {scope : Scope} {text : String} {tokens : List Token}
    {failure : Failure} (h : Refused scope (skipBlanks text.toList) tokens failure) :
    ∃ name, failure.fault = .unknownVariable name ∧
      FirstOccursAt text name (text.toList.length - failure.unread.length) ∧
      ((variableNames tokens).find? fun n => !scope.knows n) = some name := by
  cases h with
  | @name before after token t rest name hbefore htoken hname hknown hunknown =>
      obtain ⟨lead, hlead⟩ := exists_lead hbefore
      have hposition : text.toList.length - t.length = lead.length := by
        rw [hlead, List.length_append]
        omega
      refine ⟨name, rfl, ?_, ?_⟩
      · dsimp only
        rw [hposition]
        refine Grammar.firstOccursAt hlead hbefore htoken hname fun hmem => ?_
        rw [hknown name hmem] at hunknown
        cases hunknown
      · have hnone : ((variableNames before).find? fun n => !scope.knows n) = none := by
          rw [List.find?_eq_none]
          intro n hn
          simp [hknown n hn]
        have hnames : variableNames (token :: after) = name :: variableNames after := by
          simp [variableNames, hname]
        rw [variableNames_append, List.find?_append, hnone, hnames]
        simp [hunknown]

end ProcessFormula.Grammar
