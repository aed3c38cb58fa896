import ProcessFormula.Proofs.Grammar.Marks

/-!
Operands: the parser takes from each lexeme that an operand starts with what the lexeme reads, and
tells by the first character how to read on.
-/

namespace ProcessFormula.Grammar

open Text Lexeme ProcessFormula.Parser

/-- The parser reads an operand without a sign off the start of a text. -/
def FindsOperand (scope : Scope) (nested : Reader) (s : Input) (operand : Unsigned)
    (rest : Input) : Prop :=
  ∃ o : Operand s, unsigned scope nested s = .ok o ∧ o.operand = operand ∧ o.rest = rest

/-- A lexeme of one kind does not start with a character that tells of another. -/
theorem Reads.head_ne {position : Position} {s rest : List Char} {token : Token}
    (h : Reads position s token rest) (hs : StartsSolid s) {c : Char}
    (hc : kindAt position c ≠ token.kind) : s.head? ≠ some c := by
  obtain ⟨d, more, rfl, hd⟩ := h.kind hs
  rintro ⟨rfl⟩
  exact hc hd

section

variable {scope : Scope} {nested : Reader} {s rest : List Char}

/-- A number at the start of a text is read as an operand. -/
theorem finds_number {x : Float} (hs : StartsSolid s) (h : Reads .operand s (.number x) rest) :
    FindsOperand scope nested s (.number x) rest := by
  obtain ⟨c, more, rfl, hkind⟩ := h.kind hs
  cases h with
  | @number chars _ _ d hrun hhead hvalue =>
      have hstart : startsNumber c = true := by
        obtain ⟨c', chars, rfl⟩ := List.exists_cons_of_ne_nil
          (show chars ≠ [] by rintro rfl; cases literal?_of_literal hvalue)
        obtain rfl := Option.some.inj (hrun.head hs)
        exact hhead _ rfl
      have hquote : ¬ (c = '\x27' ∨ c = '\x60') := by
        rintro (rfl | rfl) <;> cases hstart
      have htext : c ≠ '\x22' := by
        rintro rfl
        cases hstart
      have hread : (numberRun false (c :: more)) = (chars, rest) := numberRun_eq_iff.mpr hrun
      have hliteral : Decimal.literal? (numberRun false (c :: more)).1 = some d := by
        rw [hread]
        exact literal?_of_literal hvalue
      refine ⟨⟨.number (d.toFloat false), none, _, length_numberRun_lt c more hstart⟩, ?_, rfl, ?_⟩
      · simp only [unsigned, hquote, htext, hstart, if_false, dif_pos, number]
        split
        · next d' hd' =>
          obtain rfl := Option.some.inj (hliteral.symm.trans hd')
          rfl
        · next hnone => rw [hliteral] at hnone; cases hnone
      · exact congrArg Prod.snd hread
  | mark hspelling _ => cases kind_eq_mark hspelling

theorem finds_text {content : String} (h : Reads .operand s (.text content) rest) :
    FindsOperand scope nested s (.string content) rest := by
  cases h with
  | @text body blanks _ hbody hblanks hrest =>
      have hread := stringBody_eq_some_iff.mpr ⟨body, blanks, rfl, hbody, hblanks, hrest, rfl⟩
      have hquote : ¬ (('\x22' : Char) = '\x27' ∨ ('\x22' : Char) = '\x60') := by decide
      simp only [FindsOperand, unsigned, hquote, if_false, if_true, string]
      split
      · next r hr =>
        obtain rfl := Option.some.inj (hread.symm.trans hr)
        exact ⟨_, rfl, rfl, rfl⟩
      · next hnone => rw [hread] at hnone; cases hnone
  | mark hspelling _ => cases kind_eq_mark hspelling

/-- A name in quotes may be any variable that is known. -/
theorem unsigned_quoted {name : String} (h : Reads .operand s (.quoted name) rest) :
    ∃ lastName shorter, unsigned scope nested s = variableNamed scope name s >>= fun tree =>
      .ok ⟨.compound tree, lastName, rest, shorter⟩ := by
  cases h with
  | @quoted quote name blanks _ hquote hname hblanks hrest =>
      have hread := upTo_eq_some_iff.mpr ⟨blanks, rfl, hname, hblanks, hrest⟩
      simp only [unsigned, hquote, if_true, quotedName]
      split
      · next r hr =>
        obtain rfl := Option.some.inj (hread.symm.trans hr)
        exact ⟨none, Nat.lt_succ_of_lt (length_upTo_lt quote _ _ hread), rfl⟩
      · next hnone => rw [hread] at hnone; cases hnone
  | mark hspelling _ => cases kind_eq_mark hspelling

/-- A text that starts with a name is handed to the reader of names. -/
theorem unsigned_eq_named {token : Token} (hs : StartsSolid s) (h : Reads .operand s token rest)
    (hkind : token.kind = .name) : unsigned scope nested s = named scope nested s := by
  have hopen : accept '(' s = none := by
    rw [accept_eq_none_iff]
    exact h.head_ne hs (by rw [hkind]; decide)
  obtain ⟨c, more, rfl, hc⟩ := h.kind hs
  rw [hkind] at hc
  have hquote : ¬ (c = '\x27' ∨ c = '\x60') := by
    intro hquote
    simp [kindAt, hquote] at hc
  have htext : c ≠ '\x22' := by
    rintro rfl
    cases hc
  have hnumber : startsNumber c = false := by
    rw [← Bool.not_eq_true]
    intro hnumber
    simp [kindAt, hquote, htext, hnumber] at hc
  simp [unsigned, hquote, htext, hnumber, hopen]

/-- The characters of a name are not none. -/
theorem ne_nil_of_head {chars : List Char} {p : Char → Prop} (h : ∃ c ∈ chars.head?, p c) :
    chars ≠ [] := by
  rintro rfl
  obtain ⟨c, hc, -⟩ := h
  cases hc

theorem unsigned_bare {name : String} (hs : StartsSolid s)
    (h : Reads .operand s (.bare name) rest) :
    ∃ lastName shorter, unsigned scope nested s = variableNamed scope name s >>= fun tree =>
      .ok ⟨.compound tree, lastName, rest, shorter⟩ := by
  rw [unsigned_eq_named hs h rfl]
  cases h with
  | @bare chars _ _ hrun hhead hrest =>
      obtain ⟨rfl, rfl⟩ := Prod.mk.inj (bareName_eq_iff.mpr hrun).symm
      have hne : (bareName s).1 ≠ [] := ne_nil_of_head hhead
      simp only [named, dif_neg hne, accept_eq_none_iff.mpr hrest]
      exact ⟨some (String.ofList (bareName s).1, s), length_bareName_lt s hne, rfl⟩
  | mark hspelling _ => cases kind_eq_mark hspelling

/-- A lexeme that names a variable is read as that variable, if the name is known. -/
theorem unsigned_variable {token : Token} {name : String} (hs : StartsSolid s)
    (h : Reads .operand s token rest) (hname : token.variableName? = some name) :
    ∃ lastName shorter, unsigned scope nested s = variableNamed scope name s >>= fun tree =>
      .ok ⟨.compound tree, lastName, rest, shorter⟩ := by
  cases token with
  | quoted =>
      obtain rfl := Option.some.inj hname
      exact unsigned_quoted h
  | bare =>
      obtain rfl := Option.some.inj hname
      exact unsigned_bare hs h
  | number | text | function | operator | not | question | colon | comma | opening | closing =>
      cases hname

/-- A variable that is known is read as an operand, whether its name is quoted or not. -/
theorem finds_variable {token : Token} {name : String} (hs : StartsSolid s)
    (h : Reads .operand s token rest) (hname : token.variableName? = some name)
    (hknown : scope.knows name = true) :
    FindsOperand scope nested s (.compound (.var name)) rest := by
  obtain ⟨lastName, shorter, hread⟩ := @unsigned_variable scope nested _ _ _ _ hs h hname
  exact ⟨_, hread.trans (by rw [variableNamed_eq_ok_iff.mpr ⟨hknown, rfl⟩]; rfl), rfl, rfl⟩

/-- A name in front of an opening parenthesis is that of a function. -/
theorem function_eq {name : String} {t : List Char} (h : Reads .operand s (.function name) t)
    (hopening : Reads .operator t .opening rest) :
    (bareName s).1 ≠ [] ∧ ∃ inner : Shorter (bareName s).2, inner.1 = rest ∧
      String.ofList (bareName s).1 = name ∧ accept '(' (bareName s).2 = some inner := by
  have ht := h.startsSolid
  cases h with
  | @function chars _ _ hrun hhead _ =>
      obtain ⟨rfl, rfl⟩ := Prod.mk.inj (bareName_eq_iff.mpr hrun).symm
      obtain ⟨inner, hinner, hrest⟩ := (lone_opening _).accept ht hopening
      exact ⟨ne_nil_of_head hhead, inner, hrest, rfl, hinner⟩
  | mark hspelling _ => cases kind_eq_mark hspelling

end

end ProcessFormula.Grammar
