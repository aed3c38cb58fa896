import ProcessFormula.Proofs.Grammar.Cutting
import ProcessFormula.Proofs.Grammar.Soundness

/-!
The name that the parser remembers. With everything it reads it keeps one unquoted name, which each
part that is read later may replace. At the end of a reader it is the last unquoted name among the
lexemes that were read, wherever in them that name stands.
-/

namespace ProcessFormula.Grammar

open Text Lexeme ProcessFormula.Parser

def Token.unquotedName? : Token → Option String
  | .bare name | .function name => some name
  | _ => none

/-- The last unquoted name in a row of lexemes read from `s`, with the text from that name on, or
none if there is no such name in the row. -/
def LastName (position : Position) (s : Input) (row : List Token) :
    Option (String × Input) → Prop
  | none => ∀ token ∈ row, token.unquotedName? = none
  | some (name, t) => ∃ before middle token after, row = before ++ token :: after ∧
      Lexes position s before middle t ∧ token.unquotedName? = some name ∧
      ∀ later ∈ after, later.unquotedName? = none

/-- Lexemes from `s` up to `rest`, the last unquoted name in them being `lastName`. -/
structure Names (position : Position) (s : Input) (row : List Token) (final : Position)
    (rest : Input) (lastName : Option (String × Input)) : Prop where
  lexes : Lexes position s row final rest
  last : LastName position s row lastName

section

variable {position middle final : Position} {s u rest : Input} {row row' : List Token}
  {token : Token} {name : String} {lastName lastName' : Option (String × Input)}

/-- The later of two names counts. -/
theorem LastName.append (h : LastName position s row lastName)
    (hlexes : Lexes position s row middle u) (h' : LastName middle u row' lastName') :
    LastName position s (row ++ row') (lastName'.or lastName) := by
  rcases lastName' with _ | ⟨name', t'⟩
  · rcases lastName with _ | ⟨name, t⟩
    · exact List.forall_mem_append.mpr ⟨h, h'⟩
    · obtain ⟨before, between, token, after, rfl, hbefore, hname, hafter⟩ := h
      refine ⟨before, between, token, after ++ row', ?_, hbefore, hname,
        List.forall_mem_append.mpr ⟨hafter, h'⟩⟩
      rw [List.append_assoc, List.cons_append]
  · obtain ⟨before, between, token, after, rfl, hbefore, hname, hafter⟩ := h'
    exact ⟨row ++ before, between, token, after, (List.append_assoc ..).symm,
      hlexes.append hbefore, hname, hafter⟩

/-- A row of lexemes ends at one place in a text. -/
theorem Lexes.rest_unique {final' : Position} {rest' : Input} (hs : StartsSolid s)
    (h : Lexes position s row final rest) (h' : Lexes position s row final' rest') :
    rest = rest' := by
  induction h with
  | nil =>
      cases h'
      rfl
  | cons hfirst _ ih =>
      cases h' with
      | cons hfirst' hmore' =>
          obtain ⟨-, rfl⟩ := hfirst.unique hs hfirst'
          exact ih hfirst.startsSolid hmore'

/-- A row of lexemes is the only one between two places in a text. -/
theorem Lexes.row_unique {final' : Position} (hs : StartsSolid s)
    (h : Lexes position s row final rest) (h' : Lexes position s row' final' rest) : row = row' := by
  induction h generalizing row' with
  | nil => exact h'.eq_nil.symm
  | cons hfirst hmore ih =>
      cases h' with
      | nil => exact absurd hfirst.length_lt (Nat.not_lt.mpr hmore.length_le)
      | cons hfirst' hmore' =>
          obtain ⟨rfl, rfl⟩ := hfirst.unique hs hfirst'
          rw [ih hfirst.startsSolid hmore']

/-- There is one last unquoted name. -/
theorem LastName.unique (hs : StartsSolid s) (h : LastName position s row lastName)
    (h' : LastName position s row lastName') : lastName = lastName' := by
  have hsome {row : List Token} {token : Token} (htoken : token ∈ row) {name : String}
      (hname : token.unquotedName? = some name) : ¬ ∀ later ∈ row, later.unquotedName? = none :=
    fun hnone => nomatch hname.symm.trans (hnone token htoken)
  rcases lastName with _ | ⟨name, t⟩ <;> rcases lastName' with _ | ⟨name', t'⟩
  · rfl
  · obtain ⟨before, middle, token, after, rfl, -, hname, -⟩ := h'
    exact absurd h (hsome (by simp) hname)
  · obtain ⟨before, middle, token, after, rfl, -, hname, -⟩ := h
    exact absurd h' (hsome (by simp) hname)
  · obtain ⟨before, middle, token, after, rfl, hbefore, hname, hafter⟩ := h
    obtain ⟨before', middle', token', after', hrow, hbefore', hname', hafter'⟩ := h'
    -- Of two names at different places, one would stand behind the other.
    rcases List.append_eq_append_iff.mp hrow with ⟨between, rfl, hbehind⟩ | ⟨between, rfl, hbehind⟩
    · cases between with
      | nil =>
          obtain ⟨rfl, -⟩ := List.cons.inj hbehind
          rw [List.append_nil] at hbefore'
          rw [hbefore.rest_unique hs hbefore', Option.some.inj (hname.symm.trans hname')]
      | cons _ between =>
          obtain ⟨-, rfl⟩ := List.cons.inj hbehind
          exact absurd hafter (hsome (by simp) hname')
    · cases between with
      | nil =>
          obtain ⟨rfl, -⟩ := List.cons.inj hbehind
          rw [List.append_nil] at hbefore
          rw [hbefore.rest_unique hs hbefore', Option.some.inj (hname.symm.trans hname')]
      | cons _ between =>
          obtain ⟨-, rfl⟩ := List.cons.inj hbehind
          exact absurd hafter' (hsome (by simp) hname)

theorem Names.append (h : Names position s row middle u lastName)
    (h' : Names middle u row' final rest lastName') :
    Names position s (row ++ row') final rest (lastName'.or lastName) :=
  ⟨h.lexes.append h'.lexes, h.last.append h.lexes h'.last⟩

/-- A lexeme that is no unquoted name. -/
theorem Names.other (h : Reads position s token rest) (hname : token.unquotedName? = none) :
    Names position s [token] token.next rest none :=
  ⟨.cons h .nil, by simpa [LastName] using hname⟩

/-- An unquoted name. -/
theorem Names.unquoted (h : Reads position s token rest) (hname : token.unquotedName? = some name) :
    Names position s [token] token.next rest (some (name, s)) :=
  ⟨.cons h .nil, [], position, token, [], rfl, .nil, hname, by simp⟩

/-- What follows a lexeme that is no unquoted name. -/
theorem Names.cons (h : Reads position s token u) (hname : token.unquotedName? = none)
    (hmore : Names token.next u row final rest lastName) :
    Names position s (token :: row) final rest lastName := by
  have hrow := (Names.other h hname).append hmore
  rwa [Option.or_none] at hrow

end

/-- The name that the reader keeps is the last unquoted name in what it read. -/
def KeepsNames (reader : Reader) : Prop :=
  ∀ (s : Input) (p : Parsed s), StartsSolid s → reader s = .ok p →
    ∃ row, Names .operand s row .operator p.rest p.lastName

/-- The name that is kept with an operand is the last unquoted name in it. -/
def OperandNames {s : Input} (o : Operand s) : Prop :=
  ∃ row, Names .operand s row .operator o.rest o.lastName

/-- The right operand of a chain comes later. -/
theorem keepsNames_chain {strength : Strength} {operand : Reader} (hoperand : KeepsNames operand) :
    KeepsNames (Parser.chain (operatorOf strength) operand) := by
  intro s p hs hp
  obtain ⟨left, hleft, hp⟩ := bind_eq_ok.mp hp
  refine (chainFrom_invariant
    (fun p => ∃ row, Names .operand s row .operator p.rest p.lastName) ?_ hp
    (hoperand s left hs hleft)).1
  rintro left op rest right next ⟨row, hrow⟩ hop hright _ _ hrest hlast
  obtain ⟨hreads, -⟩ := reads_of_operatorOf hop
  obtain ⟨row', hrow'⟩ := hoperand rest.1 right hreads.startsSolid hright
  rw [hrest, hlast]
  exact ⟨_, hrow.append (.cons hreads rfl hrow')⟩

section

variable {scope : Scope} {nested : Reader} (hnested : KeepsNames nested)
include hnested

theorem operandNames_parenthesised {s : Input} {inner : Shorter s}
    (hinner : accept '(' s = some inner) {o : Operand s}
    (ho : parenthesised nested s inner = .ok o) : OperandNames o := by
  obtain ⟨p, hp, ho⟩ := bind_eq_ok.mp ho
  obtain ⟨rest, hrest, ho⟩ := bind_eq_ok.mp ho
  obtain rfl := Except.ok.inj ho
  have hopen : Reads .operand s .opening inner.1 := (lone_opening _).reads hinner
  obtain ⟨row, hrow⟩ := hnested inner.1 p hopen.startsSolid hp
  have hclosing := Names.other (sound_closeParenthesis hrest) rfl
  exact ⟨_, .cons hopen rfl (hrow.append hclosing)⟩

/-- The last name of the last argument counts that has one. -/
theorem names_arguments {s : Input} (hs : StartsSolid s) {a : Arguments s}
    (ha : arguments nested s = .ok a) :
    ∃ row, Names .operand s row .operator a.rest a.lastName := by
  revert hs
  refine arguments_induction (fun s a => StartsSolid s →
    ∃ row, Names .operand s row .operator a.rest a.lastName) ?_ ?_ ha
  · intro s first a hfirst _ _ hrest hlast hs
    rw [hrest, hlast]
    exact hnested s first hs hfirst
  · intro s first rest more a hfirst hcomma hmore _ hrest hlast hs
    obtain ⟨row, hrow⟩ := hnested s first hs hfirst
    have hreads : Reads .operator first.rest .comma rest.1 := lone_comma.reads hcomma
    obtain ⟨row', hrow'⟩ := hmore hreads.startsSolid
    rw [hrest, hlast]
    exact ⟨_, hrow.append (.cons hreads rfl hrow')⟩

/-- The name of a function is the last one only if no argument has one. -/
theorem operandNames_named {s : Input} (hs : StartsSolid s)
    (hhead : ∀ c ∈ s.head?, startsNumber c = false) {o : Operand s}
    (ho : named scope nested s = .ok o) : OperandNames o := by
  cases readsNamed_of_named hs hhead ho with
  | bare hname _ _ hlast =>
      rw [OperandNames, hlast]
      exact ⟨_, .unquoted hname rfl⟩
  | emptyCall hname hopen hclose _ _ _ _ hlast =>
      rw [OperandNames, hlast]
      exact ⟨_, (Names.unquoted hname rfl).append (.cons hopen rfl (.other hclose rfl))⟩
  | call hname hopen hargs hclose _ _ _ _ hlast =>
      obtain ⟨row, hrow⟩ := names_arguments hnested hopen.startsSolid hargs
      have hparentheses := Names.cons hopen rfl (hrow.append (.other hclose rfl))
      rw [Option.none_or] at hparentheses
      rw [OperandNames, hlast]
      exact ⟨_, (Names.unquoted hname rfl).append hparentheses⟩

theorem operandNames_unsigned {s : Input} (hs : StartsSolid s) {o : Operand s}
    (ho : unsigned scope nested s = .ok o) : OperandNames o := by
  unfold unsigned at ho
  split at ho
  · cases ho
  · next c rest =>
    split at ho
    · next hquote =>
      obtain ⟨name, hreads, -, -, hlast⟩ := reads_of_quotedName hquote ho
      rw [OperandNames, hlast]
      exact ⟨_, .other hreads rfl⟩
    · split at ho
      · next htext =>
        subst htext
        obtain ⟨text, hreads, -, hlast⟩ := reads_of_string ho
        rw [OperandNames, hlast]
        exact ⟨_, .other hreads rfl⟩
      · split at ho
        · next hnumber =>
          obtain ⟨x, hreads, -, hlast⟩ := reads_of_number hnumber ho
          rw [OperandNames, hlast]
          exact ⟨_, .other hreads rfl⟩
        · next hnumber =>
          split at ho
          · next inner hinner => exact operandNames_parenthesised hnested hinner ho
          · exact operandNames_named hnested hs (by simpa using hnumber) ho

theorem keepsNames_primary : KeepsNames (primary scope nested) := by
  intro s p hs hp
  unfold primary at hp
  split at hp
  · obtain ⟨o, ho, hp⟩ := bind_eq_ok.mp hp
    obtain rfl := Except.ok.inj hp
    exact operandNames_unsigned hnested hs ho
  · next inner hminus =>
    have hreads : Reads .operand s (.operator .sub) inner.1 := (lone_minus _).reads hminus
    obtain ⟨o, ho, hp⟩ := bind_eq_ok.mp hp
    obtain ⟨tree, -, hp⟩ := bind_eq_ok.mp hp
    obtain rfl := Except.ok.inj hp
    obtain ⟨row, hrow⟩ := operandNames_unsigned hnested hreads.startsSolid ho
    exact ⟨_, .cons hreads rfl hrow⟩

theorem keepsNames_unary : KeepsNames (Parser.unary scope nested) := by
  intro s p hs hp
  unfold Parser.unary at hp
  split at hp
  · exact keepsNames_primary hnested s p hs hp
  · next inner hmark =>
    have hreads : Reads .operand s .not inner.1 := lone_not.reads hmark
    obtain ⟨operand, ho, hp⟩ := bind_eq_ok.mp hp
    obtain ⟨tree, -, hp⟩ := bind_eq_ok.mp hp
    obtain rfl := Except.ok.inj hp
    obtain ⟨row, hrow⟩ := keepsNames_primary hnested inner.1 operand hreads.startsSolid ho
    exact ⟨_, .cons hreads rfl hrow⟩

theorem keepsNames_compare : KeepsNames (Parser.compare scope nested) := by
  have hproduct : KeepsNames (product scope nested) :=
    @keepsNames_chain .product _ (keepsNames_unary hnested)
  have hsum : KeepsNames (Parser.sum scope nested) := @keepsNames_chain .sum _ hproduct
  exact @keepsNames_chain .comparison _ hsum

/-- In a conditional the else branch comes last. -/
theorem keepsNames_logical : KeepsNames (logical scope nested) := by
  intro s p hs hp
  obtain ⟨left, hleft, hp⟩ := bind_eq_ok.mp hp
  refine (logicalFrom_invariant
    (fun p => ∃ row, Names .operand s row .operator p.rest p.lastName) ?_ ?_ hp
    (keepsNames_compare hnested s left hs hleft)).1
  · rintro left op rest right next ⟨row, hrow⟩ hop hright _ _ hrest hlast
    obtain ⟨hreads, -⟩ := reads_junction hop
    obtain ⟨row', hrow'⟩ := keepsNames_compare hnested rest.1 right hreads.startsSolid hright
    rw [hrest, hlast]
    exact ⟨_, hrow.append (.cons hreads rfl hrow')⟩
  · rintro left rest thenBranch afterColon elseBranch next ⟨row, hrow⟩ hmark hthen hcolon helse _ _
      hrest hlast
    have hquestion : Reads .operator left.rest .question rest.1 := lone_question.reads hmark
    have hreads : Reads .operator thenBranch.rest .colon afterColon.1 := lone_colon.reads hcolon
    obtain ⟨second, hsecond⟩ :=
      keepsNames_compare hnested rest.1 thenBranch hquestion.startsSolid hthen
    obtain ⟨third, hthird⟩ := hnested afterColon.1 elseBranch hreads.startsSolid helse
    rw [hrest, hlast]
    exact ⟨_, hrow.append (.cons hquestion rfl (hsecond.append (.cons hreads rfl hthird)))⟩

end

/-- Every expression keeps the last unquoted name in it, by induction on the levels. -/
theorem keepsNames_expression (scope : Scope) (levels : Nat) :
    KeepsNames (expression scope levels) := by
  induction levels with
  | zero => exact fun _ _ _ hp => nomatch hp
  | succ levels ih => exact keepsNames_logical ih

end ProcessFormula.Grammar
