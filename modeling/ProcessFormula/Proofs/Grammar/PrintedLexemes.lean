import ProcessFormula.Proofs.Grammar.Marks
import ProcessFormula.Proofs.Grammar.Origin
import ProcessFormula.Proofs.Number.Roundtrip

/-!
Printed numbers, names, texts, marks and operators are read back as single lexemes. A lexeme ends
where something follows that may stand behind an operand; only a bare name takes in a colon behind
it.
-/

namespace ProcessFormula

namespace Grammar

open Text Lexeme ProcessFormula.Parser

def stops : List Char :=
  [')', ',', '?', ':', '&', '|', '=', '!', '<', '>', '+', '-', '*', '/', '^']

/-- Nothing but blanks and what may stand behind a printed operand; no colon behind a bare name. -/
def Follows (bare : Bool) (rest : List Char) : Prop :=
  ∀ c ∈ (skipBlanks rest).head?, c ∈ stops ∧ (bare = true → c ≠ ':')

/-- In front of whatever may follow, the characters are read as a row of lexemes. -/
def Written (chars : List Char) (row : List Token) (bare : Bool) : Prop :=
  ∀ rest, Follows bare rest → Lexes .operand (chars ++ rest) row .operator (skipBlanks rest)

/-- A printed expression does not start with a blank or an equals sign. -/
def StartsOperand (chars : List Char) : Prop :=
  ∃ c more, chars = c :: more ∧ isBlank c = false ∧ c ≠ '='

theorem StartsOperand.append {chars : List Char} (h : StartsOperand chars) (rest : List Char) :
    StartsOperand (chars ++ rest) := by
  obtain ⟨c, more, rfl, hc⟩ := h
  exact ⟨c, more ++ rest, rfl, hc⟩

theorem StartsOperand.startsSolid {chars : List Char} (h : StartsOperand chars) :
    StartsSolid chars := by
  obtain ⟨c, more, rfl, hc, -⟩ := h
  exact startsSolid_cons.mpr hc

theorem StartsOperand.skipBlanks {chars : List Char} (h : StartsOperand chars) :
    skipBlanks (' ' :: chars) = chars := by
  exact @skipBlanks_append [' '] chars (by decide) h.startsSolid

theorem stops_spec : ∀ c ∈ stops, isBlank c = false ∧ c ≠ '(' ∧ (isNameChar c = true → c = ':') ∧
    (c.isDigit || c == '.' || c == 'e' || c == 'E') = false := by
  simp only [stops, List.forall_mem_cons, List.not_mem_nil, IsEmpty.forall_iff, implies_true,
    and_true]
  and_intros <;> decide

theorem follows_cons {c : Char} (hc : c ∈ stops) {bare : Bool} (hbare : bare = true → c ≠ ':')
    (rest : List Char) : Follows bare (c :: rest) := by
  have hblank := (stops_spec c hc).1
  intro d hd
  rw [skipBlanks_of_startsSolid (startsSolid_cons.mpr hblank)] at hd
  obtain rfl : c = d := by simpa using hd
  exact ⟨hc, hbare⟩

/-- In front of a character that may follow, the rest is from that character on. -/
theorem Written.lexes {chars : List Char} {row : List Token} {bare : Bool}
    (h : Written chars row bare) {c : Char} (hc : c ∈ stops) (hbare : bare = true → c ≠ ':')
    (more : List Char) : Lexes .operand (chars ++ c :: more) row .operator (c :: more) := by
  have hlexes := h (c :: more) (follows_cons hc hbare more)
  rwa [skipBlanks_of_startsSolid (startsSolid_cons.mpr (stops_spec c hc).1)] at hlexes

/-- A printed operand is read on its own in front of an operator. -/
theorem Written.lexes_blank {chars : List Char} {row : List Token} {bare : Bool}
    (h : Written chars row bare) {c : Char} (hc : c ∈ stops) (hbare : bare = true → c ≠ ':')
    (more : List Char) : Lexes .operand (chars ++ ' ' :: c :: more) row .operator (c :: more) := by
  have hskip : skipBlanks (' ' :: c :: more) = skipBlanks (c :: more) := rfl
  have hfollows := follows_cons hc hbare more
  have hlexes := h (' ' :: c :: more) (by rwa [Follows, hskip])
  rwa [hskip, skipBlanks_of_startsSolid (startsSolid_cons.mpr (stops_spec c hc).1)] at hlexes

/-- Characters that are no blanks, in front of a text that they do not go on in. -/
theorem longest_written {viable : List Char → Prop} {chars rest : List Char}
    (hsolid : ∀ c ∈ chars, isBlank c = false) (hviable : viable chars)
    (hmax : ∀ c ∈ (skipBlanks rest).head?, ¬ viable (chars ++ [c])) :
    Longest viable chars (chars ++ rest) (skipBlanks rest) := by
  obtain ⟨blanks, hrest, hblanks⟩ := exists_blanks rest
  have hchars : solid chars = chars := List.filter_eq_self.mpr fun c hc => by simp [hsolid c hc]
  refine ⟨⟨chars ++ blanks, ?_, ?_⟩, hviable, startsSolid_skipBlanks rest, hmax⟩
  · rw [List.append_assoc, ← hrest]
  · rw [solid_append, hchars, hblanks, List.append_nil]

/-! ### Numbers -/

theorem runs_append {goesOn : List Char → Char → Bool} {s t : List Char} (hs : Runs goesOn s)
    (ht : ∀ before c after, t = before ++ c :: after → goesOn (s ++ before) c = true) :
    Runs goesOn (s ++ t) := by
  induction t generalizing s with
  | nil => simpa using hs
  | cons c t ih =>
      have hc : goesOn s c = true := by simpa using ht [] c t rfl
      have hmore := @ih (s ++ [c]) (runs_concat.mpr ⟨hs, hc⟩) fun before d after hsplit => by
        simpa using ht (c :: before) d after (by simp [hsplit])
      simpa using hmore

theorem runs_number_append {s t : List Char} (hs : Runs numberGoesOn s)
    (ht : ∀ c ∈ t, (c.isDigit || c == '.' || c == 'e' || c == 'E') = true) :
    Runs numberGoesOn (s ++ t) := by
  refine runs_append hs fun before c after hsplit => ?_
  have hc := ht c (by simp [hsplit])
  simp [numberGoesOn, hc]

theorem runs_numeral {s : List Char} {d : Decimal} (h : Numeral s d) : Runs numberGoesOn s := by
  obtain @⟨whole, fraction, tail, e, hwhole, -, hfraction, htail⟩ := h
  have hdigit {digits : List Char} (hdigits : ∀ c ∈ digits, c.isDigit = true) :
      ∀ c ∈ digits, (c.isDigit || c == '.' || c == 'e' || c == 'E') = true := by
    intro c hc
    simp [hdigits c hc]
  have hpointed : Runs numberGoesOn (whole ++ fractionText fraction) := by
    have hruns := @runs_number_append [] whole (runs_nil _) (hdigit hwhole.2)
    refine runs_number_append (by simpa using hruns) fun c hc => ?_
    unfold fractionText at hc
    split at hc
    · cases hc
    · rcases List.mem_cons.mp hc with rfl | hc
      · rfl
      · exact hdigit hfraction c hc
  have hmark {mark : Char} (hmark : mark = 'e' ∨ mark = 'E') :
      Runs numberGoesOn (whole ++ fractionText fraction ++ [mark]) := by
    refine runs_number_append hpointed fun c hc => ?_
    obtain rfl := List.mem_singleton.mp hc
    rcases hmark with rfl | rfl <;> rfl
  have hsign {mark sign : Char} (hmark' : mark = 'e' ∨ mark = 'E')
      (hsign : sign = '+' ∨ sign = '-') :
      Runs numberGoesOn (whole ++ fractionText fraction ++ [mark] ++ [sign]) := by
    refine runs_concat.mpr ⟨hmark hmark', ?_⟩
    rcases hmark' with rfl | rfl <;> rcases hsign with rfl | rfl <;> simp [numberGoesOn]
  cases htail with
  | absent => simpa using hpointed
  | unsigned hmark' hdigits => simpa using runs_number_append (hmark hmark') (hdigit hdigits.2)
  | plus hmark' hdigits =>
      simpa using runs_number_append (hsign hmark' (.inl rfl)) (hdigit hdigits.2)
  | minus hmark' hdigits =>
      simpa using runs_number_append (hsign hmark' (.inr rfl)) (hdigit hdigits.2)

theorem head_numeral {s : List Char} {d : Decimal} (h : Numeral s d) :
    ∃ c more, s = c :: more ∧ c.isDigit = true := by
  obtain ⟨hwhole, -, -, -⟩ := h
  obtain ⟨c, whole, rfl⟩ := List.exists_cons_of_ne_nil hwhole.1
  exact ⟨c, _, rfl, hwhole.2 c (by simp)⟩

/-- No sign behind a numeral belongs to it. -/
theorem last_numeral {s : List Char} {d : Decimal} (h : Numeral s d) :
    ∃ c ∈ s.getLast?, c.isDigit = true := by
  obtain @⟨whole, fraction, tail, e, hwhole, -, hfraction, htail⟩ := h
  have hlast {front digits : List Char} (hdigits : Digits digits) :
      ∃ c ∈ (front ++ digits).getLast?, c.isDigit = true := by
    obtain ⟨front', c, rfl⟩ := List.eq_nil_or_concat digits |>.resolve_left hdigits.1
    exact ⟨c, by simp, hdigits.2 c (by simp)⟩
  cases htail with
  | absent =>
      unfold fractionText
      split
      · simpa using @hlast [] whole hwhole
      · next hne => simpa using @hlast (whole ++ ['.']) fraction ⟨hne, hfraction⟩
  | @unsigned mark digits _ hdigits =>
      simpa using @hlast (whole ++ fractionText fraction ++ [mark]) digits hdigits
  | @plus mark digits _ hdigits =>
      simpa using @hlast (whole ++ fractionText fraction ++ [mark, '+']) digits hdigits
  | @minus mark digits _ hdigits =>
      simpa using @hlast (whole ++ fractionText fraction ++ [mark, '-']) digits hdigits

/-- A numeral is one lexeme. -/
theorem written_number {s : List Char} {d : Decimal} (h : Numeral s d) :
    Written s [.number (d.toFloat false)] false := by
  intro rest hrest
  have hruns := runs_numeral h
  have hsolid : ∀ c ∈ s, isBlank c = false := by
    intro c hc
    obtain ⟨before, after, hsplit⟩ := List.append_of_mem hc
    exact isBlank_of_numberGoesOn (hruns before c after hsplit)
  have hmax : ∀ c ∈ (skipBlanks rest).head?, ¬ Runs numberGoesOn (s ++ [c]) := by
    intro c hc hgoes
    obtain ⟨hstop, -⟩ := hrest c hc
    obtain ⟨last, hlast, hdigit⟩ := last_numeral h
    rw [Option.mem_def] at hlast
    have hmarks : last ≠ 'e' ∧ last ≠ 'E' := by
      constructor <;> rintro rfl <;> cases hdigit
    have hc' := (runs_concat.mp hgoes).2
    simp [numberGoesOn, (stops_spec c hstop).2.2.2, hlast, hmarks] at hc'
  refine .one (.number (longest_written hsolid hruns hmax) ?_ h.literal)
  obtain ⟨c, more, rfl, hdigit⟩ := head_numeral h
  simp [startsNumber, hdigit]

/-! ### Names and texts -/

theorem longest_name {chars rest : List Char} (h : NameText chars)
    (hmax : ∀ c ∈ (skipBlanks rest).head?, isNameChar c = false) :
    Longest (Runs nameGoesOn) chars (chars ++ rest) (skipBlanks rest) := by
  have hsolid : ∀ c ∈ chars, isBlank c = false := fun c hc => isBlank_of_isNameChar (h.all c hc)
  refine longest_written hsolid (runs_name_iff.mpr h.all) fun c hc hgoes => ?_
  have hname : isNameChar c = true := (runs_concat.mp hgoes).2
  rw [hmax c hc] at hname
  cases hname

/-- An unquoted name is one lexeme unless a colon follows. -/
theorem written_bare {name : String} (h : NameText name.toList) :
    Written name.toList [.bare name] true := by
  intro rest hrest
  have hmax : ∀ c ∈ (skipBlanks rest).head?, isNameChar c = false := by
    intro c hc
    obtain ⟨hstop, hcolon⟩ := hrest c hc
    rw [← Bool.not_eq_true]
    exact fun hname => hcolon rfl ((stops_spec c hstop).2.2.1 hname)
  have hcall : (skipBlanks rest).head? ≠ some '(' := fun hc =>
    (stops_spec '(' (hrest '(' hc).1).2.1 rfl
  have hreads := Reads.bare (longest_name h hmax) h.head hcall
  rw [String.ofList_toList] at hreads
  exact .one hreads

theorem reads_function {name : String} (h : NameText name.toList) (rest : List Char) :
    Reads .operand (name.toList ++ '(' :: rest) (.function name) ('(' :: rest) := by
  have hskip : skipBlanks ('(' :: rest) = '(' :: rest :=
    skipBlanks_of_startsSolid (startsSolid_cons.mpr (by decide))
  have hrun := @longest_name _ ('(' :: rest) h (by rw [hskip]; simp; decide)
  rw [hskip] at hrun
  have hreads := Reads.function hrun h.head rfl
  rwa [String.ofList_toList] at hreads

/-- A name in quotes, whatever stands behind it. -/
theorem reads_quoted {quote : Char} {name : String} (hquote : quote = '\x27' ∨ quote = '\x60')
    (hname : quote ∉ name.toList) (rest : List Char) :
    Reads .operand (quote :: (name.toList ++ quote :: rest)) (.quoted name) (skipBlanks rest) := by
  obtain ⟨blanks, hrest, hblanks⟩ := exists_blanks rest
  have hreads := Reads.quoted hquote hname hblanks (startsSolid_skipBlanks rest)
  rwa [← hrest, String.ofList_toList] at hreads

/-- A text between double quotes, whatever stands behind it. -/
theorem reads_text {body : List Char} (hbody : StringBody body) {s : String}
    (hs : body.filter (· ≠ '\\') = s.toList) (rest : List Char) :
    Reads .operand ('\x22' :: (body ++ '\x22' :: rest)) (.text s) (skipBlanks rest) := by
  obtain ⟨blanks, hrest, hblanks⟩ := exists_blanks rest
  have hreads := Reads.text hbody hblanks (startsSolid_skipBlanks rest)
  rwa [← hrest, hs, String.ofList_toList] at hreads

/-- A quoted name is one lexeme whatever follows. -/
theorem written_quoted {name : String} (h : '\x27' ∉ name.toList) (bare : Bool) :
    Written ('\x27' :: (name.toList ++ ['\x27'])) [.quoted name] bare := by
  intro rest _
  have hlexes : Lexes .operand _ [.quoted name] .operator _ := .one (reads_quoted (.inl rfl) h rest)
  simpa using hlexes

/-- And so is a text. -/
theorem written_text {s : String} (hquote : '\x22' ∉ s.toList) (hbackslash : '\\' ∉ s.toList)
    (bare : Bool) : Written ('\x22' :: (s.toList ++ ['\x22'])) [.text s] bare := by
  intro rest _
  have hbody : StringBody s.toList := by
    refine ⟨fun before after hsplit => absurd (by simp [hsplit]) hquote, fun hlast => ?_⟩
    exact hbackslash (List.mem_of_getLast? hlast)
  have hcontent : s.toList.filter (· ≠ '\\') = s.toList :=
    List.filter_eq_self.mpr fun c hc => by
      simp only [decide_eq_true_eq]
      rintro rfl
      exact hbackslash hc
  have hlexes : Lexes .operand _ [.text s] .operator _ := .one (reads_text hbody hcontent rest)
  simpa using hlexes

/-! ### Marks and operators -/

theorem LoneMark.reads_cons {position : Position} {c : Char} {token : Token}
    (h : LoneMark position c token) (more : List Char) :
    Reads position (c :: more) token (skipBlanks more) :=
  reads_one h.spelled fun d _ => h.alone d

/-- What is written behind a sign. -/
theorem Written.behind {chars : List Char} {row : List Token} {bare : Bool}
    (h : Written chars row bare) (hchars : StartsOperand chars) {c : Char} {token : Token}
    (hmark : LoneMark .operand c token) (hnext : token.next = .operand) :
    Written (c :: chars) (token :: row) bare := by
  intro rest hrest
  have hreads := hmark.reads_cons (chars ++ rest)
  rw [skipBlanks_of_startsSolid (hchars.append rest).startsSolid] at hreads
  refine .cons hreads ?_
  rw [hnext]
  exact h rest hrest

/-- What is written between parentheses. -/
theorem written_parenthesised {chars : List Char} {row : List Token} (hchars : StartsOperand chars)
    (h : ∀ rest, Lexes .operand (chars ++ ')' :: rest) row .operator (')' :: rest)) (bare : Bool) :
    Written ('(' :: (chars ++ [')'])) (.opening :: (row ++ [.closing])) bare := by
  intro rest _
  have hopening := (lone_opening .operand).reads_cons (chars ++ ')' :: rest)
  rw [skipBlanks_of_startsSolid (hchars.append _).startsSolid] at hopening
  have hclosing : Reads .operator (')' :: rest) .closing (skipBlanks rest) :=
    (lone_closing .operator).reads_cons rest
  have hlexes : Lexes .operand _ (.opening :: (row ++ [.closing])) .operator _ :=
    .cons hopening ((h rest).append (.one hclosing))
  simpa using hlexes

theorem reads_mark {c : Char} {token : Token} (h : LoneMark .operator c token) {more : List Char}
    (hmore : StartsOperand more) : Reads .operator (c :: ' ' :: more) token more := by
  have hreads := h.reads_cons (' ' :: more)
  rwa [hmore.skipBlanks] at hreads

/-- The symbols of the operators are spelled so that at most an equals sign could make them longer.
-/
theorem symbol_spec (op : BinaryOp) :
    (op.symbol.toList, .operator op) ∈ spellings .operator ∧
      (∀ c ∈ op.symbol.toList, isBlank c = false) ∧
      ∀ c, Spelled .operator (op.symbol.toList ++ [c]) → c = '=' := by
  cases op <;> simp [BinaryOp.symbol, spellings, Spelled] <;> decide

/-- A blank behind an operator keeps it apart from what follows. -/
theorem reads_symbol (op : BinaryOp) {more : List Char} (hmore : StartsOperand more) :
    Reads .operator (op.symbol.toList ++ ' ' :: more) (.operator op) more := by
  obtain ⟨hspelling, hsolid, hmax⟩ := symbol_spec op
  have hskip := hmore.skipBlanks
  have hrun : Longest (Spelled .operator) op.symbol.toList (op.symbol.toList ++ ' ' :: more)
      (skipBlanks (' ' :: more)) := by
    refine longest_written hsolid ⟨_, hspelling⟩ fun c hc hspelled => ?_
    obtain ⟨d, others, rfl, -, hd⟩ := hmore
    rw [hskip] at hc
    obtain rfl : d = c := by simpa using hc
    exact hd (hmax d hspelled)
  rw [hskip] at hrun
  exact .mark hspelling hrun

end Grammar

end ProcessFormula
