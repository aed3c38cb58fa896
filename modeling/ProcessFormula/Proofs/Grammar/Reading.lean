import Mathlib.Data.List.Nodup
import ProcessFormula.Proofs.Grammar.Literal
import ProcessFormula.Proofs.Grammar.Scanning

/-!
A text has at most one first lexeme, and its first character tells which kind of lexeme it is. The
lexemes of a text are therefore determined by the text.
-/

namespace ProcessFormula.Grammar

open Text Lexeme

theorem solid_eq_cons_iff {run chars : List Char} {c : Char} :
    solid run = c :: chars ↔ ∃ blanks more, run = blanks ++ c :: more ∧ solid blanks = [] ∧
      isBlank c = false ∧ solid more = chars := by
  simp [solid, List.filter_eq_cons_iff, List.filter_eq_nil_iff]

/-- Text that starts with a run does not start with a blank in front of it. -/
theorem eq_cons_of_solid {s run rest chars : List Char} {c : Char} (hs : StartsSolid s)
    (hrun : s = run ++ rest) (hsolid : solid run = c :: chars) :
    ∃ more, s = c :: (more ++ rest) ∧ solid more = chars := by
  obtain ⟨blanks, more, rfl, hblanks, -, hmore⟩ := solid_eq_cons_iff.mp hsolid
  cases blanks with
  | nil => exact ⟨more, hrun, hmore⟩
  | cons b blanks =>
      subst hrun
      rw [solid_cons_of_solid (startsSolid_cons.mp hs)] at hblanks
      cases hblanks

theorem Longest.eq_cons {viable : List Char → Prop} {c : Char} {chars s rest : List Char}
    (h : Longest viable (c :: chars) s rest) (hs : StartsSolid s) :
    ∃ more, s = c :: (more ++ rest) ∧ solid more = chars := by
  obtain ⟨run, hrun, hsolid⟩ := h.run
  exact eq_cons_of_solid hs hrun hsolid

/-- The lexeme of one character at the start of a text. -/
theorem Longest.one {viable : List Char → Prop} {c : Char} {s rest : List Char}
    (h : Longest viable [c] s rest) (hs : StartsSolid s) :
    ∃ more, s = c :: more ∧ rest = skipBlanks more := by
  obtain ⟨blanks, hrest, hblanks⟩ := h.eq_cons hs
  exact ⟨blanks ++ rest, hrest, (skipBlanks_append hblanks h.startsSolid).symm⟩

/-- The lexeme of two characters at the start of a text. -/
theorem Longest.two {viable : List Char → Prop} {c d : Char} {s rest : List Char}
    (h : Longest viable [c, d] s rest) (hs : StartsSolid s) :
    ∃ more others, s = c :: more ∧ skipBlanks more = d :: others ∧ rest = skipBlanks others := by
  obtain ⟨more, hmore, hsolid⟩ := h.eq_cons hs
  obtain ⟨blanks, others, rfl, hblanks, hd, hothers⟩ := solid_eq_cons_iff.mp hsolid
  refine ⟨_, others ++ rest, hmore, ?_, (skipBlanks_append hothers h.startsSolid).symm⟩
  rw [List.append_assoc, List.cons_append]
  exact skipBlanks_append hblanks (startsSolid_cons.mpr hd)

/-- A single character is read with the blanks behind it. -/
theorem longest_one {viable : List Char → Prop} {c : Char} {more : List Char}
    (hc : isBlank c = false) (hviable : viable [c])
    (hmax : ∀ d ∈ (skipBlanks more).head?, ¬ viable [c, d]) :
    Longest viable [c] (c :: more) (skipBlanks more) := by
  obtain ⟨blanks, hmore, hblanks⟩ := exists_blanks more
  refine ⟨⟨c :: blanks, ?_, ?_⟩, hviable, startsSolid_skipBlanks more, hmax⟩
  · rw [List.cons_append, ← hmore]
  · rw [solid_cons_of_solid hc, hblanks]

/-- Two characters are read with the blanks between and behind them. -/
theorem longest_two {viable : List Char → Prop} {c d : Char} {more others : List Char}
    (hc : isBlank c = false) (hmore : skipBlanks more = d :: others) (hviable : viable [c, d])
    (hmax : ∀ e, ¬ viable [c, d, e]) :
    Longest viable [c, d] (c :: more) (skipBlanks others) := by
  have hd : isBlank d = false := startsSolid_cons.mp (hmore ▸ startsSolid_skipBlanks more)
  obtain ⟨blanks, hblanks, hsolid⟩ := exists_blanks more
  obtain ⟨blanks', hblanks', hsolid'⟩ := exists_blanks others
  refine ⟨⟨c :: (blanks ++ d :: blanks'), ?_, ?_⟩, hviable, startsSolid_skipBlanks others,
    fun e _ => hmax e⟩
  · rw [List.cons_append, List.append_assoc, List.cons_append, ← hblanks', ← hmore, ← hblanks]
  · rw [solid_cons_of_solid hc, solid_append, hsolid, solid_cons_of_solid hd, hsolid',
      List.nil_append]

/-! ### Kinds of lexemes -/

inductive Kind where
  | number
  | text
  | quoted
  | name
  | mark
  deriving DecidableEq

def Token.kind : Token → Kind
  | .number _ => .number
  | .text _ => .text
  | .quoted _ => .quoted
  | .bare _ | .function _ => .name
  | .operator _ | .not | .question | .colon | .comma | .opening | .closing => .mark

def kindAt : Position → Char → Kind
  | .operator, _ => .mark
  | .operand, c =>
    if c = '\x27' ∨ c = '\x60' then .quoted
    else if c = '\x22' then .text
    else if startsNumber c then .number
    else if isNameChar c then .name
    else .mark

theorem kindAt_of_startsNumber {c : Char} (h : startsNumber c = true) :
    kindAt .operand c = .number := by
  have hquote : ¬ (c = '\x27' ∨ c = '\x60') := by
    rintro (rfl | rfl)
    · cases h
    · cases h
  have htext : c ≠ '\x22' := by
    rintro rfl
    cases h
  simp [kindAt, hquote, htext, h]

theorem kind_of_spelling {position : Position} {chars : List Char} {token : Token}
    (h : (chars, token) ∈ spellings position) :
    ∃ c more, chars = c :: more ∧ more.length ≤ 1 ∧ kindAt position c = .mark ∧
      token.kind = .mark := by
  cases position <;> simp only [spellings, List.mem_cons, List.not_mem_nil, or_false] at h
  · rcases h with h | h | h | h <;> obtain ⟨rfl, rfl⟩ := Prod.mk.inj h <;>
      exact ⟨_, _, rfl, by decide, by decide, rfl⟩
  · rcases h with h | h | h | h | h | h | h | h | h | h | h | h | h | h | h | h | h | h | h | h <;>
      obtain ⟨rfl, rfl⟩ := Prod.mk.inj h <;> exact ⟨_, _, rfl, by decide, rfl, rfl⟩

theorem kind_eq_mark {position : Position} {chars : List Char} {token : Token}
    (h : (chars, token) ∈ spellings position) : token.kind = .mark := by
  obtain ⟨-, -, -, -, -, hkind⟩ := kind_of_spelling h
  exact hkind

/-- No two marks or operators of one position are written alike. -/
theorem spelling_unique {position : Position} {chars : List Char} {token token' : Token}
    (h : (chars, token) ∈ spellings position) (h' : (chars, token') ∈ spellings position) :
    token = token' := by
  have hnodup : ((spellings position).map Prod.fst).Nodup := by
    cases position <;> decide
  exact congrArg Prod.snd (List.inj_on_of_nodup_map hnodup h h' rfl)

/-- Marks and operators have one or two characters. -/
theorem Spelled.length {position : Position} {chars : List Char} (h : Spelled position chars) :
    (∃ c, chars = [c]) ∨ ∃ c d, chars = [c, d] := by
  obtain ⟨token, h⟩ := h
  obtain ⟨c, more, rfl, hlength, -⟩ := kind_of_spelling h
  cases more with
  | nil => exact Or.inl ⟨c, rfl⟩
  | cons d more =>
      obtain rfl : more = [] := by simpa using hlength
      exact Or.inr ⟨c, d, rfl⟩

theorem Reads.startsSolid {position : Position} {s rest : List Char} {token : Token}
    (h : Reads position s token rest) : StartsSolid rest := by
  cases h with
  | number hrun _ _ | bare hrun _ _ | function hrun _ _ | mark _ hrun => exact hrun.startsSolid
  | text _ _ hrest | quoted _ _ _ hrest => exact hrest

/-- The first character of a lexeme tells its kind. -/
theorem Reads.kind {position : Position} {s rest : List Char} {token : Token}
    (h : Reads position s token rest) (hs : StartsSolid s) :
    ∃ c more, s = c :: more ∧ kindAt position c = token.kind := by
  cases h with
  | @number chars _ _ d hrun hhead hvalue =>
      cases chars with
      | nil => cases literal?_of_literal hvalue
      | cons c chars =>
          obtain ⟨more, hmore, -⟩ := hrun.eq_cons hs
          exact ⟨c, _, hmore, kindAt_of_startsNumber (hhead c rfl)⟩
  | bare hrun hhead _ | function hrun hhead _ =>
      obtain ⟨c, hc, hstart⟩ := hhead
      obtain ⟨chars, rfl⟩ := List.head?_eq_some_iff.mp hc
      obtain ⟨more, hmore, -⟩ := hrun.eq_cons hs
      refine ⟨c, _, hmore, ?_⟩
      have hname : isNameChar c = true := hrun.isViable [] c chars rfl
      have hquote : ¬ (c = '\x27' ∨ c = '\x60') := by
        rintro (rfl | rfl) <;> cases hname
      have htext : c ≠ '\x22' := by
        rintro rfl
        cases hname
      simp [kindAt, hquote, htext, hstart, hname, Token.kind]
  | text _ _ _ => exact ⟨_, _, rfl, rfl⟩
  | quoted hquote _ _ _ => exact ⟨_, _, rfl, by simp [kindAt, hquote, Token.kind]⟩
  | mark hspelling hrun =>
      obtain ⟨c, more, rfl, -, hkind, htoken⟩ := kind_of_spelling hspelling
      obtain ⟨more, hmore, -⟩ := hrun.eq_cons hs
      exact ⟨c, _, hmore, hkind.trans htoken.symm⟩

/-- Of a mark and a longer one with the same first character only one is the longest. -/
theorem longest_spelling_unique {position : Position} {chars chars' s rest rest' : List Char}
    (hs : StartsSolid s) (h : Longest (Spelled position) chars s rest)
    (h' : Longest (Spelled position) chars' s rest') : chars = chars' ∧ rest = rest' := by
  rcases h.isViable.length with ⟨c, rfl⟩ | ⟨c, d, rfl⟩ <;>
    rcases h'.isViable.length with ⟨c', rfl⟩ | ⟨c', d', rfl⟩
  · obtain ⟨a, rfl, rfl⟩ := h.one hs
    obtain ⟨b, hb, rfl⟩ := h'.one hs
    obtain ⟨rfl, rfl⟩ := List.cons.inj hb
    exact ⟨rfl, rfl⟩
  · obtain ⟨a, rfl, rfl⟩ := h.one hs
    obtain ⟨b, others, hb, hd, -⟩ := h'.two hs
    obtain ⟨rfl, rfl⟩ := List.cons.inj hb
    exact absurd h'.isViable (h.maximal d' (by simp [hd]))
  · obtain ⟨a, rfl, rfl⟩ := h'.one hs
    obtain ⟨b, others, hb, hd, -⟩ := h.two hs
    obtain ⟨rfl, rfl⟩ := List.cons.inj hb
    exact absurd h.isViable (h'.maximal d (by simp [hd]))
  · obtain ⟨a, others, rfl, hd, rfl⟩ := h.two hs
    obtain ⟨b, others', hb, hd', rfl⟩ := h'.two hs
    obtain ⟨rfl, rfl⟩ := List.cons.inj hb
    obtain ⟨rfl, rfl⟩ := List.cons.inj (hd.symm.trans hd')
    exact ⟨rfl, rfl⟩

/-- A text has at most one first lexeme. -/
theorem Reads.unique {position : Position} {s rest rest' : List Char} {token token' : Token}
    (hs : StartsSolid s) (h : Reads position s token rest) (h' : Reads position s token' rest') :
    token = token' ∧ rest = rest' := by
  have hkind : token.kind = token'.kind := by
    obtain ⟨c, more, rfl, hc⟩ := h.kind hs
    obtain ⟨c', more', heq, hc'⟩ := h'.kind hs
    obtain ⟨rfl, -⟩ := List.cons.inj heq
    exact hc.symm.trans hc'
  cases h with
  | number hrun hhead hvalue =>
      cases h' with
      | number hrun' hhead' hvalue' =>
          obtain ⟨rfl, rfl⟩ := Prod.mk.inj ((numberRun_eq_iff.mpr hrun).symm.trans
            (numberRun_eq_iff.mpr hrun'))
          obtain rfl := Option.some.inj ((literal?_of_literal hvalue).symm.trans
            (literal?_of_literal hvalue'))
          exact ⟨rfl, rfl⟩
      | mark hspelling' _ => rw [kind_eq_mark hspelling'] at hkind; cases hkind
      | bare | function | text | quoted => cases hkind
  | bare hrun _ hrest | function hrun _ hrest =>
      cases h' with
      | bare hrun' _ hrest' | function hrun' _ hrest' =>
          obtain ⟨rfl, rfl⟩ := Prod.mk.inj ((bareName_eq_iff.mpr hrun).symm.trans
            (bareName_eq_iff.mpr hrun'))
          -- Whether a parenthesis follows the name tells a variable from a function.
          first
            | exact ⟨rfl, rfl⟩
            | exact absurd hrest' hrest
            | exact absurd hrest hrest'
      | mark hspelling' _ => rw [kind_eq_mark hspelling'] at hkind; cases hkind
      | number | text | quoted => cases hkind
  | text hbody hblanks hrest =>
      generalize heq : '\x22' :: _ = s' at h'
      cases h' with
      | text hbody' hblanks' hrest' =>
          obtain ⟨-, hs'⟩ := List.cons.inj heq
          have hread := stringBody_eq_some_iff.mpr ⟨_, _, rfl, hbody, hblanks, hrest, rfl⟩
          have hread' := stringBody_eq_some_iff.mpr ⟨_, _, rfl, hbody', hblanks', hrest', rfl⟩
          rw [hs', hread'] at hread
          obtain ⟨hcontent, rfl⟩ := Prod.mk.inj (Option.some.inj hread)
          rw [hcontent]
          exact ⟨rfl, rfl⟩
      | mark hspelling' _ => rw [kind_eq_mark hspelling'] at hkind; cases hkind
      | number | bare | function | quoted => cases hkind
  | quoted hquote hname hblanks hrest =>
      generalize heq : _ :: _ = s' at h'
      cases h' with
      | quoted hquote' hname' hblanks' hrest' =>
          obtain ⟨rfl, hs'⟩ := List.cons.inj heq
          have hread := upTo_eq_some_iff.mpr ⟨_, rfl, hname, hblanks, hrest⟩
          have hread' := upTo_eq_some_iff.mpr ⟨_, rfl, hname', hblanks', hrest'⟩
          rw [hs', hread'] at hread
          obtain ⟨rfl, rfl⟩ := Prod.mk.inj (Option.some.inj hread)
          exact ⟨rfl, rfl⟩
      | mark hspelling' _ => rw [kind_eq_mark hspelling'] at hkind; cases hkind
      | number | bare | function | text => cases hkind
  | mark hspelling hrun =>
      rw [kind_eq_mark hspelling] at hkind
      cases h' with
      | mark hspelling' hrun' =>
          obtain ⟨rfl, rfl⟩ := longest_spelling_unique hs hrun hrun'
          exact ⟨spelling_unique hspelling hspelling', rfl⟩
      | number | bare | function | text | quoted => cases hkind

/-! ### Rows of lexemes -/

namespace Lexes

variable {position middle final : Position} {s t rest : List Char} {tokens more : List Token}

theorem one {token : Token} (h : Reads position s token rest) :
    Lexes position s [token] token.next rest :=
  .cons h .nil

theorem reads {token : Token} (h : Lexes position s [token] final rest) :
    Reads position s token rest := by
  generalize hrow : [token] = row at h
  cases h with
  | nil => cases hrow
  | cons hfirst hmore =>
      obtain ⟨rfl, rfl⟩ := List.cons.inj hrow
      cases hmore
      exact hfirst

/-- Every lexeme of a row was read somewhere. -/
theorem exists_reads {token : Token} (h : Lexes position s tokens final rest)
    (htoken : token ∈ tokens) : ∃ position' s' rest', Reads position' s' token rest' := by
  induction h with
  | nil => cases htoken
  | cons hfirst _ ih =>
      rcases List.mem_cons.mp htoken with rfl | hmore
      · exact ⟨_, _, _, hfirst⟩
      · exact ih hmore

theorem append (h : Lexes position s tokens middle t) (hmore : Lexes middle t more final rest) :
    Lexes position s (tokens ++ more) final rest := by
  induction h with
  | nil => exact hmore
  | cons hfirst _ ih => exact .cons hfirst (ih hmore)

theorem split (h : Lexes position s (tokens ++ more) final rest) :
    ∃ middle t, Lexes position s tokens middle t ∧ Lexes middle t more final rest := by
  induction tokens generalizing position s with
  | nil => exact ⟨position, s, .nil, h⟩
  | cons token tokens ih =>
      cases h with
      | cons hfirst hrest =>
          obtain ⟨middle, t, htokens, hmore⟩ := ih hrest
          exact ⟨middle, t, .cons hfirst htokens, hmore⟩

theorem startsSolid (h : Lexes position s tokens final rest) (hs : StartsSolid s) :
    StartsSolid rest := by
  induction h with
  | nil => exact hs
  | cons hfirst _ ih => exact ih hfirst.startsSolid

theorem final_eq {last : Token} (h : Lexes position s tokens final rest)
    (hlast : last ∈ tokens.getLast?) : final = last.next := by
  induction h with
  | nil => cases hlast
  | @cons position final s middle rest token tokens _ hmore ih =>
      cases hmore with
      | nil => exact congrArg Token.next (Option.some.inj hlast)
      | cons => exact ih hlast

/-- Of two rows of lexemes at the start of one text the longer goes on where the other ends. -/
theorem prefix_or {final' : Position} {rest' : List Char} {tokens' : List Token}
    (h : Lexes position s tokens final rest) (h' : Lexes position s tokens' final' rest')
    (hs : StartsSolid s) :
    (∃ more, tokens' = tokens ++ more ∧ Lexes final rest more final' rest') ∨
      ∃ more, tokens = tokens' ++ more ∧ Lexes final' rest' more final rest := by
  induction h generalizing tokens' with
  | nil => exact Or.inl ⟨tokens', rfl, h'⟩
  | @cons position final s middle rest token tokens hfirst hmore ih =>
      cases h' with
      | nil => exact Or.inr ⟨token :: tokens, rfl, .cons hfirst hmore⟩
      | cons hfirst' hmore' =>
          obtain ⟨rfl, rfl⟩ := hfirst.unique hs hfirst'
          rcases ih hmore' hfirst.startsSolid with ⟨more, rfl, h⟩ | ⟨more, rfl, h⟩
          · exact Or.inl ⟨more, rfl, h⟩
          · exact Or.inr ⟨more, rfl, h⟩

end Lexes

end ProcessFormula.Grammar
