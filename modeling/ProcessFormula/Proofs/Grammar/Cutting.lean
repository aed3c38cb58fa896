import ProcessFormula.Proofs.Grammar.Occurrence

/-!
A row of lexemes and the text behind it. The lexemes that were read off a text are those of the text
that was read, even if the rest is cut off. Where nothing was left to read, they stay the same if a
closing parenthesis is put behind the text, whatever follows it: no lexeme goes on with a closing
parenthesis.
-/

namespace ProcessFormula.Grammar

open Text Lexeme ProcessFormula.Parser

variable {position final : Position} {s rest u : List Char} {token : Token} {row : List Token}

/-- Blanks at the start of a text end where its solid end starts, if not before. -/
theorem skipBlanks_append_of_startsSolid (s : List Char) (hu : StartsSolid u) :
    skipBlanks (s ++ u) = skipBlanks s ++ u := by
  induction s with
  | nil => exact skipBlanks_of_startsSolid hu
  | cons c s ih =>
      cases hc : isBlank c with
      | true => simpa [skipBlanks, hc] using ih
      | false => simp [skipBlanks, hc]

/-! ### Lexemes take text away -/

theorem Longest.length_lt {viable : List Char → Prop} {chars : List Char}
    (h : Longest viable chars s rest) (hne : chars ≠ []) : rest.length < s.length := by
  obtain ⟨run, rfl, rfl⟩ := h.run
  cases run with
  | nil => exact absurd rfl hne
  | cons c run => simp only [List.cons_append, List.length_cons, List.length_append]; omega

/-- A lexeme has at least one character. -/
theorem Reads.length_lt (h : Reads position s token rest) : rest.length < s.length := by
  cases h with
  | number hrun _ hvalue =>
      refine hrun.length_lt ?_
      rintro rfl
      cases literal?_of_literal hvalue
  | bare hrun hhead _ | function hrun hhead _ => exact hrun.length_lt (ne_nil_of_head hhead)
  | text | quoted => simp only [List.length_cons, List.length_append]; omega
  | mark hspelling hrun =>
      refine hrun.length_lt ?_
      rintro rfl
      obtain ⟨c, more, hchars, -⟩ := kind_of_spelling hspelling
      cases hchars

theorem Lexes.length_le (h : Lexes position s row final rest) : rest.length ≤ s.length := by
  obtain ⟨lead, rfl⟩ := h.suffix
  simp

/-- There are no lexemes between a place and itself. -/
theorem Lexes.eq_nil (h : Lexes position s row final s) : row = [] := by
  cases h with
  | nil => rfl
  | cons hfirst hmore =>
      have hlt := hfirst.length_lt
      have hle := hmore.length_le
      omega

/-! ### Text that is cut off -/

theorem StartsSolid.cut (h : StartsSolid (s ++ u)) : StartsSolid s := by
  cases s with
  | nil => exact startsSolid_nil
  | cons c s => exact startsSolid_cons.mpr (startsSolid_cons.mp h)

/-- A run of characters does not look behind the place at which it ends. -/
theorem Longest.cut {viable : List Char → Prop} {chars : List Char}
    (h : Longest viable chars (s ++ u) (rest ++ u)) : Longest viable chars s rest := by
  obtain ⟨run, hs, hsolid⟩ := h.run
  refine ⟨⟨run, ?_, hsolid⟩, h.isViable, h.startsSolid.cut, fun c hc => h.maximal c ?_⟩
  · rw [← List.append_assoc] at hs
    exact List.append_cancel_right hs
  · rw [List.head?_append, Option.mem_def.mp hc]
    rfl

/-- Text behind a lexeme may be cut off, except for the parenthesis by which the name of a function
is known. -/
theorem Reads.cut (h : Reads position (s ++ u) token (rest ++ u))
    (hcall : ∀ name, token = .function name → rest ≠ []) : Reads position s token rest := by
  generalize hs : s ++ u = text at h
  generalize hrest : rest ++ u = more at h
  cases h with
  | number hrun hhead hvalue =>
      subst hs hrest
      exact .number hrun.cut hhead hvalue
  | bare hrun hhead hopen =>
      subst hs hrest
      refine .bare hrun.cut hhead fun hc => hopen ?_
      rw [List.head?_append, hc]
      rfl
  | function hrun hhead hopen =>
      subst hs hrest
      refine .function hrun.cut hhead ?_
      obtain ⟨c, rest, rfl⟩ := List.exists_cons_of_ne_nil (hcall _ rfl)
      exact hopen
  | @text body blanks _ hbody hblanks hsolid =>
      subst hrest
      obtain rfl : s = '\x22' :: (body ++ '\x22' :: (blanks ++ rest)) :=
        List.append_cancel_right (hs.trans (by simp))
      exact .text hbody hblanks hsolid.cut
  | @quoted quote name blanks _ hquote hname hblanks hsolid =>
      subst hrest
      obtain rfl : s = quote :: (name ++ quote :: (blanks ++ rest)) :=
        List.append_cancel_right (hs.trans (by simp))
      exact .quoted hquote hname hblanks hsolid.cut
  | mark hspelling hrun =>
      subst hs hrest
      exact .mark hspelling hrun.cut

/-- The lexemes in front of a place are those of the text that ends there. -/
theorem Lexes.cut (h : Lexes position (s ++ u) row final u)
    (hlast : ∀ name, row.getLast? ≠ some (.function name)) : Lexes position s row final [] := by
  generalize htext : s ++ u = text at h
  generalize hbehind : u = behind at h
  induction h generalizing s with
  | nil =>
      obtain rfl : s = [] := by simpa using htext.trans hbehind.symm
      exact .nil
  | @cons position final text middle behind token tokens hfirst hmore ih =>
      subst hbehind htext
      obtain ⟨between, rfl⟩ := hmore.suffix
      refine .cons (hfirst.cut ?_) (ih ?_ rfl rfl)
      · -- A name that ends the text would be the last lexeme.
        rintro name rfl rfl
        rw [hmore.eq_nil] at hlast
        exact hlast name rfl
      · intro name
        cases tokens with
        | nil => simp
        | cons next tokens => simpa using hlast name

/-! ### Text that is put behind -/

theorem StartsSolid.append (h : StartsSolid s) (hu : StartsSolid u) : StartsSolid (s ++ u) := by
  cases s with
  | nil => exact hu
  | cons c s => exact startsSolid_cons.mpr (startsSolid_cons.mp h)

/-- It goes on to be the longest one if the text behind it does not continue it. -/
theorem Longest.extend {viable : List Char → Prop} {chars : List Char}
    (h : Longest viable chars s rest) (hu : StartsSolid u)
    (hmax : ∀ c ∈ u.head?, ¬ viable (chars ++ [c])) :
    Longest viable chars (s ++ u) (rest ++ u) := by
  obtain ⟨run, rfl, hsolid⟩ := h.run
  refine ⟨⟨run, List.append_assoc .., hsolid⟩, h.isViable, h.startsSolid.append hu, fun c hc => ?_⟩
  cases rest with
  | nil => exact hmax c hc
  | cons d rest => exact h.maximal c hc

def Closes (u : List Char) : Prop := u.head? = some ')'

theorem Closes.startsSolid (hu : Closes u) : StartsSolid u := by
  intro c hc
  obtain rfl := Option.some.inj (hu.symm.trans hc)
  decide

/-- No character run goes on with a closing parenthesis. -/
theorem Closes.stops (hu : Closes u) {goesOn : List Char → Char → Bool}
    (hclosing : ∀ before, goesOn before ')' = false) (chars : List Char) :
    ∀ c ∈ u.head?, ¬ Runs goesOn (chars ++ [c]) := by
  intro c hc hruns
  obtain rfl := Option.some.inj (hu.symm.trans hc)
  have hgoes := (runs_concat.mp hruns).2
  rw [hclosing] at hgoes
  cases hgoes

theorem not_numberGoesOn_closing (before : List Char) : numberGoesOn before ')' = false := by
  simp [numberGoesOn]

theorem not_nameGoesOn_closing (before : List Char) : nameGoesOn before ')' = false := by
  show isNameChar ')' = false
  decide

/-- No mark or operator of several characters ends with a closing parenthesis. -/
theorem not_spelled_closing {chars : List Char} (hne : chars ≠ []) :
    ¬ Spelled position (chars ++ [')']) := by
  intro h
  rcases h.length with ⟨c, hc⟩ | ⟨c, d, hcd⟩
  · exact hne (List.append_eq_singleton_iff.mp hc |>.resolve_right (by simp)).1
  · obtain ⟨rfl, -⟩ := List.append_inj' (hcd.trans (List.append_cons [] c [d])) rfl
    obtain ⟨token, h⟩ := h
    cases position <;> simp [spellings] at h

/-- A closing parenthesis may be put behind a lexeme, with any text behind it. -/
theorem Reads.extend (h : Reads position s token rest) (hu : Closes u) :
    Reads position (s ++ u) token (rest ++ u) := by
  cases h with
  | @number chars _ _ d hrun hhead hvalue =>
      exact .number (hrun.extend hu.startsSolid (hu.stops not_numberGoesOn_closing _)) hhead hvalue
  | bare hrun hhead hopen =>
      refine .bare (hrun.extend hu.startsSolid (hu.stops not_nameGoesOn_closing _)) hhead ?_
      cases rest with
      | nil => rw [List.nil_append, hu]; simp
      | cons c rest => exact hopen
  | function hrun hhead hopen =>
      refine .function (hrun.extend hu.startsSolid (hu.stops not_nameGoesOn_closing _)) hhead ?_
      rw [List.head?_append, hopen]
      rfl
  | text hbody hblanks hsolid =>
      simpa using Reads.text hbody hblanks (hsolid.append hu.startsSolid)
  | quoted hquote hname hblanks hsolid =>
      simpa using Reads.quoted hquote hname hblanks (hsolid.append hu.startsSolid)
  | mark hspelling hrun =>
      refine .mark hspelling (hrun.extend hu.startsSolid fun c hc => ?_)
      obtain rfl := Option.some.inj (hu.symm.trans hc)
      obtain ⟨c, more, rfl, -⟩ := kind_of_spelling hspelling
      exact not_spelled_closing (by simp)

/-- Lexemes stay the same when a closing parenthesis follows them. -/
theorem Lexes.extend (h : Lexes position s row final rest) (hu : Closes u) :
    Lexes position (s ++ u) row final (rest ++ u) := by
  induction h with
  | nil => exact .nil
  | cons hfirst _ ih => exact .cons (hfirst.extend hu) ih

end ProcessFormula.Grammar
