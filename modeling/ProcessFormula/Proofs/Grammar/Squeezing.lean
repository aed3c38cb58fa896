import ProcessFormula.Proofs.Grammar.Scanning

/-!
Formula text without the blanks that mean nothing. A blank means something inside a literal only: a
string, or a quoted name, from its quote on to the quote that closes it or to the end of the text.
Every reader of a lexeme reads the same characters with and without the other blanks, and stops
outside of literals.
-/

namespace ProcessFormula.Grammar

open Text Lexeme

/-- Where a character of formula text stands: outside of literals, in a string, perhaps right behind
a backslash, or in a name between two quotes. -/
inductive Place where
  | outside
  | inString (escaped : Bool)
  | inName (quote : Char)
  deriving DecidableEq

def Place.behind : Place → Char → Place
  | .outside, c =>
    if c = '\x22' then .inString false
    else if c = '\x27' ∨ c = '\x60' then .inName c
    else .outside
  | .inString escaped, c =>
    if c = '\x22' ∧ escaped = false then .outside else .inString (c == '\\')
  | .inName quote, c => if c = quote then .outside else .inName quote

def Place.after (place : Place) (s : List Char) : Place := s.foldl Place.behind place

/-- The characters of a text but for the blanks outside of literals. The text starts at the given
place. -/
def squeezeFrom (place : Place) : List Char → List Char
  | [] => []
  | c :: s =>
    if place = .outside ∧ isBlank c = true then squeezeFrom .outside s
    else c :: squeezeFrom (place.behind c) s

/-- A text without the blanks outside of literals. -/
def squeeze (s : List Char) : List Char := squeezeFrom .outside s

def isQuote (c : Char) : Bool := c == '\x22' || c == '\x27' || c == '\x60'

/-! ### Squeezing -/

/-- A class of characters to which no quote belongs. -/
theorem isQuote_eq_false {p : Char → Bool} (hdouble : p '\x22' = false) (hsingle : p '\x27' = false)
    (hback : p '\x60' = false) {c : Char} (hc : p c = true) : isQuote c = false := by
  rw [← Bool.not_eq_true]
  intro hquote
  simp only [isQuote, Bool.or_eq_true, beq_iff_eq] at hquote
  rcases hquote with (rfl | rfl) | rfl
  · rw [hdouble] at hc
    cases hc
  · rw [hsingle] at hc
    cases hc
  · rw [hback] at hc
    cases hc

theorem isQuote_of_isBlank {c : Char} (hc : isBlank c = true) : isQuote c = false :=
  isQuote_eq_false (by decide) (by decide) (by decide) hc

theorem isQuote_of_isNameChar {c : Char} (hc : isNameChar c = true) : isQuote c = false :=
  isQuote_eq_false (by decide) (by decide) (by decide) hc

theorem isQuote_of_continuesNumber {afterMark : Bool} {c : Char}
    (hc : continuesNumber afterMark c = true) : isQuote c = false := by
  cases afterMark with
  | false => exact isQuote_eq_false (p := continuesNumber false) rfl rfl rfl hc
  | true => exact isQuote_eq_false (p := continuesNumber true) rfl rfl rfl hc

theorem behind_outside {c : Char} (hc : isQuote c = false) : Place.outside.behind c = .outside := by
  simp only [isQuote, Bool.or_eq_false_iff, beq_eq_false_iff_ne] at hc
  simp [Place.behind, hc]

/-- A text is squeezed piece by piece, each piece from the place where it starts. -/
theorem squeezeFrom_append (place : Place) (s t : List Char) :
    squeezeFrom place (s ++ t) = squeezeFrom place s ++ squeezeFrom (place.after s) t := by
  induction s generalizing place with
  | nil => rfl
  | cons c s ih =>
      simp only [List.cons_append, squeezeFrom, Place.after, List.foldl_cons]
      split
      · next hblank =>
        rw [ih, hblank.1, behind_outside (isQuote_of_isBlank hblank.2)]
        rfl
      · rw [ih, List.cons_append]
        rfl

@[simp]
theorem squeeze_nil : squeeze [] = [] := rfl

theorem squeeze_cons_of_blank {c : Char} (hc : isBlank c = true) (s : List Char) :
    squeeze (c :: s) = squeeze s := by
  simp [squeeze, squeezeFrom, hc]

theorem squeeze_cons_of_solid {c : Char} (hc : isBlank c = false) (s : List Char) :
    squeeze (c :: s) = c :: squeezeFrom (Place.outside.behind c) s := by
  simp [squeeze, squeezeFrom, hc]

theorem squeeze_cons {c : Char} (hblank : isBlank c = false) (hquote : isQuote c = false)
    (s : List Char) : squeeze (c :: s) = c :: squeeze s := by
  rw [squeeze_cons_of_solid hblank, behind_outside hquote]
  rfl

@[simp]
theorem squeeze_skipBlanks (s : List Char) : squeeze (skipBlanks s) = squeeze s := by
  induction s with
  | nil => rfl
  | cons c s ih =>
      cases hc : isBlank c with
      | true =>
          rw [squeeze_cons_of_blank hc, ← ih]
          simp [skipBlanks, hc]
      | false => simp [skipBlanks, hc]

theorem startsSolid_squeeze (s : List Char) : StartsSolid (squeeze s) := by
  induction s with
  | nil => exact startsSolid_nil
  | cons c s ih =>
      cases hc : isBlank c with
      | true => rwa [squeeze_cons_of_blank hc]
      | false =>
          rw [squeeze_cons_of_solid hc]
          exact startsSolid_cons.mpr hc

/-- A squeezed text does not start with a blank. -/
@[simp]
theorem skipBlanks_squeeze (s : List Char) : skipBlanks (squeeze s) = squeeze s :=
  skipBlanks_of_startsSolid (startsSolid_squeeze s)

/-- Squeezing leaves the first character as it is. -/
theorem head?_squeeze {s : List Char} (h : StartsSolid s) : (squeeze s).head? = s.head? := by
  cases s with
  | nil => rfl
  | cons c s => rw [squeeze_cons_of_solid (startsSolid_cons.mp h), List.head?_cons, List.head?_cons]

theorem isEmpty_squeeze {s : List Char} (h : StartsSolid s) : (squeeze s).isEmpty = s.isEmpty := by
  cases s with
  | nil => rfl
  | cons c s =>
      rw [squeeze_cons_of_solid (startsSolid_cons.mp h), List.isEmpty_cons, List.isEmpty_cons]

theorem take_one_squeeze {s : List Char} (h : StartsSolid s) : (squeeze s).take 1 = s.take 1 := by
  rw [List.take_one, List.take_one, head?_squeeze h]

/-! ### Rests of a text -/

/-- The text `s` ends with `u`, which starts outside of its literals. -/
def Clear (s u : Input) : Prop := ∃ lead, s = lead ++ u ∧ Place.outside.after lead = .outside

namespace Clear

variable {s u v : Input}

theorem refl (s : Input) : Clear s s := ⟨[], rfl, rfl⟩

theorem trans (h : Clear s u) (h' : Clear u v) : Clear s v := by
  obtain ⟨lead, rfl, hlead⟩ := h
  obtain ⟨lead', rfl, hlead'⟩ := h'
  refine ⟨lead ++ lead', by simp, ?_⟩
  rw [Place.after, List.foldl_append]
  exact (congrArg (Place.after · lead') hlead).trans hlead'

theorem cons {c : Char} (hc : isQuote c = false) (h : Clear s u) : Clear (c :: s) u := by
  refine trans ⟨[c], rfl, ?_⟩ h
  exact behind_outside hc

theorem skipBlanks (s : Input) : Clear s (skipBlanks s) := by
  induction s with
  | nil => exact .refl []
  | cons c s ih =>
      cases hc : isBlank c with
      | true =>
          rw [show Text.skipBlanks (c :: s) = Text.skipBlanks s by simp [Text.skipBlanks, hc]]
          exact .cons (isQuote_of_isBlank hc) ih
      | false =>
          rw [skipBlanks_of_startsSolid (startsSolid_cons.mpr hc)]
          exact .refl _

theorem accept {c : Char} (hc : isQuote c = false) {rest : Shorter s}
    (h : accept c s = some rest) : Clear s rest.1 := by
  unfold Lexeme.accept at h
  split at h
  · cases h
  · split at h
    · next d s heq =>
      obtain rfl := Option.some.inj h
      exact .cons (heq ▸ hc) (.skipBlanks _)
    · cases h

/-- A text that ends outside of its literals is squeezed in front of that place and behind it. -/
theorem squeeze (h : Clear s u) :
    ∃ lead, s = lead ++ u ∧ squeeze s = Grammar.squeeze lead ++ Grammar.squeeze u := by
  obtain ⟨lead, rfl, hlead⟩ := h
  refine ⟨lead, rfl, ?_⟩
  rw [Grammar.squeeze, squeezeFrom_append, hlead]
  rfl

end Clear

/-! ### Lexemes -/

/-- Marks are accepted alike with and without the blanks. -/
theorem accept_squeeze {c : Char} (hc : isQuote c = false) {s : Input} (hs : StartsSolid s) :
    (accept c (squeeze s)).map Subtype.val =
      (accept c s).map fun rest => squeeze rest.1 := by
  cases s with
  | nil => rfl
  | cons d s =>
      have hd : isBlank d = false := startsSolid_cons.mp hs
      rw [squeeze_cons_of_solid hd]
      by_cases h : d = c
      · subst h
        simp [accept, behind_outside hc, ← squeeze.eq_1]
      · simp [accept, h]

theorem startsSolid_accept {c : Char} {s : Input} {rest : Shorter s}
    (h : accept c s = some rest) : StartsSolid rest.1 := by
  unfold accept at h
  split at h
  · cases h
  · split at h
    · obtain rfl := Option.some.inj h
      exact startsSolid_skipBlanks _
    · cases h

theorem clear_bareName (s : Input) : Clear s (bareName s).2 := by
  fun_induction bareName s with
  | case1 => exact .refl _
  | case2 c s hc name rest hs ih =>
      rw [hs] at ih
      exact ih.cons (isQuote_of_isNameChar hc)
  | case3 c s _ hc ih => exact ih.cons (isQuote_of_isBlank hc)
  | case4 => exact .refl _

/-- Blanks inside of a name do not count. -/
theorem bareName_squeeze (s : Input) :
    bareName (squeeze s) = ((bareName s).1, squeeze (bareName s).2) := by
  fun_induction bareName s with
  | case1 => rfl
  | case2 c s hc name rest hs ih =>
      rw [hs] at ih
      rw [squeeze_cons (isBlank_of_isNameChar hc) (isQuote_of_isNameChar hc)]
      simp [bareName, hc, ih]
  | case3 c s _ hc ih => rw [squeeze_cons_of_blank hc, ih]
  | case4 c s hc hblank =>
      rw [squeeze_cons_of_solid (by simpa using hblank)]
      simp [bareName, hc, hblank]

theorem isBlank_of_continuesNumber {afterMark : Bool} {c : Char}
    (hc : continuesNumber afterMark c = true) : isBlank c = false := by
  simp only [continuesNumber, Bool.or_eq_true, isExponentMark, beq_iff_eq, Bool.and_eq_true] at hc
  rcases hc with (hc | rfl | rfl) | ⟨-, rfl | rfl⟩
  · exact isBlank_of_startsNumber hc
  all_goals decide

theorem clear_numberRun (afterMark : Bool) (s : Input) : Clear s (numberRun afterMark s).2 := by
  fun_induction numberRun afterMark s with
  | case1 => exact .refl _
  | case2 afterMark c s hc digits rest hs ih =>
      rw [hs] at ih
      exact ih.cons (isQuote_of_continuesNumber hc)
  | case3 afterMark c s _ hc ih => exact ih.cons (isQuote_of_isBlank hc)
  | case4 => exact .refl _

/-- Nor do those inside of a number. -/
theorem numberRun_squeeze (afterMark : Bool) (s : Input) :
    numberRun afterMark (squeeze s) =
      ((numberRun afterMark s).1, squeeze (numberRun afterMark s).2) := by
  fun_induction numberRun afterMark s with
  | case1 => rfl
  | case2 afterMark c s hc digits rest hs ih =>
      rw [hs] at ih
      rw [squeeze_cons (isBlank_of_continuesNumber hc) (isQuote_of_continuesNumber hc)]
      simp [numberRun, hc, ih]
  | case3 afterMark c s _ hc ih => rw [squeeze_cons_of_blank hc, ih]
  | case4 afterMark c s hc hblank =>
      rw [squeeze_cons_of_solid (by simpa using hblank)]
      simp [numberRun, hc, hblank]

/-- What stands between two quotes, with the quote that closes. -/
theorem after_upTo {quote : Char} {s : Input} {r : List Char × Input}
    (h : upTo quote s = some r) :
    ∃ lead, s = lead ++ r.2 ∧ (Place.inName quote).after lead = .outside := by
  induction s generalizing r with
  | nil => cases h
  | cons c s ih =>
      unfold upTo at h
      split at h
      · next hc =>
        obtain rfl := Option.some.inj h
        obtain ⟨lead, hs, hlead⟩ := Clear.skipBlanks s
        refine ⟨c :: lead, congrArg (c :: ·) hs, ?_⟩
        simpa [Place.after, Place.behind, hc] using hlead
      · next hc =>
        obtain ⟨r', hr', rfl⟩ := Option.map_eq_some_iff.mp h
        obtain ⟨lead, hs, hlead⟩ := ih hr'
        refine ⟨c :: lead, congrArg (c :: ·) hs, ?_⟩
        simpa [Place.after, Place.behind, hc] using hlead

/-- Between quotes blanks count, so a quoted name stays the same. -/
theorem upTo_squeeze (quote : Char) (s : Input) :
    upTo quote (squeezeFrom (.inName quote) s) =
      (upTo quote s).map fun r => (r.1, squeeze r.2) := by
  induction s with
  | nil => rfl
  | cons c s ih =>
      by_cases hc : c = quote
      · subst hc
        simp [squeezeFrom, upTo, Place.behind, ← squeeze.eq_1]
      · simp [squeezeFrom, upTo, Place.behind, hc, ih, Function.comp_def]

/-- The rest of a string, with the quote that closes it. -/
theorem after_stringBody {escaped : Bool} {s : Input} {r : List Char × Input}
    (h : stringBody escaped s = some r) :
    ∃ lead, s = lead ++ r.2 ∧ (Place.inString escaped).after lead = .outside := by
  induction s generalizing escaped r with
  | nil => cases h
  | cons c s ih =>
      unfold stringBody at h
      split at h
      · next hc =>
        obtain rfl := Option.some.inj h
        obtain ⟨lead, hs, hlead⟩ := Clear.skipBlanks s
        refine ⟨c :: lead, congrArg (c :: ·) hs, ?_⟩
        simpa [Place.after, Place.behind, hc] using hlead
      · next hc =>
        have hbehind : (Place.inString escaped).behind c = .inString (c == '\\') := by
          simp only [Place.behind, if_neg hc]
        split at h
        · next hbackslash =>
          obtain ⟨lead, hs, hlead⟩ := ih h
          refine ⟨c :: lead, congrArg (c :: ·) hs, ?_⟩
          rw [Place.after, List.foldl_cons, hbehind, hbackslash]
          exact hlead
        · next hbackslash =>
          obtain ⟨r', hr', rfl⟩ := Option.map_eq_some_iff.mp h
          obtain ⟨lead, hs, hlead⟩ := ih hr'
          refine ⟨c :: lead, congrArg (c :: ·) hs, ?_⟩
          rw [Place.after, List.foldl_cons, hbehind, beq_eq_false_iff_ne.mpr hbackslash]
          exact hlead

/-- And so does a string. -/
theorem stringBody_squeeze (escaped : Bool) (s : Input) :
    stringBody escaped (squeezeFrom (.inString escaped) s) =
      (stringBody escaped s).map fun r => (r.1, squeeze r.2) := by
  induction s generalizing escaped with
  | nil => rfl
  | cons c s ih =>
      by_cases hc : c = '\x22' ∧ escaped = false
      · obtain ⟨rfl, rfl⟩ := hc
        simp [squeezeFrom, stringBody, Place.behind, ← squeeze.eq_1]
      · have hbehind : (Place.inString escaped).behind c = .inString (c == '\\') := by
          simp only [Place.behind, if_neg hc]
        by_cases hbackslash : c = '\\'
        · subst hbackslash
          simpa [squeezeFrom, stringBody, hbehind] using ih true
        · have hplain : (c == '\\') = false := beq_eq_false_iff_ne.mpr hbackslash
          simp [squeezeFrom, stringBody, hbehind, hplain, hc, hbackslash, ih, Function.comp_def]

end ProcessFormula.Grammar
