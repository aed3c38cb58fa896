import ProcessFormula.Json.Reader
import ProcessFormula.Json.Writer
import ProcessFormula.Proofs.Number.Numeral

/-!
Strings and numbers in JSON text. The reader takes a string back to its characters, whichever of
them are escaped, and takes a number literal as a whole, if what follows does not continue it.
-/

namespace ProcessFormula.Json

/-- A piece of a string literal that the writer puts for a character. -/
def Piece.Writes (c : Char) (p : Piece) : Prop :=
  p = .char c ∨ p = .unit c.toNat ∧ c.toNat < 0x20

theorem hexNumber?_control {n : Nat} (h : n < 0x20) :
    hexNumber? ['0', '0', Nat.digitChar (n / 16), Nat.digitChar (n % 16)] = some n := by
  have hall : ∀ n < 0x20,
      hexNumber? ['0', '0', Nat.digitChar (n / 16), Nat.digitChar (n % 16)] = some n := by decide
  exact hall n h

theorem pieces_letter {letter c : Char} (h : escaped? letter = some c) (hu : letter ≠ 'u')
    (s : List Char) :
    pieces ('\\' :: letter :: s) = (pieces s).map fun r => (.char c :: r.1, r.2) := by
  rw [pieces, h]
  · rfl
  · intro a b c d s' heq
    exact absurd heq hu

theorem pieces_plain {c : Char} (hquote : c ≠ '\x22') (hbackslash : c ≠ '\\')
    (hprints : ¬ c.toNat < 0x20) (s : List Char) :
    pieces (c :: s) = (pieces s).map fun r => (.char c :: r.1, r.2) := by
  rw [pieces, if_neg hquote, if_neg (by simp [hprints, hbackslash])]
  · intro a b c' d s' heq
    exact absurd heq hbackslash
  · intro e s' heq
    exact absurd heq hbackslash

/-- Every character is written as one piece. -/
theorem pieces_escape (c : Char) (s : List Char) :
    ∃ p, Piece.Writes c p ∧ pieces (escape c ++ s) = (pieces s).map fun r => (p :: r.1, r.2) := by
  unfold escape
  split
  · exact ⟨_, .inl rfl, pieces_letter (by decide) (by decide) s⟩
  · exact ⟨_, .inl rfl, pieces_letter (by decide) (by decide) s⟩
  · exact ⟨_, .inl rfl, pieces_letter (by decide) (by decide) s⟩
  · exact ⟨_, .inl rfl, pieces_letter (by decide) (by decide) s⟩
  · exact ⟨_, .inl rfl, pieces_letter (by decide) (by decide) s⟩
  · exact ⟨_, .inl rfl, pieces_letter (by decide) (by decide) s⟩
  · exact ⟨_, .inl rfl, pieces_letter (by decide) (by decide) s⟩
  · next hquote hbackslash _ _ _ _ _ =>
    split
    · next hcontrol =>
      refine ⟨_, .inr ⟨rfl, hcontrol⟩, ?_⟩
      simp [pieces, hexNumber?_control hcontrol]
    · next hprints => exact ⟨_, .inl rfl, pieces_plain hquote hbackslash hprints s⟩

theorem pieces_escaped (cs rest : List Char) :
    ∃ ps, List.Forall₂ Piece.Writes cs ps ∧
      pieces (cs.flatMap escape ++ '\x22' :: rest) = some (ps, rest) := by
  induction cs with
  | nil => exact ⟨[], .nil, by simp [pieces]⟩
  | cons c cs ih =>
      obtain ⟨ps, hps, hread⟩ := ih
      obtain ⟨p, hp, hstep⟩ := pieces_escape c (cs.flatMap escape ++ '\x22' :: rest)
      refine ⟨p :: ps, .cons hp hps, ?_⟩
      rw [List.flatMap_cons, List.append_assoc, hstep, hread]
      rfl

theorem joinPieces_control {n : Nat} (h : n < 0x20) (ps : List Piece) :
    joinPieces (.unit n :: ps) = (joinPieces ps).map (Char.ofNat n :: ·) := by
  have hhigh : isHighSurrogate n = false := by
    simp [isHighSurrogate]
    omega
  have hlow : isLowSurrogate n = false := by
    simp [isLowSurrogate]
    omega
  cases ps with
  | nil => simp [joinPieces, hhigh, hlow]
  | cons p ps => cases p <;> simp [joinPieces, hhigh, hlow, Function.comp_def]

/-- The pieces of a text join to its characters, since the writer never writes half of a surrogate
pair. -/
theorem joinPieces_of_writes {cs : List Char} {ps : List Piece}
    (h : List.Forall₂ Piece.Writes cs ps) : joinPieces ps = some cs := by
  induction h with
  | nil => rfl
  | @cons c p cs ps hp _ ih =>
      rcases hp with rfl | ⟨rfl, hcontrol⟩
      · simp [joinPieces, ih]
      · rw [joinPieces_control hcontrol, ih, Char.ofNat_toNat]
        rfl

def NumberText (s : List Char) : Prop :=
  ∃ (negative : Bool) (body : List Char) (n : Decimal),
    s = (if negative then ['-'] else []) ++ body ∧ Numeral body n

def EndsNumber (rest : List Char) : Prop :=
  ∀ c ∈ rest.head?, c.isDigit = false ∧ c ≠ '.' ∧ c ≠ 'e' ∧ c ≠ 'E'

theorem someDigits_append {digits rest : List Char} (hdigits : Grammar.Digits digits)
    (hrest : ∀ c ∈ rest.head?, c.isDigit = false) :
    someDigits (digits ++ rest) = some (digits, rest) := by
  simp only [someDigits, Grammar.spanDigits hdigits.2 hrest]
  rw [if_neg (by simpa using hdigits.1)]

theorem wholeDigits_append {digits rest : List Char} (hdigits : Grammar.Digits digits)
    (hlead : digits = ['0'] ∨ digits.head? ≠ some '0')
    (hrest : ∀ c ∈ rest.head?, c.isDigit = false) :
    wholeDigits (digits ++ rest) = some (digits, rest) := by
  rw [wholeDigits, someDigits_append hdigits hrest, Option.filter_some, if_pos]
  simpa using hlead

theorem fractionPart_append {fraction rest : List Char}
    (hfraction : ∀ c ∈ fraction, c.isDigit = true)
    (hrest : ∀ c ∈ rest.head?, c.isDigit = false ∧ c ≠ '.') :
    fractionPart (fractionText fraction ++ rest) = some (fractionText fraction, rest) := by
  unfold fractionText
  split
  · unfold fractionPart
    split
    · next t heq =>
      have hpoint : rest = '.' :: t := by simpa using heq
      exact absurd rfl (hrest '.' (by simp [hpoint])).2
    · simp
  · next hsome =>
    have hdigits := someDigits_append ⟨hsome, hfraction⟩ fun c hc => (hrest c hc).1
    simp [fractionPart, hdigits]

theorem exponentPart_append {tail rest : List Char} {e : Int} (htail : Grammar.Exponent tail e)
    (hrest : EndsNumber rest) : exponentPart (tail ++ rest) = some (tail, rest) := by
  have hnoDigit : ∀ c ∈ rest.head?, c.isDigit = false := fun c hc => (hrest c hc).1
  cases htail with
  | absent =>
      cases rest with
      | nil => rfl
      | cons c rest =>
          obtain ⟨-, -, hlower, hupper⟩ := hrest c (by simp)
          simp [exponentPart, hlower, hupper]
  | @unsigned mark digits hmark hdigits =>
      have hread := someDigits_append hdigits hnoDigit
      obtain ⟨d, digits, rfl⟩ := List.exists_cons_of_ne_nil hdigits.1
      have hd : d.isDigit = true := hdigits.2 d (by simp)
      show exponentPart (mark :: (d :: digits ++ rest)) = _
      simp only [exponentPart, if_pos hmark]
      split
      · next heq =>
        obtain ⟨rfl, -⟩ : d = '+' ∧ _ := by simpa using heq
        cases hd
      · next heq =>
        obtain ⟨rfl, -⟩ : d = '-' ∧ _ := by simpa using heq
        cases hd
      · simpa using hread
  | plus hmark hdigits =>
      simp [exponentPart, hmark, someDigits_append hdigits hnoDigit]
  | minus hmark hdigits =>
      simp [exponentPart, hmark, someDigits_append hdigits hnoDigit]

theorem EndsNumber.exponent {tail rest : List Char} {e : Int} (htail : Grammar.Exponent tail e)
    (hrest : EndsNumber rest) : ∀ c ∈ (tail ++ rest).head?, c.isDigit = false ∧ c ≠ '.' := by
  intro c hc
  cases htail with
  | absent => exact ⟨(hrest c hc).1, (hrest c hc).2.1⟩
  | unsigned hmark | plus hmark | minus hmark =>
      obtain rfl : _ = c := by simpa using hc
      rcases hmark with rfl | rfl <;> decide

/-- A number literal is read as far as it goes. -/
theorem numberLiteral_append {s rest : List Char} (h : NumberText s) (hrest : EndsNumber rest) :
    numberLiteral (s ++ rest) = some (s, rest) := by
  obtain ⟨negative, body, n, rfl, hbody⟩ := h
  obtain @⟨whole, fraction, tail, e, hwhole, hlead, hfraction, htail⟩ := hbody
  have hexponent := exponentPart_append htail hrest
  have hbehind := hrest.exponent htail
  have hfractionRead := fractionPart_append hfraction hbehind
  have hwholeRead : wholeDigits (whole ++ (fractionText fraction ++ (tail ++ rest))) =
      some (whole, fractionText fraction ++ (tail ++ rest)) := by
    refine wholeDigits_append hwhole hlead fun c hc => ?_
    unfold fractionText at hc
    split at hc
    · exact (hbehind c hc).1
    · obtain rfl : '.' = c := by simpa using hc
      rfl
  unfold numberLiteral
  cases negative with
  | true => simp [hwholeRead, hfractionRead, hexponent]
  | false =>
      obtain ⟨d, whole, rfl⟩ := List.exists_cons_of_ne_nil hwhole.1
      have hd : d.isDigit = true := hwhole.2 d (by simp)
      dsimp only
      split
      · next t heq =>
        obtain ⟨rfl, -⟩ : d = '-' ∧ _ = t := by simpa using heq
        cases hd
      · rw [List.cons_append] at hwholeRead
        simp [hwholeRead, hfractionRead, hexponent]

end ProcessFormula.Json
