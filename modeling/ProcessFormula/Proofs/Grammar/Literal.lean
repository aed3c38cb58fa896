import Mathlib.Data.List.TakeDrop
import Mathlib.Data.List.TakeWhile
import ProcessFormula.Proofs.Grammar.Lexical

/-!
The reader of decimal literals accepts exactly the decimal literals, each with the number that it
writes.
-/

namespace ProcessFormula.Grammar

open Decimal

/-- A run of digits is read up to the first character that is no digit. -/
theorem spanDigits {digits tail : List Char} (hdigits : ∀ c ∈ digits, c.isDigit = true)
    (htail : ∀ c ∈ tail.head?, c.isDigit = false) :
    (digits ++ tail).span Char.isDigit = (digits, tail) := by
  rw [List.span_eq_takeWhile_dropWhile, List.takeWhile_append_of_pos hdigits,
    List.dropWhile_append_of_pos hdigits]
  cases tail with
  | nil => simp
  | cons c rest =>
      have hc : c.isDigit = false := htail c (by simp)
      simp [hc]

private theorem span_isDigit (s : List Char) :
    s = (s.span Char.isDigit).1 ++ (s.span Char.isDigit).2 ∧
      (∀ c ∈ (s.span Char.isDigit).1, c.isDigit = true) ∧
      ∀ c ∈ (s.span Char.isDigit).2.head?, c.isDigit = false := by
  rw [List.span_eq_takeWhile_dropWhile]
  refine ⟨List.takeWhile_append_dropWhile.symm, fun c hc => List.mem_takeWhile_imp hc, ?_⟩
  intro c hc
  have hnot := List.head?_dropWhile_not Char.isDigit s
  rw [Option.mem_def] at hc
  simpa [hc] using hnot

/-- The exponent mark or nothing stands behind the digits of a literal. -/
private theorem Exponent.head {tail : List Char} {e : Int} (h : Exponent tail e) :
    ∀ c ∈ tail.head?, c.isDigit = false ∧ c ≠ '.' := by
  intro c hc
  cases h with
  | absent => simp at hc
  | unsigned hmark _ | plus hmark _ | minus hmark _ =>
      obtain rfl : _ = c := by simpa using hc
      rcases hmark with rfl | rfl <;> decide

private theorem digits_iff {s : List Char} :
    Digits s ↔ ¬ (s.isEmpty || !s.all Char.isDigit) = true := by
  simp [Digits]

theorem exponentPart?_eq_some_iff {tail : List Char} {e : Int} :
    exponentPart? tail = some e ↔ Exponent tail e := by
  constructor
  · intro h
    cases tail with
    | nil =>
        obtain rfl : 0 = e := by simpa [exponentPart?] using h
        exact .absent
    | cons mark s =>
        simp only [exponentPart?] at h
        split at h
        · next hmark =>
          split at h <;> (split at h; · cases h)
          · next hdigits =>
            obtain rfl := Option.some.inj h
            exact .minus hmark (digits_iff.mpr hdigits)
          · next hdigits =>
            obtain rfl := Option.some.inj h
            exact .plus hmark (digits_iff.mpr hdigits)
          · next hdigits =>
            obtain rfl := Option.some.inj h
            exact .unsigned hmark (digits_iff.mpr hdigits)
        · cases h
  · intro h
    cases h with
    | absent => rfl
    | unsigned hmark hdigits =>
        simp only [exponentPart?, if_pos hmark]
        split
        · exact absurd (hdigits.2 '-' (by simp)) (by decide)
        · exact absurd (hdigits.2 '+' (by simp)) (by decide)
        · rw [if_neg (digits_iff.mp hdigits)]
          rfl
    | plus hmark hdigits | minus hmark hdigits =>
        simp only [exponentPart?, if_pos hmark, if_neg (digits_iff.mp hdigits)]
        rfl

/-- What is read as a decimal literal is one. -/
theorem literal_of_literal? {s : List Char} {d : Decimal} (h : literal? s = some d) :
    Literal s d := by
  obtain ⟨hs, hwhole, hrest⟩ := span_isDigit s
  unfold literal? at h
  cases hspan : s.span Char.isDigit with
  | mk whole rest =>
      rw [hspan] at hs hwhole hrest h
      dsimp only at hs hwhole hrest h
      subst hs
      unfold splitFraction at h
      split at h
      · next t =>
        obtain ⟨ht, hfraction, -⟩ := span_isDigit t
        cases hspan' : t.span Char.isDigit with
        | mk fraction tail =>
            rw [hspan'] at ht hfraction h
            dsimp only at ht hfraction h
            subst ht
            split at h
            · cases h
            · next hsome =>
              obtain ⟨e, he, rfl⟩ := Option.map_eq_some_iff.mp h
              refine .pointed ⟨?_, ?_⟩ (exponentPart?_eq_some_iff.mp he)
              · intro hnil
                exact hsome (by simpa using hnil)
              · intro c hc
                rcases List.mem_append.mp hc with hc | hc
                · exact hwhole c hc
                · exact hfraction c hc
      · split at h
        · cases h
        · next hsome =>
          obtain ⟨e, he, rfl⟩ := Option.map_eq_some_iff.mp h
          have hdigits : Digits whole := ⟨by simpa using hsome, hwhole⟩
          simpa using Literal.whole hdigits (exponentPart?_eq_some_iff.mp he)

/-- And every decimal literal is read as the number that it writes. -/
theorem literal?_of_literal {s : List Char} {d : Decimal} (h : Literal s d) :
    literal? s = some d := by
  cases h with
  | @whole digits tail e hdigits htail =>
      have hspan : (digits ++ tail).span Char.isDigit = (digits, tail) :=
        spanDigits hdigits.2 fun c hc => (htail.head c hc).1
      have hfraction : splitFraction tail = ([], tail) := by
        unfold splitFraction
        split
        · exact absurd rfl (htail.head '.' (by simp)).2
        · rfl
      simp only [literal?, hspan, hfraction]
      rw [if_neg (by simpa using hdigits.1), exponentPart?_eq_some_iff.mpr htail]
      simp
  | @pointed whole fraction tail e hdigits htail =>
      have hwhole : ∀ c ∈ whole, c.isDigit = true :=
        fun c hc => hdigits.2 c (List.mem_append_left _ hc)
      have hfraction : ∀ c ∈ fraction, c.isDigit = true :=
        fun c hc => hdigits.2 c (List.mem_append_right _ hc)
      have hspan : (whole ++ '.' :: (fraction ++ tail)).span Char.isDigit =
          (whole, '.' :: (fraction ++ tail)) :=
        spanDigits hwhole (by simp)
      have hspan' : (fraction ++ tail).span Char.isDigit = (fraction, tail) :=
        spanDigits hfraction fun c hc => (htail.head c hc).1
      simp only [literal?, hspan, splitFraction, hspan']
      rw [if_neg (by simpa using hdigits.1), exponentPart?_eq_some_iff.mpr htail]
      rfl

end ProcessFormula.Grammar
