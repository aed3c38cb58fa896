import Mathlib.Algebra.Ring.Nat
import Mathlib.Data.List.TakeDrop
import Mathlib.Data.List.TakeWhile
import ProcessFormula.Number.Layout
import ProcessFormula.Proofs.Grammar.Lexical

/-!
Decimal digits and the numbers that they write. The significant digits of a decimal are its digits
without the zeros at the end, and the place of the point makes up for the zeros.
-/

namespace ProcessFormula

namespace Decimal

theorem ofDigits_eq (s : List Char) : ofDigits s = Nat.ofDigitChars 10 s 0 := rfl

/-- The digits of a number stand for this number. -/
@[simp] theorem ofDigits_toDigits (n : Nat) : ofDigits (Nat.toDigits 10 n) = n :=
  Nat.ofDigitChars_ten_toDigits

/-- Each zero behind the digits multiplies their number by ten. -/
theorem ofDigits_append_zeros (s : List Char) (count : Nat) :
    ofDigits (s ++ List.replicate count '0') = ofDigits s * 10 ^ count := by
  rw [ofDigits_eq, Nat.ofDigitChars_append, Nat.ofDigitChars_replicate_zero, Nat.mul_comm]
  rfl

theorem ofDigits_zeros_append (s : List Char) (count : Nat) :
    ofDigits (List.replicate count '0' ++ s) = ofDigits s := by
  rw [ofDigits_eq, Nat.ofDigitChars_append, Nat.ofDigitChars_replicate_zero, Nat.mul_zero]
  rfl

theorem digits_toDigits (n : Nat) : Grammar.Digits (Nat.toDigits 10 n) :=
  ⟨Nat.toDigits_ne_nil, fun _ hc => Nat.isDigit_of_mem_toDigits (by decide) (by decide) hc⟩

/-- A positive number is not written with a zero in front. -/
theorem head?_toDigits_ne {n : Nat} (hpos : 0 < n) : (Nat.toDigits 10 n).head? ≠ some '0' := by
  induction n using Nat.strongRecOn with
  | ind n ih =>
      rw [Nat.toDigits_eq_if (by decide)]
      split
      · next hlt =>
        have hdigit : ∀ m, m < 10 → 0 < m → Nat.digitChar m ≠ '0' := by decide
        simpa using hdigit n hlt hpos
      · next hlarge =>
        have hquotient : 0 < n / 10 := by omega
        rw [List.head?_append, Option.or_of_isSome (by simp [Nat.toDigits_ne_nil])]
        exact ih (n / 10) (by omega) hquotient

theorem digits_zero : Grammar.Digits ['0'] := ⟨by simp, by simp⟩

end Decimal

def Digits.decimal (d : Digits) : Decimal :=
  ⟨Decimal.ofDigits d.digits, d.point - d.digits.length⟩

/-- Digits of which the first is not zero. -/
structure Digits.Normal (d : Digits) : Prop where
  digits : Grammar.Digits d.digits
  head : d.digits.head? ≠ some '0'

namespace Decimal

/-- The second decimal is the first one with more zeros at the end. -/
def PaddedTo (d padded : Decimal) : Prop :=
  ∃ zeros : Nat, padded.coefficient = d.coefficient * 10 ^ zeros ∧
    padded.exponent = d.exponent - zeros

theorem PaddedTo.refl (d : Decimal) : d.PaddedTo d := ⟨0, by simp⟩

/-- Zeros at the end, cut off. -/
private theorem exists_zeros (s : List Char) :
    ∃ zeros, s = (s.reverse.dropWhile (· == '0')).reverse ++ List.replicate zeros '0' := by
  have hzeros : ∀ c ∈ s.reverse.takeWhile (· == '0'), c = '0' := by
    intro c hc
    simpa using List.mem_takeWhile_imp hc
  refine ⟨(s.reverse.takeWhile (· == '0')).length, ?_⟩
  have hreplicate := List.eq_replicate_of_mem hzeros
  calc
    s = s.reverse.reverse := s.reverse_reverse.symm
    _ = (s.reverse.takeWhile (· == '0') ++ s.reverse.dropWhile (· == '0')).reverse := by
      rw [List.takeWhile_append_dropWhile]
    _ = _ := by
      rw [List.reverse_append]
      congr 1
      rw [hreplicate, List.reverse_replicate, List.length_replicate]

private theorem toDigits_eq (d : Decimal) :
    ∃ zeros, Nat.toDigits 10 d.coefficient =
      d.significant.digits ++ List.replicate zeros '0' :=
  exists_zeros _

/-- The significant digits of a positive number neither begin nor end with zero. -/
theorem significant_normal {d : Decimal} (hpos : 0 < d.coefficient) : d.significant.Normal := by
  obtain ⟨zeros, hzeros⟩ := toDigits_eq d
  have hall := digits_toDigits d.coefficient
  have hnil : d.significant.digits ≠ [] := by
    intro hnil
    have hwritten := ofDigits_toDigits d.coefficient
    rw [hzeros, hnil, ofDigits_append_zeros] at hwritten
    simp [ofDigits] at hwritten
    omega
  constructor
  · refine ⟨hnil, fun c hc => hall.2 c ?_⟩
    rw [hzeros]
    exact List.mem_append_left _ hc
  · have hhead := head?_toDigits_ne hpos
    rw [hzeros, List.head?_append, Option.or_of_isSome (List.isSome_head?.mpr hnil)] at hhead
    exact hhead

/-- The significant digits lose only zeros at the end. -/
theorem significant_paddedTo (d : Decimal) : d.significant.decimal.PaddedTo d := by
  obtain ⟨zeros, hzeros⟩ := toDigits_eq d
  refine ⟨zeros, ?_, ?_⟩
  · have hwritten := ofDigits_toDigits d.coefficient
    rw [hzeros, ofDigits_append_zeros] at hwritten
    exact hwritten.symm
  · have hlength := congrArg List.length hzeros
    rw [List.length_append, List.length_replicate] at hlength
    have hpoint : d.significant.point =
        d.exponent + (Nat.toDigits 10 d.coefficient).length := rfl
    simp only [Digits.decimal, hpoint]
    omega

end Decimal

end ProcessFormula
