import ProcessFormula.Proofs.Number.Nearest
import ProcessFormula.Proofs.Number.Numeral

/-!
The text of a finite double reads back as that double. The bits that a decimal reads as depend on
its value alone, so zeros at its end do not count; the search for the shortest decimal ends with one
that reads back, or with the exact decimal, which always does.
-/

namespace ProcessFormula

namespace Decimal

def value (d : Decimal) : ℚ := d.coefficient * 10 ^ d.exponent

/-- The value of a decimal is the ratio that is computed for it. -/
theorem ratio_eq (d : Decimal) :
    0 < d.ratio.2 ∧ (d.ratio.1 : ℚ) / d.ratio.2 = d.value := by
  obtain ⟨coefficient, exponent⟩ := d
  cases exponent with
  | ofNat k => simp [ratio, value]
  | negSucc k =>
      refine ⟨Nat.pow_pos (by decide), ?_⟩
      simp [ratio, value, zpow_negSucc, div_eq_mul_inv]

theorem value_eq_zero_iff {d : Decimal} : d.value = 0 ↔ d.coefficient = 0 := by
  simp [value, zpow_ne_zero]

theorem value_pos {d : Decimal} (h : d.coefficient ≠ 0) : 0 < d.value :=
  mul_pos (Nat.cast_pos.mpr (Nat.pos_of_ne_zero h)) (zpow_pos (by norm_num) _)

/-- A decimal with a large exponent overflows. -/
theorem value_large {d : Decimal} (h : d.coefficient ≠ 0) (hexponent : 310 < d.exponent) :
    2 ^ (1024 : ℤ) ≤ d.value := by
  have hcoefficient : (1 : ℚ) ≤ d.coefficient := by
    exact_mod_cast Nat.pos_of_ne_zero h
  have hpowers : 2 ^ 1024 ≤ 10 ^ 310 := by decide +kernel
  calc (2 : ℚ) ^ (1024 : ℤ)
    _ ≤ 10 ^ (310 : ℤ) := by exact_mod_cast hpowers
    _ ≤ 10 ^ d.exponent := zpow_le_zpow_right₀ (by norm_num) hexponent.le
    _ ≤ d.value := le_mul_of_one_le_left (zpow_pos (by norm_num) _).le hcoefficient

/-- A decimal with a small exponent is below half of the least double. -/
theorem value_small {d : Decimal} (hexponent : d.exponent + d.coefficient.log2 + 331 < 0) :
    d.value < 2 ^ (-1075 : ℤ) := by
  have hten : (0 : ℚ) < 10 ^ d.exponent := zpow_pos (by norm_num) _
  have hcoefficient : (d.coefficient : ℚ) < 10 ^ ((d.coefficient.log2 : ℤ) + 1) := by
    refine (Binary64.lt_zpow_log2 d.coefficient).trans_le ?_
    exact zpow_le_zpow_left₀ (by omega) (by norm_num) (by norm_num)
  have hpowers : 2 ^ 1075 < 10 ^ 331 := by decide +kernel
  calc d.value
    _ < 10 ^ ((d.coefficient.log2 : ℤ) + 1) * 10 ^ d.exponent :=
        mul_lt_mul_of_pos_right hcoefficient hten
    _ = 10 ^ ((d.coefficient.log2 : ℤ) + 1 + d.exponent) := (zpow_add₀ (by norm_num) _ _).symm
    _ ≤ 10 ^ (-331 : ℤ) := zpow_le_zpow_right₀ (by norm_num) (by omega)
    _ < 2 ^ (-1075 : ℤ) := by
        rw [zpow_neg, zpow_neg]
        exact inv_strictAnti₀ (zpow_pos (by norm_num) _) (by exact_mod_cast hpowers)

/-- A decimal reads as the double nearest to its value, also where its exponent alone decides. -/
theorem magnitude_eq (d : Decimal) : d.magnitude = Binary64.nearestBits d.value := by
  obtain ⟨hpos, hratio⟩ := d.ratio_eq
  unfold magnitude
  split_ifs with hzero hlarge hsmall
  · rw [value_eq_zero_iff.mpr hzero, Binary64.nearestBits, if_pos rfl]
  · exact (Binary64.nearestBits_large (value_large hzero hlarge)).symm
  · exact (Binary64.nearestBits_small (value_pos hzero) (value_small hsmall)).symm
  · rw [Binary64.magnitudeOf_eq _ hpos, hratio]

theorem PaddedTo.value_eq {d padded : Decimal} (h : d.PaddedTo padded) :
    padded.value = d.value := by
  obtain ⟨zeros, hcoefficient, hexponent⟩ := h
  have hten : (10 : ℚ) ^ zeros ≠ 0 := by positivity
  rw [value, value, hcoefficient, hexponent, zpow_sub₀ (by norm_num), zpow_natCast]
  push_cast
  field_simp

/-- The exact decimal of a double has the double's value. -/
theorem exact_value (mantissa : ℕ) (exponent : ℤ) :
    (exact mantissa exponent).value = mantissa * 2 ^ exponent := by
  cases exponent with
  | ofNat k => simp [exact, value]
  | negSucc k =>
      have hten : (10 : ℚ) ^ (k + 1) = 2 ^ (k + 1) * 5 ^ (k + 1) := by
        rw [← mul_pow]
        norm_num
      have hexponent : -((k : ℤ) + 1) = -((k + 1 : ℕ) : ℤ) := by
        push_cast
        rfl
      simp only [exact, value, hexponent, zpow_neg, zpow_natCast, zpow_negSucc, hten, Nat.pow_eq]
      push_cast
      field_simp

/-- The shortest decimal of a finite double has the double as the nearest one. -/
theorem magnitude_shortest (tie : Tie) {x : Float} {negative : Bool} {mantissa : ℕ} {exponent : ℤ}
    (h : Binary64.read x = .finite negative mantissa exponent) :
    (shortest tie (exact mantissa exponent) (Binary64.magnitude x)).magnitude =
      Binary64.magnitude x := by
  rcases shortest_cases tie (exact mantissa exponent) (Binary64.magnitude x) with hread | hexact
  · exact hread
  · rw [hexact, magnitude_eq, exact_value, Binary64.nearestBits_of_read h]

/-- The sign of a decimal is the sign of the double. -/
theorem toFloat_true (d : Decimal) : d.toFloat true = -d.toFloat false := by
  have hle : d.magnitude ≤ Binary64.infinityBits := by
    rw [magnitude_eq, Binary64.nearestBits]
    split
    · exact Nat.zero_le _
    · exact min_le_left _ _
  rcases hle.lt_or_eq with hlt | heq
  · exact (Binary64.neg_ofMagnitude false hlt).symm
  · rw [toFloat, toFloat, heq]
    rfl

end Decimal

namespace Layout

/-- The text of a finite double is a sign and a numeral, and the double nearest to the numeral, with
the sign, is the double. -/
theorem text_readsBack {l : Layout} (hl : l.Pointed) {x : Float} (hx : x.isFinite = true) :
    ∃ (negative : Bool) (s : List Char) (n : Decimal),
      (l.text x).toList = (if negative then ['-'] else []) ++ s ∧ Numeral s n ∧
        x = if negative then -n.toFloat false else n.toFloat false := by
  obtain ⟨negative, mantissa, exponent, hread⟩ := Binary64.isFinite_iff.mp hx
  obtain ⟨s, n, htext, hnumeral, hvalue⟩ := text_of_read hl hread
  refine ⟨negative, s, n, htext, hnumeral, ?_⟩
  have hfinite := Binary64.magnitude_lt_of_read hread
  have hmagnitude : n.magnitude = Binary64.magnitude x := by
    split at hvalue
    · next hzero =>
      have hnearest := Binary64.nearestBits_of_read hread
      rw [hzero, Nat.cast_zero, zero_mul] at hnearest
      rw [Decimal.magnitude_eq, Decimal.value_eq_zero_iff.mpr hvalue, hnearest]
    · rw [Decimal.magnitude_eq, hvalue.value_eq, ← (Decimal.significant_paddedTo _).value_eq,
        ← Decimal.magnitude_eq, Decimal.magnitude_shortest l.tie hread]
  have hsame := Binary64.ofMagnitude_magnitude hfinite
  rw [Binary64.isNegative_of_read hread] at hsame
  rw [Decimal.toFloat, hmagnitude, Binary64.neg_ofMagnitude false hfinite, Bool.not_false]
  cases negative with
  | false => exact hsame.symm
  | true => exact hsame.symm

end Layout

end ProcessFormula
