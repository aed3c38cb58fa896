import ProcessFormula.Number.Rounding
import ProcessFormula.Proofs.Number.Nearest

/-!
The exact number that a double stands for, and what depends on that number alone. A double is read as
a natural number exactly if it stands for one; negative zero stands for zero. Adding to negative zero
gives every double back as it is, zeros with their signs and NaN included.
-/

namespace ProcessFormula.Binary64

open Float.Model Float.Model.UnpackedFloat Float.Model.Format

/-- The rational number that a reading stands for, if it is finite. -/
def Reading.value? : Reading → Option ℚ
  | .nan | .infinite _ => none
  | .finite negative mantissa exponent =>
    some ((if negative then -1 else 1) * (mantissa * 2 ^ exponent))

/-- The rational number that a double stands for, if it is finite. -/
def value? (x : Float) : Option ℚ := (read x).value?

/-! ### Whole numbers -/

theorem mul_two_zpow_ofNat_eq_iff {mantissa k n : ℕ} :
    (mantissa : ℚ) * 2 ^ Int.ofNat k = n ↔ mantissa * Nat.pow 2 k = n := by
  rw [Int.ofNat_eq_natCast, zpow_natCast]
  exact_mod_cast Iff.rfl

theorem mul_two_zpow_negSucc_eq_iff {mantissa k n : ℕ} :
    (mantissa : ℚ) * 2 ^ Int.negSucc k = n ↔ mantissa = n * Nat.pow 2 (k + 1) := by
  have hpower : (2 : ℚ) ^ (k + 1) ≠ 0 := by positivity
  rw [zpow_negSucc, ← div_eq_mul_inv, div_eq_iff hpower]
  exact_mod_cast Iff.rfl

/-- A double is read as a natural number exactly if it stands for that number. -/
theorem natural?_eq_some_iff {x : Float} {n : ℕ} :
    natural? x = some n ↔ value? x = some (n : ℚ) := by
  unfold natural? value?
  cases read x with
  | nan => simp [Reading.value?]
  | infinite negative => simp [Reading.value?]
  | finite negative mantissa exponent =>
      dsimp only [Reading.value?]
      by_cases hnegative : negative = true ∧ mantissa ≠ 0
      · obtain ⟨rfl, hmantissa⟩ := hnegative
        have hpos : (0 : ℚ) < mantissa * 2 ^ exponent :=
          mul_pos (Nat.cast_pos.mpr (Nat.pos_of_ne_zero hmantissa)) (two_zpow_pos exponent)
        have hn : (0 : ℚ) ≤ n := n.cast_nonneg
        have hne : -((mantissa : ℚ) * 2 ^ exponent) ≠ n := by linarith
        simp [hmantissa, hne]
      · -- The sign counts only in front of a number that is not zero.
        have hsign : (if negative then (-1 : ℚ) else 1) * (mantissa * 2 ^ exponent) =
            mantissa * 2 ^ exponent := by
          cases negative with
          | false => simp
          | true =>
              obtain rfl : mantissa = 0 := by simpa using hnegative
              simp
        have hguard : (negative && mantissa != 0) = false := by simpa using hnegative
        rw [hguard, if_neg Bool.false_ne_true, hsign, Option.some.injEq]
        cases exponent with
        | ofNat k => rw [mul_two_zpow_ofNat_eq_iff, Option.some.injEq]
        | negSucc k =>
            have hpower : 0 < Nat.pow 2 (k + 1) := Nat.two_pow_pos (k + 1)
            rw [mul_two_zpow_negSucc_eq_iff]
            dsimp only
            split
            · next hdivides =>
              rw [Option.some.injEq, Nat.div_eq_iff_eq_mul_left hpower (Nat.dvd_of_mod_eq_zero hdivides)]
            · next hrest =>
              simp only [reduceCtorEq, false_iff]
              rintro rfl
              exact hrest (Nat.mul_mod_left _ _)

/-! ### Negative zero -/

/-- Negative zero is neutral also for the signs of zeros. -/
theorem negZero_add (x : Float) : -0.0 + x = x := by
  have hzero : (-0.0 : Float).toModel.unpack = .zero .negative := rfl
  have hadd : UnpackedFloat.add binary64 (.zero .negative) x.toModel.unpack =
      x.toModel.unpack := by
    cases x.toModel.unpack with
    | zero sign => cases sign <;> rfl
    | notANumber | infinity | finite => rfl
  rw [← Float.toBits_inj, ← UInt64.toBitVec_inj]
  show UnpackedFloat.pack binary64 (UnpackedFloat.add binary64 (-0.0 : Float).toModel.unpack
    x.toModel.unpack) = _
  rw [hzero, hadd]
  exact pack_unpack_of_valid x.toModel.valid

end ProcessFormula.Binary64
