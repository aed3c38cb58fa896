import ProcessFormula.Proofs.Number.Arithmetic

/-!
How far rounding goes. From half a unit above the largest double on the nearest double is infinity.
Below that it adds half a unit in the last place at most, and a natural number that has room in a
mantissa is not changed.
-/

namespace ProcessFormula.Binary64

/-! ### Rounding to a natural number -/

/-- Rounding adds half a unit at most. -/
theorem roundHalfEven_le_add_half {q : ℚ} (hq : 0 ≤ q) : (roundHalfEven q : ℚ) ≤ q + 1 / 2 := by
  have hfloor : (⌊q⌋₊ : ℚ) ≤ q := Nat.floor_le hq
  unfold roundHalfEven
  split_ifs with hless hmore
  · linarith
  · push_cast
    linarith
  · have hrest : ((⌊q⌋₊ % 2 : ℕ) : ℚ) ≤ 1 := by exact_mod_cast (by omega : ⌊q⌋₊ % 2 ≤ 1)
    push_cast at hrest ⊢
    linarith

/-- Half a unit below an even number decides whether a number is rounded up to it. -/
theorem roundHalfEven_lt_iff {q : ℚ} (hq : 0 ≤ q) {n : ℕ} (heven : n % 2 = 0) :
    roundHalfEven q < n ↔ q < n - 1 / 2 := by
  have hfloor : (⌊q⌋₊ : ℚ) ≤ q := Nat.floor_le hq
  have hnext : q < ⌊q⌋₊ + 1 := Nat.lt_floor_add_one q
  rcases lt_trichotomy (⌊q⌋₊ + 1) n with hlt | heq | hgt
  · have hlt' : (⌊q⌋₊ : ℚ) + 2 ≤ n := by exact_mod_cast hlt
    refine iff_of_true ?_ (by linarith)
    unfold roundHalfEven
    split_ifs <;> omega
  · have heq' : (⌊q⌋₊ : ℚ) + 1 = n := by exact_mod_cast heq
    unfold roundHalfEven
    split_ifs with hless hmore
    · exact iff_of_true (by omega) (by linarith)
    · exact iff_of_false (by omega) (by linarith)
    · exact iff_of_false (by omega) (by linarith)
  · have hge : (n : ℚ) ≤ ⌊q⌋₊ := by exact_mod_cast Nat.le_of_lt_succ hgt
    exact iff_of_false (not_lt.mpr (le_roundHalfEven (hge.trans hfloor))) (by linarith)

/-! ### The nearest double -/

/-- Half a unit above the largest double. From here on numbers are rounded to infinity. -/
def overflowBound : ℚ := (2 ^ (54 : ℤ) - 1) * 2 ^ (970 : ℤ)

theorem overflowBound_pos : 0 < overflowBound := mul_pos (by norm_num) (two_zpow_pos 970)

theorem lt_overflowBound {k : ℤ} (hk : k ≤ 1023) : (2 : ℚ) ^ k < overflowBound := by
  calc (2 : ℚ) ^ k
    _ ≤ 2 ^ (53 + 970 : ℤ) := zpow_le_zpow_right₀ (by norm_num) hk
    _ = 2 ^ (53 : ℤ) * 2 ^ (970 : ℤ) := zpow_add₀ (by norm_num) 53 970
    _ < overflowBound := mul_lt_mul_of_pos_right (by norm_num) (two_zpow_pos 970)

/-- The number that the nearest double stands for, if there were no largest one. -/
def rounded (q : ℚ) : ℚ := roundedMantissa q * 2 ^ lastExponent q

@[simp] theorem rounded_zero : rounded 0 = 0 := by
  simp [rounded, roundedMantissa, roundHalfEven]

/-- In units of half the size the bound has one bit more. -/
theorem sub_half_mul_two (unit : ℚ) :
    (((Nat.pow 2 53 : ℕ) : ℚ) - 1 / 2) * (2 * unit) = (2 ^ (54 : ℤ) - 1) * unit := by
  norm_num
  ring

theorem two_zpow_971 : (2 : ℚ) ^ (971 : ℤ) = 2 * 2 ^ (970 : ℤ) :=
  zpow_one_add₀ (by norm_num) 970

theorem lt_overflowBound_of_lastExponent {q : ℚ} (hq : 0 < q) (h : lastExponent q < 971) :
    q < overflowBound := by
  have hscaled := div_lastExponent_lt hq
  rw [div_lt_iff₀ (two_zpow_pos _)] at hscaled
  calc q
    _ < 2 ^ (53 : ℤ) * 2 ^ lastExponent q := hscaled
    _ ≤ 2 ^ (53 : ℤ) * 2 ^ (970 : ℤ) :=
        mul_le_mul_of_nonneg_left (zpow_le_zpow_right₀ (by norm_num) (by omega))
          (two_zpow_pos 53).le
    _ ≤ (2 ^ (54 : ℤ) - 1) * 2 ^ (970 : ℤ) :=
        mul_le_mul_of_nonneg_right (by norm_num) (two_zpow_pos 970).le

theorem overflowBound_le_of_lastExponent {q : ℚ} (hq : 0 < q) (h : 971 < lastExponent q) :
    overflowBound ≤ q := by
  have hleast : lastExponent q ≠ leastExponent := by
    unfold leastExponent
    omega
  have hscaled := le_div_lastExponent hq hleast
  rw [le_div_iff₀ (two_zpow_pos _)] at hscaled
  calc (2 ^ (54 : ℤ) - 1) * 2 ^ (970 : ℤ)
    _ ≤ 2 ^ (53 : ℤ) * (2 : ℚ) ^ (971 : ℤ) := by
        rw [two_zpow_971, ← sub_half_mul_two]
        exact mul_le_mul_of_nonneg_right (by norm_num) (mul_pos two_pos (two_zpow_pos 970)).le
    _ = 2 ^ (52 : ℤ) * (2 : ℚ) ^ (972 : ℤ) := by
        rw [← zpow_add₀ (by norm_num), ← zpow_add₀ (by norm_num)]
        rfl
    _ ≤ 2 ^ (52 : ℤ) * 2 ^ lastExponent q :=
        mul_le_mul_of_nonneg_left (zpow_le_zpow_right₀ (by norm_num) (by omega))
          (two_zpow_pos 52).le
    _ ≤ q := hscaled

/-- The last exponent tells, or its mantissa does where the last exponent is that of the largest
double. -/
theorem nearestBits_lt_iff {q : ℚ} (hq : 0 ≤ q) :
    nearestBits q < infinityBits ↔ q < overflowBound := by
  rcases hq.eq_or_lt with rfl | hpos
  · simp [nearestBits, infinityBits, overflowBound_pos]
  · have hle := roundedMantissa_le hpos
    rw [nearestBits_eq hpos, min_lt_iff, or_iff_right (lt_irrefl _)]
    rcases lt_trichotomy (lastExponent q) 971 with hlt | heq | hgt
    · refine iff_of_true ?_ (lt_overflowBound_of_lastExponent hpos hlt)
      simp only [Nat.pow_eq, infinityBits, leastExponent] at hle ⊢
      omega
    · have hround : roundedMantissa q < Nat.pow 2 53 ↔
          q / 2 ^ lastExponent q < (Nat.pow 2 53 : ℕ) - 1 / 2 :=
        roundHalfEven_lt_iff (div_pos hpos (two_zpow_pos _)).le (by decide)
      rw [heq, div_lt_iff₀ (two_zpow_pos _), two_zpow_971, sub_half_mul_two] at hround
      rw [heq, overflowBound, ← hround]
      simp only [Nat.pow_eq, infinityBits, leastExponent]
      omega
    · have hleast : lastExponent q ≠ leastExponent := by
        unfold leastExponent
        omega
      have hfull := (roundedMantissa_full hpos).resolve_left hleast
      refine iff_of_false ?_ (not_lt.mpr (overflowBound_le_of_lastExponent hpos hgt))
      simp only [Nat.pow_eq, infinityBits, leastExponent] at hfull ⊢
      omega

section

variable (negative : Bool) {q : ℚ} (hq : 0 ≤ q)
include hq

/-- From the bound on, the nearest double is infinite. -/
theorem nearest_eq_infinity (h : overflowBound ≤ q) :
    ofMagnitude negative (nearestBits q) = infinity negative := by
  have hpos : 0 < q := overflowBound_pos.trans_le h
  have hbits := mt (nearestBits_lt_iff hq).mp (not_lt.mpr h)
  rw [infinity, le_antisymm ((nearestBits_eq hpos).trans_le (min_le_left _ _)) (not_lt.mp hbits)]

/-- Below the bound, the nearest double has the rounded value. -/
theorem value?_nearest (h : q < overflowBound) : value? (ofMagnitude negative (nearestBits q)) =
    some ((if negative then -1 else 1) * rounded q) := by
  rcases hq.eq_or_lt with rfl | hpos
  · have hbits : nearestBits 0 < infinityBits := (nearestBits_lt_iff le_rfl).mpr h
    rw [value?, read_ofMagnitude negative hbits]
    simp [nearestBits, Reading.ofMagnitude, Reading.value?]
  · have hbits := (nearestBits_lt_iff hq).mpr h
    rw [nearestBits_eq hpos, min_lt_iff, or_iff_right (lt_irrefl _)] at hbits
    rw [nearestBits_eq hpos, min_eq_right hbits.le]
    rcases canonical_or_carry hpos with hcanonical | hcarry
    · rw [value?, read_of_canonical hcanonical negative hbits]
      rfl
    · have hleast : leastExponent ≤ lastExponent q := le_max_right _ _
      obtain ⟨hcanonical, hsum⟩ := canonical_carry hleast
      rw [hcarry, ← hsum] at hbits ⊢
      rw [value?, read_of_canonical hcanonical negative hbits, Reading.value?, rounded, hcarry,
        zpow_add_one₀ (by norm_num)]
      simp only [Nat.pow_eq, Option.some.injEq]
      push_cast
      ring

end

section

variable {q : ℚ} (hq : 0 < q) (h : lastExponent q ≠ leastExponent)
include hq h

theorem zpow_log_le_rounded : 2 ^ Int.log 2 q ≤ rounded q := by
  have hfull : (2 : ℚ) ^ (52 : ℤ) ≤ roundedMantissa q := by
    exact_mod_cast (roundedMantissa_full hq).resolve_left h
  have hlog : Int.log 2 q = 52 + lastExponent q := by
    unfold lastExponent at h ⊢
    omega
  rw [hlog, zpow_add₀ (by norm_num)]
  exact mul_le_mul_of_nonneg_right hfull (two_zpow_pos _).le

/-- Rounding adds half a unit in the last place at most. -/
theorem rounded_le : rounded q ≤ q * (1 + 2 ^ (-53 : ℤ)) := by
  have hscaled := le_div_lastExponent hq h
  have hhalf : (roundedMantissa q : ℚ) ≤ q / 2 ^ lastExponent q + 1 / 2 :=
    roundHalfEven_le_add_half (div_pos hq (two_zpow_pos _)).le
  have hunit : (1 : ℚ) / 2 = 2 ^ (52 : ℤ) * 2 ^ (-53 : ℤ) := by norm_num
  have hmantissa : (roundedMantissa q : ℚ) ≤ q / 2 ^ lastExponent q * (1 + 2 ^ (-53 : ℤ)) := by
    rw [hunit] at hhalf
    have := mul_le_mul_of_nonneg_right hscaled (two_zpow_pos (-53)).le
    linarith
  have hproduct := mul_le_mul_of_nonneg_right hmantissa (two_zpow_pos (lastExponent q)).le
  rwa [mul_right_comm, div_mul_cancel₀ _ (two_zpow_pos _).ne'] at hproduct

end

/-- Where the last place is that of the least double the number is far below one. -/
theorem rounded_lt_half {q : ℚ} (hq : 0 < q) (h : lastExponent q = leastExponent) :
    rounded q < 1 / 2 := by
  have hmantissa : (roundedMantissa q : ℚ) ≤ 2 ^ (53 : ℤ) := by exact_mod_cast roundedMantissa_le hq
  calc rounded q
    _ ≤ 2 ^ (53 : ℤ) * 2 ^ lastExponent q :=
        mul_le_mul_of_nonneg_right hmantissa (two_zpow_pos _).le
    _ = 2 ^ (-1021 : ℤ) := by
        rw [h, ← zpow_add₀ (by norm_num)]
        rfl
    _ < 2 ^ (-1 : ℤ) := zpow_lt_zpow_right₀ (by norm_num) (by decide)
    _ = 1 / 2 := by norm_num

/-- Rounding keeps a number from falling below one. -/
theorem one_le_rounded {q : ℚ} (h : 1 ≤ q) : 1 ≤ rounded q := by
  have hpos : 0 < q := one_pos.trans_le h
  have hlog : 0 ≤ Int.log 2 q := by
    rw [← Int.zpow_le_iff_le_log (by decide) hpos]
    simpa using h
  have hlast : lastExponent q ≠ leastExponent := by
    unfold lastExponent leastExponent
    omega
  exact (one_le_zpow₀ (by norm_num) hlog).trans (zpow_log_le_rounded hpos hlast)

/-- A natural number of at most 53 digits is a double. -/
theorem rounded_natCast {n : ℕ} (h : n < Nat.pow 2 53) : rounded n = n := by
  rcases Nat.eq_zero_or_pos n with rfl | hpos
  · simp
  · have hlast : lastExponent n ≤ 0 := by
      have hlog : Int.log 2 (n : ℚ) < 53 := by
        rw [← Int.lt_zpow_iff_log_lt (by decide) (Nat.cast_pos.mpr hpos)]
        exact_mod_cast h
      unfold lastExponent leastExponent
      omega
    obtain ⟨k, hk⟩ : ∃ k : ℕ, lastExponent n = -k :=
      ⟨(-lastExponent n).toNat, by omega⟩
    have hscaled : (n : ℚ) / 2 ^ lastExponent n = (n * 2 ^ k : ℕ) := by
      rw [hk, zpow_neg, zpow_natCast, div_inv_eq_mul]
      push_cast
      rfl
    have hmantissa : roundedMantissa n = n * 2 ^ k := by
      rw [roundedMantissa, hscaled, roundHalfEven_natCast]
    rw [rounded, hmantissa, ← hscaled, div_mul_cancel₀ _ (two_zpow_pos _).ne']

end ProcessFormula.Binary64
