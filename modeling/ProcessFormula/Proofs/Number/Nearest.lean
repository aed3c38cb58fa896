import ProcessFormula.Proofs.Number.Bits

/-!
The double nearest to a quotient of naturals depends on the rational number alone. A number that a
finite double stands for is rounded to that double, a number beyond all doubles to infinity and a
number below half the least positive double to zero.
-/

namespace ProcessFormula.Binary64

/-- A rational number rounded to a natural number, a half to the even neighbour. -/
def roundHalfEven (q : ℚ) : ℕ :=
  if q - ⌊q⌋₊ < 1 / 2 then ⌊q⌋₊
  else if 1 / 2 < q - ⌊q⌋₊ then ⌊q⌋₊ + 1
  else ⌊q⌋₊ + ⌊q⌋₊ % 2

/-- The power of two that the last bit of the double nearest to a rational number stands for. -/
def lastExponent (q : ℚ) : ℤ := max (Int.log 2 q - 52) leastExponent

/-- The bits of the double nearest to a rational number that is not negative. -/
def nearestBits (q : ℚ) : ℕ :=
  if q = 0 then 0
  else min infinityBits ((lastExponent q - leastExponent).toNat * Nat.pow 2 52 +
    roundHalfEven (q / 2 ^ lastExponent q))

theorem two_zpow_pos (k : ℤ) : (0 : ℚ) < 2 ^ k := zpow_pos (by norm_num) k

/-- The scaled fraction is the fraction divided by a power of two. -/
theorem scale_eq (num : ℕ) {den : ℕ} (hden : 0 < den) (exponent : ℤ) :
    0 < (scale num den exponent).2 ∧
      ((scale num den exponent).1 : ℚ) / (scale num den exponent).2 = num / den / 2 ^ exponent := by
  cases exponent with
  | ofNat k =>
      refine ⟨Nat.mul_pos hden (Nat.two_pow_pos k), ?_⟩
      simp [scale, div_div]
  | negSucc k =>
      refine ⟨hden, ?_⟩
      simp [scale, zpow_negSucc, mul_div_right_comm]

/-- Dividing with rounding rounds the exact quotient half to even. -/
theorem roundDiv_eq (a : ℕ) {b : ℕ} (hb : 0 < b) : roundDiv a b = roundHalfEven (a / b) := by
  have hb' : (0 : ℚ) < b := Nat.cast_pos.mpr hb
  have hfloor : ⌊(a : ℚ) / b⌋₊ = a / b := Nat.floor_div_eq_div a b
  have hrest : (a : ℚ) / b - (a / b : ℕ) = (a % b : ℕ) / b := by
    have hsum : ((b * (a / b) + a % b : ℕ) : ℚ) = a := congrArg Nat.cast (Nat.div_add_mod a b)
    push_cast at hsum
    field_simp
    linarith
  have hless : (a % b : ℕ) / (b : ℚ) < 1 / 2 ↔ 2 * (a % b) < b := by
    rw [div_lt_div_iff₀ hb' (by norm_num), ← Nat.cast_lt (α := ℚ)]
    push_cast
    constructor <;> intro h <;> linarith
  have hmore : 1 / 2 < (a % b : ℕ) / (b : ℚ) ↔ b < 2 * (a % b) := by
    rw [div_lt_div_iff₀ (by norm_num) hb', ← Nat.cast_lt (α := ℚ)]
    push_cast
    constructor <;> intro h <;> linarith
  simp only [roundDiv, roundHalfEven, hfloor, hrest, hless, hmore]

/-- The binary logarithm is the exponent of the power of two just below. -/
theorem log_eq_iff {q : ℚ} (hq : 0 < q) {k : ℤ} :
    Int.log 2 q = k ↔ (2 : ℚ) ^ k ≤ q ∧ q < 2 ^ (k + 1) := by
  have hle := Int.zpow_le_iff_le_log (b := 2) (x := k) (by decide) hq
  have hlt := Int.lt_zpow_iff_log_lt (b := 2) (x := k + 1) (by decide) hq
  push_cast at hle hlt
  rw [hle, hlt]
  omega

theorem zpow_log2_le {n : ℕ} (hn : 0 < n) : (2 : ℚ) ^ (n.log2 : ℤ) ≤ n := by
  exact_mod_cast Nat.log2_self_le hn.ne'

theorem lt_zpow_log2 (n : ℕ) : (n : ℚ) < 2 ^ ((n.log2 : ℤ) + 1) := by
  exact_mod_cast Nat.lt_log2_self

/-- The lengths of numerator and denominator estimate the logarithm of a quotient. -/
theorem quotient_bounds {num den : ℕ} (hnum : 0 < num) (hden : 0 < den) {estimate : ℤ}
    (hestimate : estimate = (num.log2 : ℤ) - den.log2) :
    (2 : ℚ) ^ (estimate - 1) < num / den ∧ (num : ℚ) / den < 2 ^ (estimate + 1) := by
  have hden' : (0 : ℚ) < den := Nat.cast_pos.mpr hden
  constructor
  · rw [lt_div_iff₀ hden']
    calc (2 : ℚ) ^ (estimate - 1) * den
      _ < 2 ^ (estimate - 1) * 2 ^ ((den.log2 : ℤ) + 1) :=
          mul_lt_mul_of_pos_left (lt_zpow_log2 den) (two_zpow_pos _)
      _ = 2 ^ (num.log2 : ℤ) := by
          rw [← zpow_add₀ (by norm_num)]
          congr 1
          omega
      _ ≤ num := zpow_log2_le hnum
  · rw [div_lt_iff₀ hden']
    calc (num : ℚ)
      _ < 2 ^ ((num.log2 : ℤ) + 1) := lt_zpow_log2 num
      _ = 2 ^ (estimate + 1) * 2 ^ (den.log2 : ℤ) := by
          rw [← zpow_add₀ (by norm_num)]
          congr 1
          omega
      _ ≤ 2 ^ (estimate + 1) * den :=
          mul_le_mul_of_nonneg_left (zpow_log2_le hden) (two_zpow_pos _).le

/-- The estimate is right or one too much, and a comparison decides which. -/
theorem binade_eq {num den : ℕ} (hnum : 0 < num) (hden : 0 < den) :
    binade num den = Int.log 2 ((num : ℚ) / den) := by
  have hq : (0 : ℚ) < num / den := by positivity
  obtain ⟨estimate, hestimate⟩ : ∃ estimate : ℤ, estimate = (num.log2 : ℤ) - den.log2 := ⟨_, rfl⟩
  obtain ⟨hlow, hhigh⟩ := quotient_bounds hnum hden hestimate
  obtain ⟨hpos, hscale⟩ := scale_eq num hden estimate
  have hreached : (scale num den estimate).2 ≤ (scale num den estimate).1 ↔
      (2 : ℚ) ^ estimate ≤ num / den := by
    rw [← Nat.cast_le (α := ℚ), ← one_le_div (Nat.cast_pos.mpr hpos), hscale,
      one_le_div (two_zpow_pos estimate)]
  have hbinade : binade num den = if (scale num den estimate).2 ≤ (scale num den estimate).1
      then estimate else estimate - 1 := by
    rw [hestimate]
    rfl
  symm
  rw [hbinade, log_eq_iff hq]
  split
  · next hle => exact ⟨hreached.mp hle, hhigh⟩
  · next hgt =>
    rw [hreached, not_le] at hgt
    exact ⟨hlow.le, by simpa using hgt⟩

/-- The bits that are computed for a fraction are those of the double nearest to it. -/
theorem magnitudeOf_eq (num : ℕ) {den : ℕ} (hden : 0 < den) :
    magnitudeOf num den = nearestBits (num / den) := by
  by_cases hnum : num = 0
  · simp [magnitudeOf, nearestBits, hnum]
  · have hq : (num : ℚ) / den ≠ 0 :=
      div_ne_zero (Nat.cast_ne_zero.mpr hnum) (Nat.cast_ne_zero.mpr hden.ne')
    have hlast : max (binade num den - 52) leastExponent = lastExponent (num / den) := by
      rw [binade_eq (Nat.pos_of_ne_zero hnum) hden, lastExponent]
    obtain ⟨hpos, hscale⟩ := scale_eq num hden (lastExponent (num / den))
    simp only [magnitudeOf, nearestBits, if_neg hnum, if_neg hq, hlast, roundDiv_eq _ hpos, hscale]

/-! ### Numbers out of reach -/

theorem le_roundHalfEven {q : ℚ} {n : ℕ} (h : (n : ℚ) ≤ q) : n ≤ roundHalfEven q := by
  have hfloor : n ≤ ⌊q⌋₊ := Nat.le_floor h
  unfold roundHalfEven
  split_ifs <;> omega

theorem roundHalfEven_natCast (n : ℕ) : roundHalfEven n = n := by
  simp [roundHalfEven]

theorem roundHalfEven_small {q : ℚ} (hq : q < 1 / 2) : roundHalfEven q = 0 := by
  have hfloor : ⌊q⌋₊ = 0 := Nat.floor_eq_zero.mpr (by linarith)
  rw [roundHalfEven, hfloor, Nat.cast_zero, sub_zero, if_pos hq]

/-- From `2 ^ 1024` on the nearest double is infinity. -/
theorem nearestBits_large {q : ℚ} (hq : 2 ^ (1024 : ℤ) ≤ q) : nearestBits q = infinityBits := by
  have hpos : 0 < q := (two_zpow_pos 1024).trans_le hq
  have hlog : 1024 ≤ Int.log 2 q :=
    (Int.zpow_le_iff_le_log (b := 2) (by decide) hpos).mp (by exact_mod_cast hq)
  have hlast : lastExponent q = Int.log 2 q - 52 := by
    unfold lastExponent leastExponent
    omega
  have hmantissa : Nat.pow 2 52 ≤ roundHalfEven (q / 2 ^ lastExponent q) := by
    apply le_roundHalfEven
    have hself := Int.zpow_log_le_self (b := 2) (by decide) hpos
    rw [le_div_iff₀ (two_zpow_pos _), hlast]
    calc ((Nat.pow 2 52 : ℕ) : ℚ) * 2 ^ (Int.log 2 q - 52)
      _ = 2 ^ (52 : ℤ) * 2 ^ (Int.log 2 q - 52) := by norm_num
      _ = 2 ^ Int.log 2 q := by
          rw [← zpow_add₀ (by norm_num)]
          congr 1
          omega
      _ ≤ q := by exact_mod_cast hself
  have hexponent : 2046 ≤ (lastExponent q - leastExponent).toNat := by
    unfold leastExponent
    omega
  rw [nearestBits, if_neg hpos.ne', min_eq_left]
  have hproduct := Nat.mul_le_mul_right (Nat.pow 2 52) hexponent
  simp only [infinityBits, Nat.pow_eq] at *
  omega

/-- Below `2 ^ (-1075)` the nearest double is zero. -/
theorem nearestBits_small {q : ℚ} (hpos : 0 < q) (hq : q < 2 ^ (-1075 : ℤ)) :
    nearestBits q = 0 := by
  have hlog : Int.log 2 q < -1075 :=
    (Int.lt_zpow_iff_log_lt (b := 2) (by decide) hpos).mp (by exact_mod_cast hq)
  have hlast : lastExponent q = leastExponent := by
    unfold lastExponent leastExponent
    omega
  have hhalf : q / 2 ^ leastExponent < 1 / 2 := by
    rw [div_lt_iff₀ (two_zpow_pos _)]
    calc q
      _ < 2 ^ (-1075 : ℤ) := hq
      _ = 1 / 2 * 2 ^ leastExponent := by
          rw [leastExponent, show (-1075 : ℤ) = -1 + -1074 from rfl, zpow_add₀ (by norm_num)]
          norm_num
  rw [nearestBits, if_neg hpos.ne', hlast, roundHalfEven_small hhalf]
  simp

/-! ### Numbers that doubles stand for -/

theorem nearestBits_of_lastExponent {mantissa : ℕ} {exponent : ℤ} (hmantissa : mantissa ≠ 0)
    (hlast : lastExponent (mantissa * 2 ^ exponent) = exponent) :
    nearestBits (mantissa * 2 ^ exponent) =
      min infinityBits ((exponent - leastExponent).toNat * Nat.pow 2 52 + mantissa) := by
  have hne : (mantissa : ℚ) * 2 ^ exponent ≠ 0 :=
    mul_ne_zero (Nat.cast_ne_zero.mpr hmantissa) (two_zpow_pos _).ne'
  rw [nearestBits, if_neg hne, hlast, mul_div_cancel_right₀ _ (two_zpow_pos _).ne',
    roundHalfEven_natCast]

theorem lastExponent_subnormal {mantissa : ℕ} (hpos : 0 < mantissa)
    (hlt : mantissa < Nat.pow 2 52) :
    lastExponent (mantissa * 2 ^ leastExponent) = leastExponent := by
  have hq : (0 : ℚ) < mantissa * 2 ^ leastExponent :=
    mul_pos (Nat.cast_pos.mpr hpos) (two_zpow_pos _)
  have hlog : Int.log 2 ((mantissa : ℚ) * 2 ^ leastExponent) < 52 + leastExponent := by
    rw [← Int.lt_zpow_iff_log_lt (by decide) hq]
    push_cast
    rw [zpow_add₀ (by norm_num)]
    refine mul_lt_mul_of_pos_right ?_ (two_zpow_pos _)
    exact_mod_cast hlt
  unfold lastExponent
  omega

/-- The last bit of a number with a full mantissa has the exponent of the mantissa. -/
theorem lastExponent_normal {mantissa : ℕ} {exponent : ℤ} (hle : Nat.pow 2 52 ≤ mantissa)
    (hlt : mantissa < Nat.pow 2 53) (hexponent : leastExponent ≤ exponent) :
    lastExponent (mantissa * 2 ^ exponent) = exponent := by
  have hle' : (2 : ℚ) ^ (52 : ℤ) ≤ mantissa := by exact_mod_cast hle
  have hlt' : (mantissa : ℚ) < 2 ^ (53 : ℤ) := by exact_mod_cast hlt
  have hq : (0 : ℚ) < mantissa * 2 ^ exponent :=
    mul_pos ((two_zpow_pos _).trans_le hle') (two_zpow_pos _)
  have hlog : Int.log 2 ((mantissa : ℚ) * 2 ^ exponent) = 52 + exponent := by
    rw [log_eq_iff hq, zpow_add₀ (by norm_num), show 52 + exponent + 1 = 53 + exponent by omega,
      zpow_add₀ (by norm_num)]
    exact ⟨mul_le_mul_of_nonneg_right hle' (two_zpow_pos _).le,
      mul_lt_mul_of_pos_right hlt' (two_zpow_pos _)⟩
  unfold lastExponent
  omega

/-- A double without the leading bit is the nearest to its own value. -/
theorem nearestBits_subnormal {fraction : ℕ} (hlt : fraction < Nat.pow 2 52) :
    nearestBits (fraction * 2 ^ leastExponent) = min infinityBits fraction := by
  by_cases hzero : fraction = 0
  · subst hzero
    simp [nearestBits]
  · rw [nearestBits_of_lastExponent hzero
      (lastExponent_subnormal (Nat.pos_of_ne_zero hzero) hlt), sub_self, Int.toNat_zero,
      Nat.zero_mul, Nat.zero_add]

/-- So is a double with a full mantissa. -/
theorem nearestBits_normal {biased fraction : ℕ} (hpos : 0 < biased)
    (hlt : fraction < Nat.pow 2 52) :
    nearestBits ((fraction + Nat.pow 2 52 : ℕ) * 2 ^ ((biased : ℤ) - 1075)) =
      min infinityBits (biased * Nat.pow 2 52 + fraction) := by
  have hlast : lastExponent ((fraction + Nat.pow 2 52 : ℕ) * 2 ^ ((biased : ℤ) - 1075)) =
      (biased : ℤ) - 1075 := by
    apply lastExponent_normal
    · omega
    · simp at hlt ⊢
      omega
    · unfold leastExponent
      omega
  have hexponent : ((biased : ℤ) - 1075 - leastExponent).toNat + 1 = biased := by
    unfold leastExponent
    omega
  have hbits : ((biased : ℤ) - 1075 - leastExponent).toNat * Nat.pow 2 52 +
      (fraction + Nat.pow 2 52) = biased * Nat.pow 2 52 + fraction := by
    conv => rhs; rw [← hexponent, Nat.succ_mul, Nat.add_assoc, Nat.add_comm (Nat.pow 2 52)]
  rw [nearestBits_of_lastExponent (by simp) hlast, hbits]

/-- The double nearest to what a finite double stands for is that double, up to the sign. -/
theorem nearestBits_of_read {x : Float} {negative : Bool} {mantissa : ℕ} {exponent : ℤ}
    (h : read x = .finite negative mantissa exponent) :
    nearestBits (mantissa * 2 ^ exponent) = magnitude x := by
  have hbits := magnitude_lt_of_read h
  have hfraction : magnitude x % Nat.pow 2 52 < Nat.pow 2 52 := Nat.mod_lt _ (by decide)
  have hsum : magnitude x = magnitude x / Nat.pow 2 52 * Nat.pow 2 52 +
      magnitude x % Nat.pow 2 52 := (Nat.div_add_mod' _ _).symm
  rw [read_eq] at h
  unfold Reading.ofMagnitude at h
  generalize magnitude x / Nat.pow 2 52 = biased at *
  generalize magnitude x % Nat.pow 2 52 = fraction at *
  generalize magnitude x = bits at *
  subst hsum
  dsimp only at h
  split_ifs at h with hinfinite hnan hsmall
  · obtain ⟨-, rfl, rfl⟩ := Reading.finite.inj h
    subst hsmall
    rw [Nat.zero_mul, Nat.zero_add] at hbits ⊢
    rw [nearestBits_subnormal hfraction, min_eq_right hbits.le]
  · obtain ⟨-, rfl, rfl⟩ := Reading.finite.inj h
    rw [nearestBits_normal (Nat.pos_of_ne_zero hsmall) hfraction, min_eq_right hbits.le]

end ProcessFormula.Binary64
