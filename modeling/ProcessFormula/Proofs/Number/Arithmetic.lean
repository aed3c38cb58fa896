import ProcessFormula.Proofs.Number.Order

/-!
Multiplication and division of doubles. The logical model keeps, beside a mantissa that is cut off,
one bit for its next digit and one that says whether anything follows; this is enough to round the
exact product or quotient to the nearest double. So the result depends on the exact number alone.
-/

namespace ProcessFormula.Binary64

open Float.Model Float.Model.UnpackedFloat Float.Model.Format

/-! ### Mantissas that are cut off -/

/-- The mantissa and the two bits behind it that a rational number has. -/
def Represents (em : ExtendedMantissa) (q : ℚ) : Prop :=
  match em.roundBit, em.stickyBit with
  | false, false => q = em.mantissa
  | false, true => em.mantissa < q ∧ q < em.mantissa + 1 / 2
  | true, false => q = em.mantissa + 1 / 2
  | true, true => em.mantissa + 1 / 2 < q ∧ q < em.mantissa + 1

/-- A mantissa without round and sticky bit represents itself. -/
theorem represents_exact (mantissa : ℕ) :
    Represents (.ofMantissaAndAccuracy mantissa .exact) mantissa :=
  rfl

/-- A quotient of naturals is cut off at its whole part. -/
theorem represents_quotient (num : ℕ) {den : ℕ} (hden : 0 < den) :
    Represents (.ofMantissaAndAccuracy (num / den) (accuracyOfFraction (num % den) den))
      (num / den) := by
  have hden' : (0 : ℚ) < den := Nat.cast_pos.mpr hden
  have hlt : num % den < den := Nat.mod_lt _ hden
  have hsum : (num : ℚ) / den = (num / den : ℕ) + (num % den : ℕ) / den := by
    have hdiv : ((den * (num / den) + num % den : ℕ) : ℚ) = num :=
      congrArg Nat.cast (Nat.div_add_mod num den)
    push_cast at hdiv
    field_simp
    linarith
  have hone : ((num % den : ℕ) : ℚ) / den < 1 := by
    rw [div_lt_one hden']
    exact_mod_cast hlt
  rw [hsum]
  unfold accuracyOfFraction
  split
  · next hzero => simp [hzero, Represents, ExtendedMantissa.ofMantissaAndAccuracy]
  · next hrest =>
    have hpos : (0 : ℚ) < (num % den : ℕ) / den :=
      div_pos (Nat.cast_pos.mpr (Nat.pos_of_ne_zero hrest)) hden'
    rcases lt_trichotomy (2 * (num % den)) den with hless | heq | hmore
    · have hhalf : ((num % den : ℕ) : ℚ) / den < 1 / 2 := by
        rw [div_lt_div_iff₀ hden' (by norm_num), mul_comm]
        exact_mod_cast (by omega : 2 * (num % den) < 1 * den)
      rw [compare_lt_iff_lt.mpr hless]
      exact ⟨lt_add_of_pos_right _ hpos, add_lt_add_right hhalf _⟩
    · have hhalf : ((num % den : ℕ) : ℚ) / den = 1 / 2 := by
        rw [div_eq_div_iff hden'.ne' (by norm_num), mul_comm]
        exact_mod_cast (by omega : 2 * (num % den) = 1 * den)
      rw [compare_eq_iff_eq.mpr heq, hhalf]
      rfl
    · have hhalf : (1 : ℚ) / 2 < (num % den : ℕ) / den := by
        rw [div_lt_div_iff₀ (by norm_num) hden', mul_comm _ (2 : ℚ)]
        exact_mod_cast (by omega : 1 * den < 2 * (num % den))
      rw [compare_gt_iff_gt.mpr hmore]
      exact ⟨add_lt_add_right hhalf _, add_lt_add_right hone _⟩

section

variable {em : ExtendedMantissa} {q : ℚ} (h : Represents em q)
include h

/-- The represented number lies less than one unit above the mantissa. -/
theorem Represents.bounds : (em.mantissa : ℚ) ≤ q ∧ q < em.mantissa + 1 := by
  obtain ⟨mantissa, round, sticky⟩ := em
  cases round <;> cases sticky <;> simp only [Represents] at h <;> constructor <;> linarith

theorem Represents.floor : ⌊q⌋₊ = em.mantissa :=
  (Nat.floor_eq_iff ((Nat.cast_nonneg _).trans h.bounds.1)).mpr h.bounds

/-- The bits decide as the rest of the number does. -/
theorem Represents.roundedMantissa : em.roundedMantissa = roundHalfEven q := by
  have hfloor := h.floor
  unfold roundHalfEven
  rw [hfloor]
  obtain ⟨mantissa, round, sticky⟩ := em
  cases round <;> cases sticky <;> simp only [Represents] at h
  · have hless : q - mantissa < 1 / 2 := by linarith
    rw [if_pos hless]
    rfl
  · have hless : q - mantissa < 1 / 2 := by linarith
    rw [if_pos hless]
    rfl
  · have hless : ¬ q - mantissa < 1 / 2 := by linarith
    have hmore : ¬ 1 / 2 < q - mantissa := by linarith
    rw [if_neg hless, if_neg hmore]
    rfl
  · have hless : ¬ q - mantissa < 1 / 2 := by linarith
    have hmore : 1 / 2 < q - mantissa := by linarith
    rw [if_neg hless, if_pos hmore]
    rfl

/-- Shifting by one bit halves the represented number and loses nothing that rounding needs. -/
theorem Represents.shiftRightOne : Represents em.shiftRightOne (q / 2) := by
  obtain ⟨mantissa, round, sticky⟩ := em
  have hdiv : ((2 * (mantissa / 2) + mantissa % 2 : ℕ) : ℚ) = mantissa :=
    congrArg Nat.cast (Nat.div_add_mod mantissa 2)
  push_cast at hdiv
  rcases Nat.mod_two_eq_zero_or_one mantissa with hrest | hrest
  · rw [hrest] at hdiv
    cases round <;> cases sticky <;>
      simp [Represents, ExtendedMantissa.shiftRightOne, hrest] at h ⊢
    · linarith
    · constructor <;> linarith
    · constructor <;> linarith
    · constructor <;> linarith
  · rw [hrest] at hdiv
    cases round <;> cases sticky <;>
      simp [Represents, ExtendedMantissa.shiftRightOne, hrest] at h ⊢
    · linarith
    · constructor <;> linarith
    · constructor <;> linarith
    · constructor <;> linarith

/-- So does shifting by any number of bits, with the power of two in place of two. -/
theorem Represents.shiftRight (n : ℕ) : Represents (em >>> n) (q / 2 ^ n) := by
  show Represents (n.repeat ExtendedMantissa.shiftRightOne em) _
  induction n with
  | zero => simpa [Nat.repeat] using h
  | succ n ih =>
      rw [Nat.repeat, pow_succ, ← div_div]
      exact ih.shiftRightOne

end

/-! ### The last bit of the nearest double -/

theorem div_lastExponent_lt {q : ℚ} (hq : 0 < q) : q / 2 ^ lastExponent q < 2 ^ (53 : ℤ) := by
  have hlog : Int.log 2 q + 1 ≤ 53 + lastExponent q := by
    unfold lastExponent
    omega
  rw [div_lt_iff₀ (two_zpow_pos _), ← zpow_add₀ (by norm_num)]
  exact ((log_eq_iff hq).mp rfl).2.trans_le (zpow_le_zpow_right₀ (by norm_num) hlog)

theorem le_div_lastExponent {q : ℚ} (hq : 0 < q) (h : lastExponent q ≠ leastExponent) :
    2 ^ (52 : ℤ) ≤ q / 2 ^ lastExponent q := by
  have hlog : 52 + lastExponent q = Int.log 2 q := by
    unfold lastExponent at h ⊢
    omega
  rw [le_div_iff₀ (two_zpow_pos _), ← zpow_add₀ (by norm_num), hlog]
  exact ((log_eq_iff hq).mp rfl).1

theorem roundHalfEven_le {q : ℚ} (hq : 0 ≤ q) {n : ℕ} (h : q < n) : roundHalfEven q ≤ n := by
  have hfloor : ⌊q⌋₊ < n := (Nat.floor_lt hq).mpr h
  unfold roundHalfEven
  split_ifs <;> omega

/-- The mantissa of the double nearest to a rational number. It may be the least one with one digit
more than doubles have. -/
def roundedMantissa (q : ℚ) : ℕ := roundHalfEven (q / 2 ^ lastExponent q)

/-- The bits of the nearest double are its exponent field and its rounded mantissa, or those of
infinity. -/
theorem nearestBits_eq {q : ℚ} (hq : 0 < q) :
    nearestBits q = min infinityBits
      ((lastExponent q - leastExponent).toNat * Nat.pow 2 52 + roundedMantissa q) :=
  if_neg hq.ne'

theorem roundedMantissa_le {q : ℚ} (hq : 0 < q) : roundedMantissa q ≤ Nat.pow 2 53 :=
  roundHalfEven_le (div_pos hq (two_zpow_pos _)).le (by exact_mod_cast div_lastExponent_lt hq)

/-- Above the least exponent a rounded mantissa has all of its bits. -/
theorem roundedMantissa_full {q : ℚ} (hq : 0 < q) :
    lastExponent q = leastExponent ∨ Nat.pow 2 52 ≤ roundedMantissa q := by
  by_cases h : lastExponent q = leastExponent
  · exact .inl h
  · exact .inr (le_roundHalfEven (by exact_mod_cast le_div_lastExponent hq h))

/-- A rounded mantissa fits its exponent, or it is the power of two that belongs to the next one. -/
theorem canonical_or_carry {q : ℚ} (hq : 0 < q) :
    Canonical (roundedMantissa q) (lastExponent q) ∨ roundedMantissa q = Nat.pow 2 53 := by
  rcases (roundedMantissa_le hq).lt_or_eq with hlt | heq
  · exact .inl ⟨le_max_right _ _, hlt, roundedMantissa_full hq⟩
  · exact .inr heq

/-- A mantissa with one digit too many is half of it with the next exponent, in the same bits. -/
theorem canonical_carry {exponent : ℤ} (h : leastExponent ≤ exponent) :
    Canonical (Nat.pow 2 52) (exponent + 1) ∧
      (exponent + 1 - leastExponent).toNat * Nat.pow 2 52 + Nat.pow 2 52 =
        (exponent - leastExponent).toNat * Nat.pow 2 52 + Nat.pow 2 53 := by
  refine ⟨⟨by omega, by decide, .inr le_rfl⟩, ?_⟩
  simp only [Nat.pow_eq]
  omega

/-! ### Packing -/

/-- A double is what packing its unpacked form gives. -/
theorem ofModel_pack_of_unpack {x : Float} {u : UnpackedFloat} (h : x.toModel.unpack = u) :
    Float.ofModel (.pack u) = x := by
  have hvalid := x.toModel.valid
  rw [← Float.toBits_inj, ← UInt64.toBitVec_inj, ← h]
  exact pack_unpack_of_valid hvalid

theorem ofModel_pack_congr {u u' : UnpackedFloat}
    (h : UnpackedFloat.pack binary64 u = UnpackedFloat.pack binary64 u') :
    Float.ofModel (.pack u) = Float.ofModel (.pack u') := by
  rw [← Float.toBits_inj, ← UInt64.toBitVec_inj]
  exact h

theorem pack_infinity (negative : Bool) :
    Float.ofModel (.pack (.infinity (signOf negative))) = ofMagnitude negative infinityBits := by
  cases negative <;> rfl

theorem pack_zero (negative : Bool) :
    Float.ofModel (.pack (.zero (signOf negative))) = ofMagnitude negative 0 := by
  cases negative <;> rfl

section

variable {mantissa : ℕ} {exponent : ℤ} (h : Canonical mantissa exponent)
include h

/-- The bits of a canonical mantissa and exponent are read as this mantissa and this exponent. -/
theorem read_of_canonical (negative : Bool)
    (hbits : (exponent - leastExponent).toNat * Nat.pow 2 52 + mantissa < infinityBits) :
    read (ofMagnitude negative ((exponent - leastExponent).toNat * Nat.pow 2 52 + mantissa)) =
      .finite negative mantissa exponent := by
  obtain ⟨hleast, hlt, hfull⟩ := h
  rw [read_ofMagnitude negative hbits]
  simp only [Nat.pow_eq, infinityBits, leastExponent] at *
  unfold Reading.ofMagnitude
  simp only [Nat.pow_eq]
  by_cases hsmall : mantissa < 2 ^ 52
  · obtain rfl : exponent = -1074 := by omega
    rw [if_neg (by omega), if_pos (by omega)]
    simp [leastExponent]
    omega
  · rw [if_neg (by omega), if_neg (by omega)]
    simp
    omega

/-- A number with the mantissa and exponent of a double is packed into the bits of that double, or
into those of infinity. -/
theorem pack_finite (negative : Bool) (hpos : 0 < mantissa) :
    Float.ofModel (.pack (.finite (signOf negative) mantissa exponent hpos)) =
      ofMagnitude negative (min infinityBits
        ((exponent - leastExponent).toNat * Nat.pow 2 52 + mantissa)) := by
  by_cases hbits : (exponent - leastExponent).toNat * Nat.pow 2 52 + mantissa < infinityBits
  · rw [min_eq_right hbits.le]
    apply ofModel_pack_of_unpack
    rw [unpack_toModel, read_of_canonical h negative hbits,
      Reading.unpacked_finite _ _ hpos.ne']
  · rw [min_eq_left (by omega), ← pack_infinity]
    apply ofModel_pack_congr
    have hlarge : 972 ≤ exponent := by
      have hlt := h.lt
      simp only [Nat.pow_eq, infinityBits, leastExponent] at hbits hlt
      omega
    have hbiased : 2 ^ binary64.exponentBits ≤ (exponent + binary64.exponentBias +
        binary64.mantissaBitsWithoutImplicit).toNat + 1 := by
      simp [Format.exponentBias]
      omega
    simp only [UnpackedFloat.pack, if_pos hbiased]

end

/-! ### Rounding -/

/-- The exponent to which a number is rounded depends on its leading bit alone. -/
theorem targetExponent_eq (mantissa : ℕ) (exponent : ℤ) :
    binary64.targetExponent (totalExponent mantissa exponent) =
      max ((mantissa.log2 : ℤ) + exponent - 52) leastExponent := by
  simp [Format.targetExponent, totalExponent, Format.mantissaBits, Format.minExponent,
    leastExponent]
  omega

theorem mantissa_ofMantissaAndAccuracy (mantissa : ℕ) (accuracy : Accuracy) :
    (ExtendedMantissa.ofMantissaAndAccuracy mantissa accuracy).mantissa = mantissa := by
  cases accuracy with
  | exact => rfl
  | inexact o => cases o <;> rfl

/-- A canonical number is rounded to the exponent that it has. -/
theorem shiftToTargetExponent_of_canonical {mantissa : ℕ} {exponent : ℤ}
    (h : Canonical mantissa exponent) :
    shiftToTargetExponent binary64 mantissa exponent .exact =
      (⟨mantissa, false, false⟩, exponent) := by
  have hlog : mantissa.log2 ≤ 52 := by
    by_cases hzero : mantissa = 0
    · simp [hzero]
    · exact Nat.le_of_lt_succ ((Nat.log2_lt hzero).mpr h.lt)
  have hleast := h.leastExponent_le
  have hshift :
      (binary64.targetExponent (totalExponent mantissa exponent) - exponent).toNat = 0 := by
    rw [targetExponent_eq]
    omega
  rw [shiftToTargetExponent, shiftToExponent, hshift]
  simp [HShiftRight.hShiftRight, Nat.repeat, ExtendedMantissa.ofMantissaAndAccuracy]

/-- A digit too many is cut off; it is zero. -/
theorem shiftToTargetExponent_carry {exponent : ℤ} (h : leastExponent ≤ exponent) :
    shiftToTargetExponent binary64 (Nat.pow 2 53) exponent .exact =
      (⟨Nat.pow 2 52, false, false⟩, exponent + 1) := by
  have hlog : (Nat.pow 2 53).log2 = 53 := Nat.log2_two_pow
  have hshift :
      (binary64.targetExponent (totalExponent (Nat.pow 2 53) exponent) - exponent).toNat = 1 := by
    rw [targetExponent_eq, hlog]
    omega
  rw [shiftToTargetExponent, shiftToExponent, hshift]
  simp [HShiftRight.hShiftRight, Nat.repeat, ExtendedMantissa.ofMantissaAndAccuracy,
    ExtendedMantissa.shiftRightOne]

section

variable {mantissa : ℕ} {exponent : ℤ} {accuracy : Accuracy} {q : ℚ}
  (h : Represents (.ofMantissaAndAccuracy mantissa accuracy) q) (hq : 0 < q)
  (hbits : 52 ≤ mantissa.log2 ∨ exponent ≤ leastExponent)
include h hq hbits

/-- The leading bit of a represented number is that of its mantissa. -/
theorem lastExponent_of_represents : lastExponent (q * 2 ^ exponent) =
    max ((mantissa.log2 : ℤ) + exponent - 52) leastExponent := by
  have hbounds := h.bounds
  rw [mantissa_ofMantissaAndAccuracy] at hbounds
  have hpos : 0 < q * 2 ^ exponent := mul_pos hq (two_zpow_pos exponent)
  by_cases hzero : mantissa = 0
  · subst hzero
    have hlog : Int.log 2 (q * 2 ^ exponent) < exponent := by
      rw [← Int.lt_zpow_iff_log_lt (by decide) hpos]
      push_cast at hbounds ⊢
      exact mul_lt_of_lt_one_left (two_zpow_pos exponent) (by linarith)
    simp only [lastExponent, Nat.log2_zero] at hbits ⊢
    omega
  · have hlog : Int.log 2 (q * 2 ^ exponent) = (mantissa.log2 : ℤ) + exponent := by
      rw [log_eq_iff hpos, zpow_add₀ (by norm_num), add_right_comm, zpow_add₀ (by norm_num)]
      refine ⟨mul_le_mul_of_nonneg_right ?_ (two_zpow_pos exponent).le,
        mul_lt_mul_of_pos_right ?_ (two_zpow_pos exponent)⟩
      · exact (zpow_log2_le (Nat.pos_of_ne_zero hzero)).trans hbounds.1
      · have hnext : (mantissa + 1 : ℕ) ≤ 2 ^ (mantissa.log2 + 1) := Nat.lt_log2_self
        refine hbounds.2.trans_le ?_
        exact_mod_cast hnext
    rw [lastExponent, hlog]

/-- Cutting off the digits that a double does not have leaves the mantissa of the nearest double. -/
theorem shift_of_represents :
    (shiftToTargetExponent binary64 mantissa exponent accuracy).1.roundedMantissa =
        Binary64.roundedMantissa (q * 2 ^ exponent) ∧
      (shiftToTargetExponent binary64 mantissa exponent accuracy).2 =
        lastExponent (q * 2 ^ exponent) := by
  have hlast := lastExponent_of_represents h hq hbits
  obtain ⟨k, hk⟩ : ∃ k : ℕ, (k : ℤ) = lastExponent (q * 2 ^ exponent) - exponent :=
    ⟨_, Int.toNat_of_nonneg (by omega)⟩
  have hshift : (binary64.targetExponent (totalExponent mantissa exponent) - exponent).toNat =
      k := by
    rw [targetExponent_eq, ← hlast, ← hk, Int.toNat_natCast]
  have hscaled : q * 2 ^ exponent / 2 ^ lastExponent (q * 2 ^ exponent) = q / 2 ^ k := by
    have hsum : lastExponent (q * 2 ^ exponent) = exponent + k := by omega
    have hexponent := (two_zpow_pos exponent).ne'
    rw [hsum, zpow_add₀ (by norm_num), zpow_natCast]
    field_simp
  rw [shiftToTargetExponent, shiftToExponent, hshift]
  refine ⟨?_, by dsimp only; omega⟩
  rw [Binary64.roundedMantissa, hscaled]
  exact (h.shiftRight k).roundedMantissa

/-- The logical model rounds to the nearest double. -/
theorem pack_roundWithAccuracy (negative : Bool) :
    Float.ofModel (.pack
        (roundWithAccuracy binary64 (signOf negative) mantissa exponent accuracy)) =
      ofMagnitude negative (nearestBits (q * 2 ^ exponent)) := by
  have hpos : 0 < q * 2 ^ exponent := mul_pos hq (two_zpow_pos exponent)
  obtain ⟨hrounded, hlast⟩ := shift_of_represents h hq hbits
  have hleast : leastExponent ≤ lastExponent (q * 2 ^ exponent) := le_max_right _ _
  have hcases := canonical_or_carry hpos
  have hfull := roundedMantissa_full hpos
  rw [roundWithAccuracy, nearestBits_eq hpos]
  dsimp only
  rw [hrounded, hlast]
  generalize lastExponent (q * 2 ^ exponent) = last at *
  generalize Binary64.roundedMantissa (q * 2 ^ exponent) = rounded at *
  rcases hcases with hcanonical | rfl
  · rw [shiftToTargetExponent_of_canonical hcanonical]
    dsimp only
    split
    · next hzero =>
      obtain rfl : last = leastExponent := by
        rw [hzero] at hfull
        simpa using hfull
      rw [hzero, pack_zero]
      simp
    · next hrest => exact pack_finite hcanonical negative _
  · rw [shiftToTargetExponent_carry hleast]
    obtain ⟨hcanonical, hsum⟩ := canonical_carry hleast
    have hne : Nat.pow 2 52 ≠ 0 := by decide
    dsimp only
    rw [dif_neg hne, pack_finite hcanonical negative, hsum]

end

/-! ### Products and quotients -/

theorem signOf_mul (negative negative' : Bool) :
    signOf negative * signOf negative' = signOf (negative != negative') := by
  cases negative <;> cases negative' <;> rfl

theorem signOf_div (negative negative' : Bool) :
    signOf negative / signOf negative' = signOf (negative != negative') := by
  cases negative <;> cases negative' <;> rfl

/-- The product of two mantissas has enough digits to be rounded, or is one of subnormal numbers. -/
theorem enoughBits_mul {mantissa mantissa' : ℕ} {exponent exponent' : ℤ}
    (h : Canonical mantissa exponent) (h' : Canonical mantissa' exponent')
    (hne : mantissa * mantissa' ≠ 0) :
    52 ≤ (mantissa * mantissa').log2 ∨ exponent + exponent' ≤ leastExponent := by
  obtain ⟨hpos, hpos'⟩ := Nat.mul_ne_zero_iff.mp hne
  rw [Nat.le_log2 hne]
  rcases h.full with hleast | hfull
  · rcases h'.full with hleast' | hfull'
    · right
      rw [hleast, hleast']
      decide
    · exact .inl (hfull'.trans (Nat.le_mul_of_pos_left _ (Nat.pos_of_ne_zero hpos)))
  · exact .inl (hfull.trans (Nat.le_mul_of_pos_right _ (Nat.pos_of_ne_zero hpos')))

theorem log2_mul_two_pow {n : ℕ} (hn : 0 < n) (k : ℕ) : (n * 2 ^ k).log2 = n.log2 + k := by
  induction k with
  | zero => simp
  | succ k ih =>
      have hne : n * 2 ^ k ≠ 0 := (Nat.mul_pos hn (Nat.two_pow_pos k)).ne'
      rw [pow_succ', Nat.mul_left_comm, Nat.log2_two_mul hne, ih, Nat.add_assoc]

/-- The quotient is shorter than the lengths of its parts differ by one digit at most. -/
theorem le_log2_div {num den n : ℕ} (hnum : 0 < num) (hden : 0 < den)
    (h : den.log2 + n + 1 ≤ num.log2) : n ≤ (num / den).log2 := by
  have hle : 2 ^ n * den ≤ num := by
    calc 2 ^ n * den
      _ ≤ 2 ^ n * 2 ^ (den.log2 + 1) := Nat.mul_le_mul_left _ Nat.lt_log2_self.le
      _ = 2 ^ (den.log2 + n + 1) := by ring
      _ ≤ 2 ^ num.log2 := Nat.pow_le_pow_right (by decide) h
      _ ≤ num := Nat.log2_self_le hnum.ne'
  have hquotient : 2 ^ n ≤ num / den := (Nat.le_div_iff_mul_le hden).mpr hle
  exact (Nat.le_log2 ((Nat.two_pow_pos n).trans_le hquotient).ne').mpr hquotient

/-- A division goes on until the quotient has enough digits, or the exponent is the least one. -/
theorem divCore_spec {mantissa mantissa' : ℕ} (hpos : 0 < mantissa) (hpos' : 0 < mantissa')
    (exponent exponent' : ℤ) :
    let core := divCore binary64 mantissa exponent mantissa' exponent'
    ∃ q : ℚ, Represents (.ofMantissaAndAccuracy core.1 core.2.2) q ∧ 0 < q ∧
      q * 2 ^ core.2.1 = mantissa * 2 ^ exponent / (mantissa' * 2 ^ exponent') ∧
      (52 ≤ core.1.log2 ∨ core.2.1 ≤ leastExponent) := by
  dsimp only [divCore]
  generalize htarget : min (exponent - exponent') _ = target
  obtain ⟨shift, hshift⟩ : ∃ shift : ℕ, (shift : ℤ) = exponent - exponent' - target :=
    ⟨_, Int.toNat_of_nonneg (by omega)⟩
  have hexponents : exponent = exponent' + target + shift := by omega
  have hnum : 0 < mantissa * 2 ^ shift := Nat.mul_pos hpos (Nat.two_pow_pos shift)
  rw [← hshift, Int.toNat_natCast, Nat.shiftLeft_eq]
  refine ⟨_, represents_quotient _ hpos', by positivity, ?_, ?_⟩
  · rw [hexponents, zpow_add₀ (by norm_num), zpow_add₀ (by norm_num), zpow_natCast]
    have := (two_zpow_pos exponent').ne'
    push_cast
    field_simp
  · by_cases hleast : target ≤ leastExponent
    · exact .inr hleast
    · left
      apply le_log2_div hnum hpos'
      rw [log2_mul_two_pow hpos]
      simp only [Format.targetExponent, totalExponent, Format.mantissaBits, Format.minExponent]
        at htarget
      unfold leastExponent at hleast
      omega

section

variable {x y : Float} {negative negative' : Bool} {mantissa mantissa' : ℕ}
  {exponent exponent' : ℤ} (hx : read x = .finite negative mantissa exponent)
  (hy : read y = .finite negative' mantissa' exponent')
include hx hy

/-- The product of two finite doubles is the double nearest to the product of their numbers. -/
theorem mul_of_read : x * y = ofMagnitude (negative != negative')
    (nearestBits (mantissa * 2 ^ exponent * (mantissa' * 2 ^ exponent'))) := by
  show Float.ofModel (.pack (UnpackedFloat.mul binary64 x.toModel.unpack y.toModel.unpack)) = _
  rw [unpack_toModel, unpack_toModel, hx, hy]
  have hleft := canonical_of_read hx
  have hright := canonical_of_read hy
  by_cases hzero : mantissa = 0
  · subst hzero
    have hproduct : UnpackedFloat.mul binary64 (Reading.finite negative 0 exponent).unpacked
        (Reading.finite negative' mantissa' exponent').unpacked =
        .zero (signOf (negative != negative')) := by
      rw [← signOf_mul, Reading.unpacked_zero, Reading.unpacked]
      split <;> rfl
    rw [hproduct, pack_zero]
    simp [nearestBits]
  · by_cases hzero' : mantissa' = 0
    · subst hzero'
      have hproduct : UnpackedFloat.mul binary64
          (Reading.finite negative mantissa exponent).unpacked
          (Reading.finite negative' 0 exponent').unpacked =
          .zero (signOf (negative != negative')) := by
        rw [← signOf_mul, Reading.unpacked_zero, Reading.unpacked_finite _ _ hzero]
        rfl
      rw [hproduct, pack_zero]
      simp [nearestBits]
    · rw [Reading.unpacked_finite _ _ hzero, Reading.unpacked_finite _ _ hzero', UnpackedFloat.mul,
        signOf_mul]
      have hne : mantissa * mantissa' ≠ 0 := Nat.mul_ne_zero hzero hzero'
      have hbits := enoughBits_mul hleft hright hne
      have hproduct : (mantissa : ℚ) * 2 ^ exponent * (mantissa' * 2 ^ exponent') =
          (mantissa * mantissa' : ℕ) * 2 ^ (exponent + exponent') := by
        rw [zpow_add₀ (by norm_num)]
        push_cast
        ring
      rw [hproduct]
      exact pack_roundWithAccuracy (represents_exact _)
        (Nat.cast_pos.mpr (Nat.pos_of_ne_zero hne)) hbits _

/-- The quotient of two finite doubles is the double nearest to the quotient of their numbers. -/
theorem div_of_read (hne : mantissa' ≠ 0) : x / y = ofMagnitude (negative != negative')
    (nearestBits (mantissa * 2 ^ exponent / (mantissa' * 2 ^ exponent'))) := by
  show Float.ofModel (.pack (UnpackedFloat.div binary64 x.toModel.unpack y.toModel.unpack)) = _
  rw [unpack_toModel, unpack_toModel, hx, hy, Reading.unpacked_finite _ _ hne]
  by_cases hzero : mantissa = 0
  · subst hzero
    rw [Reading.unpacked_zero, UnpackedFloat.div, signOf_div, pack_zero]
    simp [nearestBits]
  · obtain ⟨q, hrepresents, hpos, hquotient, hbits⟩ := divCore_spec
      (Nat.pos_of_ne_zero hzero) (Nat.pos_of_ne_zero hne) exponent exponent'
    rw [Reading.unpacked_finite _ _ hzero, UnpackedFloat.div, signOf_div, ← hquotient]
    exact pack_roundWithAccuracy hrepresents hpos hbits _

end

end ProcessFormula.Binary64
