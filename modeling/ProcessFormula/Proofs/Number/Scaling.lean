import ProcessFormula.Number.Rounding
import ProcessFormula.Proofs.Number.Rounding

/-!
Products, quotients and absolute values of doubles as rational numbers, and what is computed from
them: powers of ten, which are at least one or the inverse of such a number, and the whole number
nearest to a double.
-/

namespace ProcessFormula.Binary64

open Float.Model Float.Model.UnpackedFloat Float.Model.Format

/-! ### Finite doubles as numbers -/

/-- The finite doubles are those with an exact value. -/
theorem isFinite_iff_value? {x : Float} : x.isFinite = true ↔ ∃ q, value? x = some q := by
  rw [isFinite_iff, value?]
  cases read x <;> simp [Reading.value?]

theorem read_abs {x : Float} {negative : Bool} {mantissa : ℕ} {exponent : ℤ}
    (h : read x = .finite negative mantissa exponent) :
    read x.abs = .finite false mantissa exponent := by
  have hbits := magnitude_lt_of_read h
  have hpositive : Reading.ofMagnitude false (magnitude x) = .finite false mantissa exponent := by
    rw [read_eq] at h
    unfold Reading.ofMagnitude at h ⊢
    dsimp only at h ⊢
    split_ifs at h ⊢
    · rw [(Reading.finite.inj h).2.1, (Reading.finite.inj h).2.2]
    · rw [(Reading.finite.inj h).2.1, (Reading.finite.inj h).2.2]
  have habs : x.abs = ofMagnitude false (magnitude x) := by
    apply ofModel_pack_of_unpack
    rw [unpack_toModel, unpack_toModel, read_ofMagnitude false hbits, hpositive, h]
    by_cases hzero : mantissa = 0
    · subst hzero
      simp only [Reading.unpacked_zero]
      rfl
    · simp only [Reading.unpacked_finite _ _ hzero]
      rfl
  rw [habs, read_ofMagnitude false hbits, hpositive]

theorem abs_sign_mul (negative : Bool) {q : ℚ} (hq : 0 ≤ q) :
    |(if negative then -1 else 1) * q| = q := by
  cases negative <;> simp [abs_of_nonneg hq]

theorem mantissa_ne_zero {q : ℚ} {mantissa : ℕ} {exponent : ℤ}
    (h : |q| = mantissa * 2 ^ exponent) (hne : q ≠ 0) : mantissa ≠ 0 := by
  rintro rfl
  exact hne (abs_eq_zero.mp (by simpa using h))

section

variable {x y : Float} {p q : ℚ} (hx : value? x = some p) (hy : value? y = some q)

theorem read_of_value? {x : Float} {q : ℚ} (h : value? x = some q) :
    ∃ mantissa exponent, read x = .finite (isNegative x) mantissa exponent ∧
      |q| = mantissa * 2 ^ exponent ∧ q = (if isNegative x then -1 else 1) * |q| := by
  obtain ⟨negative, mantissa, exponent, hread⟩ :=
    isFinite_iff.mp (isFinite_iff_value?.mpr ⟨q, h⟩)
  obtain rfl := isNegative_of_read hread
  rw [value?, hread] at h
  obtain rfl := Option.some.inj h
  have habs := abs_sign_mul (isNegative x)
    (mul_nonneg mantissa.cast_nonneg (two_zpow_pos exponent).le)
  exact ⟨mantissa, exponent, hread, habs, by rw [habs]⟩

include hx

theorem isNegative_of_pos (hpos : 0 < p) : isNegative x = false := by
  obtain ⟨-, -, -, -, hsign⟩ := read_of_value? hx
  by_contra hnegative
  rw [if_pos (by simpa using hnegative)] at hsign
  linarith [abs_nonneg p]

theorem value?_abs : value? x.abs = some |p| := by
  obtain ⟨mantissa, exponent, hread, habs, -⟩ := read_of_value? hx
  rw [value?, read_abs hread, Reading.value?, habs]
  simp

include hy

/-- The product of finite doubles is the double nearest to the exact product, with its sign. -/
theorem mul_of_value? :
    x * y = ofMagnitude (isNegative x != isNegative y) (nearestBits |p * q|) := by
  obtain ⟨mantissa, exponent, hread, hp, -⟩ := read_of_value? hx
  obtain ⟨mantissa', exponent', hread', hq, -⟩ := read_of_value? hy
  rw [abs_mul, hp, hq, mul_of_read hread hread']

/-- The quotient of finite doubles is the double nearest to the exact quotient, with its sign. -/
theorem div_of_value? (hne : q ≠ 0) :
    x / y = ofMagnitude (isNegative x != isNegative y) (nearestBits |p / q|) := by
  obtain ⟨mantissa, exponent, hread, hp, -⟩ := read_of_value? hx
  obtain ⟨mantissa', exponent', hread', hq, -⟩ := read_of_value? hy
  rw [abs_div, hp, hq, div_of_read hread hread' (mantissa_ne_zero hq hne)]

end

/-! ### Infinity and NaN -/

theorem read_infinity (negative : Bool) : read (infinity negative) = .infinite negative := by
  cases negative <;> rfl

theorem eq_infinity_of_read {x : Float} {negative : Bool} (h : read x = .infinite negative) :
    x = infinity negative := by
  have hinfinity := read_infinity negative
  apply ofModel_pack_of_unpack (unpack_toModel x) |>.symm.trans
  rw [h, ← hinfinity]
  exact ofModel_pack_of_unpack (unpack_toModel _)

theorem eq_nan_of_read {x : Float} (h : read x = .nan) : x = nan := by
  apply ofModel_pack_of_unpack (unpack_toModel x) |>.symm.trans
  rw [h]
  rfl

theorem isFinite_pack {u : UnpackedFloat} (h : u.isFinite = false) :
    (Float.ofModel (.pack u)).isFinite = false := by
  cases u with
  | notANumber => rfl
  | infinity sign => cases sign <;> rfl
  | zero sign => cases h
  | finite sign mantissa exponent hpos => cases h

/-- A product with NaN or an infinity is NaN or an infinity. -/
theorem isFinite_mul {x y : Float} (h : x.isFinite = false ∨ y.isFinite = false) :
    (x * y).isFinite = false := by
  replace h : x.toModel.unpack.isFinite = false ∨ y.toModel.unpack.isFinite = false := h
  apply isFinite_pack
  generalize x.toModel.unpack = u at h
  generalize y.toModel.unpack = v at h
  cases u <;> cases v <;> simp_all [UnpackedFloat.isFinite, UnpackedFloat.mul]

section

variable {x : Float} {q : ℚ} (h : value? x = some q) (hpos : 0 < q)
include h hpos

theorem unpack_of_pos : ∃ mantissa exponent hmantissa,
    x.toModel.unpack = .finite .positive mantissa exponent hmantissa := by
  obtain ⟨mantissa, exponent, hread, habs, -⟩ := read_of_value? h
  have hmantissa := mantissa_ne_zero habs hpos.ne'
  rw [unpack_toModel, hread, isNegative_of_pos h hpos, Reading.unpacked_finite _ _ hmantissa]
  exact ⟨_, _, _, rfl⟩

/-- Infinity times a positive double is infinity. -/
theorem infinity_mul : infinity false * x = infinity false := by
  obtain ⟨mantissa, exponent, hmantissa, hunpack⟩ := unpack_of_pos h hpos
  show Float.ofModel (.pack (UnpackedFloat.mul binary64 (infinity false).toModel.unpack
    x.toModel.unpack)) = _
  rw [unpack_toModel, read_infinity, hunpack]
  rfl

theorem mul_infinity : x * infinity false = infinity false := by
  obtain ⟨mantissa, exponent, hmantissa, hunpack⟩ := unpack_of_pos h hpos
  show Float.ofModel (.pack (UnpackedFloat.mul binary64 x.toModel.unpack
    (infinity false).toModel.unpack)) = _
  rw [unpack_toModel (infinity false), read_infinity, hunpack]
  rfl

end

/-! ### Powers of ten -/

/-- A double that is at least one; it may be infinity. -/
def AtLeastOne (x : Float) : Prop := x = infinity false ∨ ∃ q, value? x = some q ∧ 1 ≤ q

/-- Products of doubles of at least one are of at least one, possibly infinite. -/
theorem AtLeastOne.mul {x y : Float} (hx : AtLeastOne x) (hy : AtLeastOne y) :
    AtLeastOne (x * y) := by
  rcases hx with rfl | ⟨p, hp, hone⟩
  · rcases hy with rfl | ⟨q, hq, hone'⟩
    · exact .inl rfl
    · exact .inl (infinity_mul hq (by linarith))
  · rcases hy with rfl | ⟨q, hq, hone'⟩
    · exact .inl (mul_infinity hp (by linarith))
    · have hproduct : 1 ≤ |p * q| :=
        (one_le_mul_of_one_le_of_one_le hone hone').trans (le_abs_self _)
      rw [mul_of_value? hp hq, isNegative_of_pos hp (by linarith),
        isNegative_of_pos hq (by linarith)]
      rcases lt_or_ge |p * q| overflowBound with hlt | hge
      · refine .inr ⟨_, value?_nearest _ (abs_nonneg _) hlt, ?_⟩
        simpa using one_le_rounded hproduct
      · exact .inl (nearest_eq_infinity _ (abs_nonneg _) hge)

/-- Repeated squaring multiplies numbers that are at least one. -/
theorem atLeastOne_powerFrom {result base : Float} (hresult : AtLeastOne result)
    (hbase : AtLeastOne base) (n : ℕ) : AtLeastOne (powerFrom result base n) := by
  have hnext {result base : Float} (hresult : AtLeastOne result) (hbase : AtLeastOne base)
      (n : ℕ) : AtLeastOne (if n % 2 = 1 then result * base else result) := by
    split
    · exact hresult.mul hbase
    · exact hresult
  fun_induction powerFrom result base n with
  | case1 result base n next hdone => exact hnext hresult hbase n
  | case2 result base n next hmore ih => exact ih (hnext hresult hbase n) (hbase.mul hbase)

theorem value?_one : value? 1.0 = some 1 := by
  exact_mod_cast (natural?_eq_some_iff (n := 1)).mp (by decide +kernel)

theorem atLeastOne_power (n : ℕ) : AtLeastOne (powerFrom 1.0 10.0 n) := by
  have hten : value? 10.0 = some 10 := by
    exact_mod_cast (natural?_eq_some_iff (n := 10)).mp (by decide +kernel)
  exact atLeastOne_powerFrom (.inr ⟨1, value?_one, le_rfl⟩) (.inr ⟨10, hten, by norm_num⟩) n

/-- The power of ten for an exponent that is not negative is at least one. -/
theorem atLeastOne_powerOfTen {n : ℤ} (hn : 0 ≤ n) : AtLeastOne (powerOfTen n) := by
  rw [powerOfTen, if_neg (not_lt.mpr hn)]
  exact atLeastOne_power _

theorem rounded_nonneg (q : ℚ) : 0 ≤ rounded q :=
  mul_nonneg (Nat.cast_nonneg _) (two_zpow_pos _).le

/-- A power of ten is infinity or a number that is not negative; it may be zero. -/
theorem powerOfTen_nonneg (n : ℤ) :
    powerOfTen n = infinity false ∨ ∃ q, value? (powerOfTen n) = some q ∧ 0 ≤ q := by
  rcases lt_or_ge n 0 with hn | hn
  · right
    rw [powerOfTen, if_pos hn]
    rcases atLeastOne_power n.natAbs with heq | ⟨q, hq, hone⟩
    · refine ⟨0, ?_, le_rfl⟩
      rw [heq]
      exact_mod_cast (natural?_eq_some_iff (n := 0)).mp (by decide +kernel)
    · have hpos : 0 < q := one_pos.trans_le hone
      have hsmall : |1 / q| < overflowBound := by
        rw [abs_of_pos (one_div_pos.mpr hpos)]
        exact ((div_le_one hpos).mpr hone).trans_lt (lt_overflowBound (k := 0) (by decide))
      rw [div_of_value? value?_one hq hpos.ne', isNegative_of_pos value?_one one_pos,
        isNegative_of_pos hq hpos]
      exact ⟨_, value?_nearest _ (abs_nonneg _) hsmall, by simpa using rounded_nonneg _⟩
  · exact (atLeastOne_powerOfTen hn).imp_right fun ⟨q, hq, hone⟩ => ⟨q, hq, zero_le_one.trans hone⟩

/-! ### Whole numbers -/

/-- A natural number with a sign, if it has room in a mantissa. -/
theorem nearest_natural (negative : Bool) {n : ℕ} (h : n < Nat.pow 2 53) :
    value? (nearest negative n 1) = some ((if negative then -1 else 1) * (n : ℚ)) ∧
      isNegative (nearest negative n 1) = negative := by
  have hbound : (n : ℚ) < overflowBound := by
    refine lt_trans ?_ (lt_overflowBound (k := 53) (by decide))
    exact_mod_cast h
  have hnearest : nearest negative n 1 = ofMagnitude negative (nearestBits n) := by
    rw [nearest, magnitudeOf_eq n one_pos, Nat.cast_one, div_one]
  rw [hnearest, value?_nearest negative n.cast_nonneg hbound, rounded_natCast h]
  exact ⟨rfl, isNegative_ofMagnitude negative ((nearestBits_lt_iff n.cast_nonneg).mpr hbound)⟩

/-- The whole number nearest to a double, a half going away from zero. -/
theorem value?_roundHalfAway {x : Float} {q : ℚ} (h : value? x = some q) :
    value? (roundHalfAway x) =
        some ((if isNegative x then -1 else 1) * (⌊|q| + 1 / 2⌋₊ : ℚ)) ∧
      isNegative (roundHalfAway x) = isNegative x := by
  obtain ⟨mantissa, exponent, hread, habs, hsign⟩ := read_of_value? h
  unfold roundHalfAway
  rw [hread]
  cases exponent with
  | ofNat k =>
      have hwhole : |q| = (mantissa * 2 ^ k : ℕ) := by
        rw [habs]
        push_cast
        rfl
      have hfloor : ⌊|q| + 1 / 2⌋₊ = mantissa * 2 ^ k := by
        rw [Nat.floor_eq_iff (by positivity), hwhole]
        constructor <;> linarith
      dsimp only
      rw [h, hfloor, ← hwhole, ← hsign]
      exact ⟨rfl, rfl⟩
  | negSucc k =>
      have hfloor : ⌊|q| + 1 / 2⌋₊ = (mantissa + Nat.pow 2 k) / Nat.pow 2 (k + 1) := by
        have hquotient : |q| + 1 / 2 =
            ((mantissa + Nat.pow 2 k : ℕ) : ℚ) / (Nat.pow 2 (k + 1) : ℕ) := by
          rw [habs, zpow_negSucc]
          simp only [Nat.pow_eq]
          push_cast
          field_simp
          ring
        rw [hquotient, Nat.floor_div_eq_div]
      have hsmall : (mantissa + Nat.pow 2 k) / Nat.pow 2 (k + 1) < Nat.pow 2 53 := by
        have hmantissa := (canonical_of_read hread).lt
        have hpower : 0 < 2 ^ k := Nat.two_pow_pos k
        apply Nat.div_lt_of_lt_mul
        simp only [Nat.pow_eq, pow_succ (2 : ℕ) k] at hmantissa ⊢
        omega
      dsimp only
      rw [hfloor]
      exact nearest_natural _ hsmall

end ProcessFormula.Binary64
