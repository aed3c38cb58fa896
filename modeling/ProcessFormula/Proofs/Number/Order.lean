import ProcessFormula.Proofs.Number.Exact

/-!
The order of doubles. Doubles are compared as the numbers that they stand for, which puts the two
infinities at the ends and makes the two zeros equal; NaN is not comparable with anything, itself
included. So the equality in which NaN equals itself is an equivalence.
-/

namespace ProcessFormula.Binary64

open Float.Model Float.Model.UnpackedFloat Float.Model.Format

/-- The place of a reading among the rational numbers with an infinity at either end. -/
def Reading.place? : Reading → Option (WithBot (WithTop ℚ))
  | .nan => none
  | .infinite negative => some (if negative then ⊥ else ⊤)
  | .finite negative mantissa exponent =>
    some (((if negative then -1 else 1) * (mantissa * 2 ^ exponent) : ℚ) : WithTop ℚ)

/-- The place of a double. NaN has none. -/
def place? (x : Float) : Option (WithBot (WithTop ℚ)) := (read x).place?

/-! ### Mantissas and exponents -/

theorem mul_two_zpow_pos {mantissa : ℕ} (h : mantissa ≠ 0) (exponent : ℤ) :
    (0 : ℚ) < mantissa * 2 ^ exponent :=
  mul_pos (Nat.cast_pos.mpr (Nat.pos_of_ne_zero h)) (two_zpow_pos exponent)

/-- The mantissa and the exponent that a finite double has: as many digits in the mantissa as
possible. -/
structure Canonical (mantissa : ℕ) (exponent : ℤ) : Prop where
  leastExponent_le : leastExponent ≤ exponent
  lt : mantissa < Nat.pow 2 53
  full : exponent = leastExponent ∨ Nat.pow 2 52 ≤ mantissa

/-- What is read from a finite double is canonical. -/
theorem canonical_of_read {x : Float} {negative : Bool} {mantissa : ℕ} {exponent : ℤ}
    (h : read x = .finite negative mantissa exponent) : Canonical mantissa exponent := by
  have hfraction : magnitude x % Nat.pow 2 52 < Nat.pow 2 52 := Nat.mod_lt _ (by decide)
  rw [read_eq] at h
  unfold Reading.ofMagnitude at h
  dsimp only at h
  simp only [Nat.pow_eq] at h hfraction
  split_ifs at h with hinfinite hnan hsmall
  · obtain ⟨-, rfl, rfl⟩ := Reading.finite.inj h
    exact ⟨le_rfl, by simp only [Nat.pow_eq]; omega, .inl rfl⟩
  · obtain ⟨-, rfl, rfl⟩ := Reading.finite.inj h
    refine ⟨?_, by simp only [Nat.pow_eq]; omega, .inr (Nat.le_add_left _ _)⟩
    unfold leastExponent
    omega

section

variable {mantissa mantissa' : ℕ} {exponent exponent' : ℤ} (h : Canonical mantissa exponent)
  (h' : Canonical mantissa' exponent')
include h h'

/-- Of two canonical numbers the one with the higher exponent is greater. -/
theorem Canonical.lt_of_exponent_lt (hlt : exponent < exponent') :
    (mantissa : ℚ) * 2 ^ exponent < mantissa' * 2 ^ exponent' := by
  have hmantissa : (mantissa : ℚ) < 2 ^ 53 := by exact_mod_cast h.lt
  have hfull : (2 : ℚ) ^ 52 ≤ mantissa' := by
    rcases h'.full with hleast | hfull
    · have := h.leastExponent_le
      omega
    · exact_mod_cast hfull
  calc (mantissa : ℚ) * 2 ^ exponent
    _ < 2 ^ 53 * 2 ^ exponent := mul_lt_mul_of_pos_right hmantissa (two_zpow_pos exponent)
    _ = 2 ^ 52 * 2 ^ (exponent + 1) := by
        rw [zpow_add_one₀ (by norm_num)]
        ring
    _ ≤ 2 ^ 52 * 2 ^ exponent' :=
        mul_le_mul_of_nonneg_left (zpow_le_zpow_right₀ (by norm_num) hlt) (by positivity)
    _ ≤ mantissa' * 2 ^ exponent' := mul_le_mul_of_nonneg_right hfull (two_zpow_pos exponent').le

/-- Of two finite doubles the exponents decide first. -/
theorem Canonical.compare_eq :
    compare ((mantissa : ℚ) * 2 ^ exponent) (mantissa' * 2 ^ exponent') =
      (compare exponent exponent').then (compare mantissa mantissa') := by
  rcases lt_trichotomy exponent exponent' with hlt | rfl | hgt
  · rw [compare_lt_iff_lt.mpr (h.lt_of_exponent_lt h' hlt), compare_lt_iff_lt.mpr hlt]
    rfl
  · have hmono : StrictMono fun n : ℕ => (n : ℚ) * 2 ^ exponent :=
      fun a b hab => mul_lt_mul_of_pos_right (Nat.cast_lt.mpr hab) (two_zpow_pos exponent)
    rw [compare_eq_iff_eq.mpr (rfl : exponent = exponent), ← cmp_eq_compare, ← cmp_eq_compare]
    exact hmono.cmp_map_eq mantissa mantissa'
  · rw [compare_gt_iff_gt.mpr (h'.lt_of_exponent_lt h hgt), compare_gt_iff_gt.mpr hgt]
    rfl

end

/-! ### Comparisons -/

/-- The readings of doubles. -/
def Reading.IsCanonical : Reading → Prop
  | .finite _ mantissa exponent => Canonical mantissa exponent
  | .nan | .infinite _ => True

theorem isCanonical_read (x : Float) : (read x).IsCanonical := by
  cases h : read x with
  | finite negative mantissa exponent => exact canonical_of_read h
  | nan => trivial
  | infinite negative => trivial

theorem compare_coe (p q : ℚ) :
    compare ((p : WithTop ℚ) : WithBot (WithTop ℚ)) (q : WithTop ℚ) = compare p q := by
  have hmono : StrictMono fun p : ℚ => ((p : WithTop ℚ) : WithBot (WithTop ℚ)) :=
    WithBot.coe_strictMono.comp WithTop.coe_strictMono
  rw [← cmp_eq_compare, ← cmp_eq_compare]
  exact hmono.cmp_map_eq p q

section

variable {α : Type} [LinearOrder α] {p q : α}

theorem some_lt_eq_some_compare (h : p < q) : some Ordering.lt = some (compare p q) :=
  congrArg some (compare_lt_iff_lt.mpr h).symm

theorem some_gt_eq_some_compare (h : q < p) : some Ordering.gt = some (compare p q) :=
  congrArg some (compare_gt_iff_gt.mpr h).symm

end

section

variable {negative negative' : Bool} {mantissa mantissa' : ℕ} {exponent exponent' : ℤ}
  (h : Canonical mantissa exponent) (h' : Canonical mantissa' exponent')
include h h'

/-- Where neither number is zero the signs decide first. -/
theorem compare_unpacked_of_ne_zero (hne : mantissa ≠ 0) (hne' : mantissa' ≠ 0) :
    (Reading.finite negative mantissa exponent).unpacked.compare
        (Reading.finite negative' mantissa' exponent').unpacked =
      some (compare ((if negative then -1 else 1) * ((mantissa : ℚ) * 2 ^ exponent))
        ((if negative' then -1 else 1) * (mantissa' * 2 ^ exponent'))) := by
  have hpos := mul_two_zpow_pos hne exponent
  have hpos' := mul_two_zpow_pos hne' exponent'
  rw [Reading.unpacked_finite _ _ hne, Reading.unpacked_finite _ _ hne']
  cases negative
  · cases negative'
    · simp [signOf, UnpackedFloat.compare, h.compare_eq h']
    · exact some_gt_eq_some_compare (by simp; linarith)
  · cases negative'
    · exact some_lt_eq_some_compare (by simp; linarith)
    · have hanti : StrictAnti fun p : ℚ => -1 * p := fun p q hpq => by simpa using hpq
      have hswap := hanti.cmp_map_eq ((mantissa : ℚ) * 2 ^ exponent) (mantissa' * 2 ^ exponent')
      rw [cmp_eq_compare, cmp_eq_compare] at hswap
      simp only [if_true, hswap, h'.compare_eq h]
      simp [signOf, UnpackedFloat.compare, Ordering.swap_then, Int.compare_swap,
        Nat.compare_swap]

/-- Finite doubles are compared as the numbers that they stand for. -/
theorem compare_unpacked_finite :
    (Reading.finite negative mantissa exponent).unpacked.compare
        (Reading.finite negative' mantissa' exponent').unpacked =
      some (compare ((if negative then -1 else 1) * ((mantissa : ℚ) * 2 ^ exponent))
        ((if negative' then -1 else 1) * (mantissa' * 2 ^ exponent'))) := by
  by_cases hzero : mantissa = 0
  · subst hzero
    by_cases hzero' : mantissa' = 0
    · subst hzero'
      simp [UnpackedFloat.compare]
    · have hpos' := mul_two_zpow_pos hzero' exponent'
      rw [Reading.unpacked_zero, Reading.unpacked_finite _ _ hzero']
      cases negative'
      · exact some_lt_eq_some_compare (by simpa using hpos')
      · exact some_gt_eq_some_compare (by simpa using hpos')
  · by_cases hzero' : mantissa' = 0
    · subst hzero'
      have hpos := mul_two_zpow_pos hzero exponent
      rw [Reading.unpacked_zero, Reading.unpacked_finite _ _ hzero]
      cases negative
      · exact some_gt_eq_some_compare (by simpa using hpos)
      · exact some_lt_eq_some_compare (by simpa using hpos)
    · exact compare_unpacked_of_ne_zero h h' hzero hzero'

end

/-- Unpacked doubles compare as their places do, and not at all where one has no place. -/
theorem Reading.compare_unpacked {r r' : Reading} (h : r.IsCanonical) (h' : r'.IsCanonical) :
    r.unpacked.compare r'.unpacked = match r.place?, r'.place? with
      | some p, some q => some (compare p q)
      | _, _ => none := by
  have hsame (p : WithBot (WithTop ℚ)) : some Ordering.eq = some (compare p p) :=
    congrArg some (compare_eq_iff_eq.mpr rfl).symm
  have hbot (q : ℚ) : (⊥ : WithBot (WithTop ℚ)) < (q : WithTop ℚ) := WithBot.bot_lt_coe _
  have htop (q : ℚ) : ((q : WithTop ℚ) : WithBot (WithTop ℚ)) < ⊤ :=
    WithBot.coe_lt_coe.mpr (WithTop.coe_lt_top q)
  cases r with
  | nan => cases r' <;> rfl
  | infinite negative =>
      cases r' with
      | nan => cases negative <;> rfl
      | infinite negative' =>
          cases negative
          · cases negative'
            · exact hsame ⊤
            · exact some_gt_eq_some_compare bot_lt_top
          · cases negative'
            · exact some_lt_eq_some_compare bot_lt_top
            · exact hsame ⊥
      | finite negative' mantissa' exponent' =>
          simp only [place?, Reading.unpacked]
          cases negative
          · split
            · exact some_gt_eq_some_compare (htop _)
            · exact some_gt_eq_some_compare (htop _)
          · split
            · exact some_lt_eq_some_compare (hbot _)
            · exact some_lt_eq_some_compare (hbot _)
  | finite negative mantissa exponent =>
      cases r' with
      | nan =>
          simp only [place?, Reading.unpacked]
          split <;> rfl
      | infinite negative' =>
          simp only [place?, Reading.unpacked]
          cases negative'
          · split
            · exact some_lt_eq_some_compare (htop _)
            · exact some_lt_eq_some_compare (htop _)
          · split
            · exact some_gt_eq_some_compare (hbot _)
            · exact some_gt_eq_some_compare (hbot _)
      | finite negative' mantissa' exponent' =>
          rw [compare_unpacked_finite h h']
          exact congrArg some (compare_coe _ _).symm

/-- Doubles are compared by their places. -/
theorem compare_unpack (x y : Float) :
    x.toModel.unpack.compare y.toModel.unpack = match place? x, place? y with
      | some p, some q => some (compare p q)
      | _, _ => none := by
  rw [unpack_toModel, unpack_toModel]
  exact Reading.compare_unpacked (isCanonical_read x) (isCanonical_read y)

/-- NaN alone has no place in the order. -/
theorem isNaN_iff {x : Float} : x.isNaN = true ↔ place? x = none := by
  have hmodel : x.isNaN = (read x).unpacked.isNaN := congrArg _ (unpack_toModel x)
  rw [hmodel, place?]
  cases read x with
  | nan => simp [Reading.unpacked, Reading.place?, UnpackedFloat.isNaN]
  | infinite negative => simp [Reading.unpacked, Reading.place?, UnpackedFloat.isNaN]
  | finite negative mantissa exponent =>
      simp only [Reading.unpacked, Reading.place?]
      split <;> simp [UnpackedFloat.isNaN]

section

variable {x y : Float} {p q : WithBot (WithTop ℚ)} (hx : place? x = some p)
  (hy : place? y = some q)
include hx hy

/-- A double is less than another exactly if its place is. -/
theorem lt_iff_place : x < y ↔ p < q := by
  show decide (UnpackedFloat.lt x.toModel.unpack y.toModel.unpack = true) = true ↔ p < q
  rw [UnpackedFloat.lt, compare_unpack, hx, hy]
  simp [compare_lt_iff_lt]

theorem le_iff_place : x ≤ y ↔ p ≤ q := by
  show decide (UnpackedFloat.le x.toModel.unpack y.toModel.unpack = true) = true ↔ p ≤ q
  rw [UnpackedFloat.le, compare_unpack, hx, hy]
  simp [← compare_le_iff_le, Ordering.isLE_iff_ne_gt]

theorem beq_iff_place : (x == y) = true ↔ p = q := by
  show UnpackedFloat.beq x.toModel.unpack y.toModel.unpack = true ↔ p = q
  rw [UnpackedFloat.beq, compare_unpack, hx, hy]
  simp

end

theorem beq_eq_false_of_nan {x y : Float} (h : place? x = none ∨ place? y = none) :
    (x == y) = false := by
  show UnpackedFloat.beq x.toModel.unpack y.toModel.unpack = false
  rw [UnpackedFloat.beq, compare_unpack]
  rcases h with h | h
  · rw [h]
    rfl
  · rw [h]
    cases place? x <;> rfl

/-- The equality in which NaN equals itself is that of places. -/
theorem same_iff {x y : Float} : same x y = true ↔ place? x = place? y := by
  rw [same, Bool.or_eq_true, Bool.and_eq_true, isNaN_iff, isNaN_iff]
  cases hx : place? x with
  | none => simp [beq_eq_false_of_nan (.inl hx), eq_comm]
  | some p =>
      cases hy : place? y with
      | none => simp [beq_eq_false_of_nan (.inr hy)]
      | some q => simp [beq_iff_place hx hy]

theorem place?_of_value? {x : Float} {q : ℚ} (h : value? x = some q) :
    place? x = some ((q : WithTop ℚ) : WithBot (WithTop ℚ)) := by
  unfold value? at h
  unfold place?
  cases hread : read x with
  | nan | infinite => simp [hread, Reading.value?] at h
  | finite negative mantissa exponent =>
      rw [hread] at h
      obtain rfl := Option.some.inj h
      rfl

end ProcessFormula.Binary64
