import ProcessFormula.Function.Industrial
import ProcessFormula.Proofs.Number.Scaling

/-!
Rounding to decimal places keeps NaN, the infinities and the finite numbers apart, with one
exception: a whole number of large units may lie beyond the largest double, and then a finite number
is rounded to infinity. This takes a negative number of places and a number above `2 ^ 1022`.
-/

namespace ProcessFormula.Industrial

open Binary64

/-- The power of ten that a number is multiplied by before it is rounded. -/
def factor (decimals : Float) : Float :=
  powerOfTen (truncate (limit (-mostDecimals) mostDecimals decimals))

/-- The whole number of units of `1 / factor` that is nearest to a number lies beyond the largest
double. -/
def RoundsBeyond (decimals x : Float) : Prop :=
  ∃ scaled power : ℚ, value? (x * factor decimals) = some scaled ∧
    value? (factor decimals) = some power ∧ 0 < power ∧ |scaled| < 2 ^ 52 ∧
    overflowBound ≤ ⌊|scaled| + 1 / 2⌋₊ / power

/-- NaN goes to NaN, an infinity to itself and a finite number to a finite number. -/
structure KeepsKind (x y : Float) : Prop where
  nan : x.isNaN = true → y.isNaN = true
  infinite : ∀ negative, x = infinity negative → y = infinity negative
  finite : x.isFinite = true → y.isFinite = true

theorem KeepsKind.refl (x : Float) : KeepsKind x x := ⟨id, fun _ => id, id⟩

theorem keepsKind_of_finite {x y : Float} (hx : x.isFinite = true) (hy : y.isFinite = true) :
    KeepsKind x y where
  nan hnan := by
    obtain ⟨q, hq⟩ := isFinite_iff_value?.mp hx
    rw [isNaN_iff, place?_of_value? hq] at hnan
    cases hnan
  infinite negative heq := by
    subst heq
    cases negative <;> cases hx
  finite _ := hy

/-- Rounding with its tests in order: a factor of zero, a product without digits behind its point,
and the rest. -/
theorem roundTo_eq (decimals x : Float) :
    roundTo decimals x =
      if (factor decimals == 0.0 && x.isFinite) = true then 0.0
      else if (!(x * factor decimals).isFinite ||
        decide (leastWhole ≤ (x * factor decimals).abs)) = true then x
      else roundHalfAway (x * factor decimals) / factor decimals :=
  rfl

/-- What is not finite stays what it is, also where the power of ten is zero. -/
theorem roundTo_of_not_finite {x : Float} (h : x.isFinite = false) (decimals : Float) :
    roundTo decimals x = x := by
  have hscaled : (x * factor decimals).isFinite = false := isFinite_mul (.inl h)
  rw [roundTo_eq, h, hscaled]
  simp

section

variable {decimals x : Float} {q power scaled : ℚ}

/-- A product that overflows is no problem, as the number is returned as it is. -/
theorem not_roundsBeyond_of_product (h : (x * factor decimals).isFinite = false) :
    ¬ RoundsBeyond decimals x := by
  rintro ⟨scaled, power, hscaled, -⟩
  rw [isFinite_iff_value?.mpr ⟨scaled, hscaled⟩] at h
  cases h

/-- In exact numbers: rounding leaves the doubles exactly if the product is small but dividing it by
the power of ten gives at least the bound of overflow. -/
theorem roundsBeyond_iff (hscaled : value? (x * factor decimals) = some scaled)
    (hpower : value? (factor decimals) = some power) :
    RoundsBeyond decimals x ↔
      0 < power ∧ |scaled| < 2 ^ 52 ∧ overflowBound ≤ ⌊|scaled| + 1 / 2⌋₊ / power := by
  simp [RoundsBeyond, hscaled, hpower]

variable (hx : value? x = some q) (hpower : value? (factor decimals) = some power)
  (hpos : 0 < power)
include hx hpower hpos

/-- The product is the exact one, rounded once. -/
theorem scaled_spec (hscaled : value? (x * factor decimals) = some scaled) :
    isNegative (x * factor decimals) = isNegative x ∧ |scaled| = rounded |q * power| := by
  have hproduct := mul_of_value? hx hpower
  rw [isNegative_of_pos hpower hpos, Bool.bne_false] at hproduct
  rw [hproduct] at hscaled ⊢
  rcases lt_or_ge |q * power| overflowBound with hlt | hge
  · have hbits := (nearestBits_lt_iff (abs_nonneg _)).mpr hlt
    rw [value?_nearest _ (abs_nonneg _) hlt] at hscaled
    obtain rfl := Option.some.inj hscaled
    exact ⟨isNegative_ofMagnitude _ hbits, abs_sign_mul _ (rounded_nonneg _)⟩
  · rw [nearest_eq_infinity _ (abs_nonneg _) hge, value?, read_infinity] at hscaled
    cases hscaled

/-- The whole number of units is divided by the power of ten, and the quotient is rounded once. -/
theorem quotient_spec (hscaled : value? (x * factor decimals) = some scaled) :
    roundHalfAway (x * factor decimals) / factor decimals =
      ofMagnitude (isNegative x) (nearestBits (⌊|scaled| + 1 / 2⌋₊ / power)) := by
  obtain ⟨hvalue, hnegative⟩ := value?_roundHalfAway hscaled
  have hquotient := div_of_value? hvalue hpower hpos.ne'
  rw [isNegative_of_pos hpower hpos, Bool.bne_false, hnegative,
    (scaled_spec hx hpower hpos hscaled).1, mul_div_assoc,
    abs_sign_mul _ (by positivity)] at hquotient
  exact hquotient

end

theorem value?_zero : value? 0.0 = some 0 := by
  exact_mod_cast (natural?_eq_some_iff (n := 0)).mp (by decide +kernel)

theorem value?_leastWhole : value? leastWhole = some (2 ^ 52) := by
  have hnatural := (natural?_eq_some_iff (x := leastWhole) (n := 2 ^ 52)).mp (by decide +kernel)
  exact_mod_cast hnatural

/-- A finite number stays finite or becomes infinity, as it is rounded beyond the largest double. -/
theorem roundTo_finite {x : Float} (h : x.isFinite = true) (decimals : Float) :
    (roundTo decimals x).isFinite = true ∧ ¬ RoundsBeyond decimals x ∨
      roundTo decimals x = infinity (isNegative x) ∧ RoundsBeyond decimals x := by
  obtain ⟨q, hq⟩ := isFinite_iff_value?.mp h
  rw [roundTo_eq, h, Bool.and_true]
  cases hproduct : (x * factor decimals).isFinite with
  | false =>
      left
      refine ⟨?_, not_roundsBeyond_of_product hproduct⟩
      split
      · rfl
      · simpa using h
  | true =>
      obtain ⟨scaled, hscaled⟩ := isFinite_iff_value?.mp hproduct
      obtain ⟨power, hpower, hnonneg⟩ :
          ∃ power, value? (factor decimals) = some power ∧ 0 ≤ power := by
        refine (powerOfTen_nonneg _).resolve_left fun hinfinite => ?_
        have hfactor : (factor decimals).isFinite = false := by
          rw [factor, hinfinite]
          rfl
        rw [isFinite_mul (.inr hfactor)] at hproduct
        cases hproduct
      have hzero : (factor decimals == 0.0) = true ↔ power = 0 := by
        rw [beq_iff_place (place?_of_value? hpower) (place?_of_value? value?_zero)]
        norm_cast
      have hwhole : leastWhole ≤ (x * factor decimals).abs ↔ 2 ^ 52 ≤ |scaled| := by
        rw [le_iff_place (place?_of_value? value?_leastWhole)
          (place?_of_value? (value?_abs hscaled))]
        norm_cast
      rw [roundsBeyond_iff hscaled hpower]
      simp only [hzero, Bool.not_true, Bool.false_or, decide_eq_true_eq, hwhole]
      rcases hnonneg.eq_or_lt with rfl | hpos
      · exact .inl ⟨by rw [if_pos rfl]; rfl, fun hbeyond => lt_irrefl _ hbeyond.1⟩
      · rw [if_neg hpos.ne']
        by_cases hlarge : 2 ^ 52 ≤ |scaled|
        · rw [if_pos hlarge]
          exact .inl ⟨h, fun hbeyond => not_lt.mpr hlarge hbeyond.2.1⟩
        · rw [if_neg hlarge, quotient_spec hq hpower hpos hscaled]
          rcases lt_or_ge ((⌊|scaled| + 1 / 2⌋₊ : ℚ) / power) overflowBound with hlt | hge
          · refine .inl ⟨?_, fun hbeyond => not_lt.mpr hbeyond.2.2 hlt⟩
            exact isFinite_iff_value?.mpr ⟨_, value?_nearest _ (by positivity) hlt⟩
          · exact .inr ⟨nearest_eq_infinity _ (by positivity) hge, hpos, not_le.mp hlarge, hge⟩

/-! ### Numbers that stay finite -/

theorem truncate_nonneg {x : Float} {q : ℚ} (h : value? x = some q) (hq : 0 ≤ q) :
    0 ≤ truncate x := by
  obtain ⟨mantissa, exponent, hread, habs, hsign⟩ := read_of_value? h
  unfold truncate
  rw [hread]
  dsimp only
  cases hnegative : isNegative x with
  | false => exact Int.natCast_nonneg _
  | true =>
      -- A number with a minus that is not negative is zero.
      rw [hnegative, if_pos rfl] at hsign
      have hzero : (mantissa : ℚ) * 2 ^ exponent = 0 := by
        rw [← habs]
        linarith [abs_nonneg q]
      obtain rfl : mantissa = 0 := by simpa [(two_zpow_pos exponent).ne'] using hzero
      cases exponent <;> simp

theorem value?_limit_nonneg {decimals : Float} (hfinite : decimals.isFinite = true)
    (h : 0.0 ≤ decimals) :
    ∃ q, value? (limit (-mostDecimals) mostDecimals decimals) = some q ∧ 0 ≤ q := by
  obtain ⟨q, hq⟩ := isFinite_iff_value?.mp hfinite
  have hnonneg : 0 ≤ q := by
    rw [le_iff_place (place?_of_value? value?_zero) (place?_of_value? hq)] at h
    exact_mod_cast h
  have hmost : value? mostDecimals = some 400 := by
    exact_mod_cast (natural?_eq_some_iff (n := 400)).mp (by decide +kernel)
  have hleast : value? (-mostDecimals) = some (-400) := by
    have hread : read (-mostDecimals) = .finite true 7036874417766400 (-44) := rfl
    rw [value?, hread, Reading.value?]
    norm_num
  have hlow : ¬ decimals < -mostDecimals := by
    rw [lt_iff_place (place?_of_value? hq) (place?_of_value? hleast), WithBot.coe_lt_coe,
      WithTop.coe_lt_coe]
    linarith
  unfold limit
  rw [if_neg hlow]
  dsimp only
  split
  · exact ⟨400, hmost, by norm_num⟩
  · exact ⟨q, hq, hnonneg⟩

/-- With no negative number of places the units are at most one. -/
theorem not_roundsBeyond_of_places {decimals : Float} (hfinite : decimals.isFinite = true)
    (h : 0.0 ≤ decimals) (x : Float) : ¬ RoundsBeyond decimals x := by
  rintro ⟨scaled, power, hscaled, hpower, hpos, hsmall, hbeyond⟩
  obtain ⟨q, hq, hnonneg⟩ := value?_limit_nonneg hfinite h
  have hone : 1 ≤ power := by
    rcases atLeastOne_powerOfTen (truncate_nonneg hq hnonneg) with hinfinite | ⟨p, hp, hone⟩
    · rw [factor, hinfinite, value?, read_infinity] at hpower
      cases hpower
    · rw [factor, hp] at hpower
      rwa [← Option.some.inj hpower]
  have hwhole : (⌊|scaled| + 1 / 2⌋₊ : ℚ) ≤ 2 ^ (53 : ℤ) := by
    refine (Nat.floor_le (by positivity)).trans ?_
    norm_num at hsmall ⊢
    linarith
  have hquotient := (div_le_self (Nat.cast_nonneg _) hone).trans hwhole
  exact not_lt.mpr hbeyond (hquotient.trans_lt (lt_overflowBound (by decide)))

/-- A number is at most doubled where it is rounded to a whole number of units, apart from the
rounding of the product. -/
theorem not_roundsBeyond_of_small {x : Float} {q : ℚ} (hx : value? x = some q)
    (h : |q| ≤ 2 ^ (1022 : ℤ)) (decimals : Float) : ¬ RoundsBeyond decimals x := by
  rintro ⟨scaled, power, hscaled, hpower, hpos, -, hbeyond⟩
  refine not_lt.mpr hbeyond ?_
  have habs := (scaled_spec hx hpower hpos hscaled).2
  rcases lt_or_ge |scaled| (1 / 2) with hless | hmore
  · have hfloor : ⌊|scaled| + 1 / 2⌋₊ = 0 := Nat.floor_eq_zero.mpr (by linarith)
    rw [hfloor, Nat.cast_zero, zero_div]
    exact overflowBound_pos
  · have hproduct : 0 < |q * power| := by
      by_contra hzero
      rw [le_antisymm (not_lt.mp hzero) (abs_nonneg _), rounded_zero] at habs
      linarith
    have hlast : lastExponent |q * power| ≠ leastExponent := by
      intro heq
      have := rounded_lt_half hproduct heq
      linarith
    have hscale : |scaled| ≤ |q| * power * (1 + 2 ^ (-53 : ℤ)) := by
      rw [habs, ← abs_of_pos hpos, ← abs_mul, abs_of_pos hpos]
      exact rounded_le hproduct hlast
    have hwhole : (⌊|scaled| + 1 / 2⌋₊ : ℚ) ≤ 2 * |scaled| := by
      have := Nat.floor_le (by positivity : 0 ≤ |scaled| + 1 / 2)
      linarith
    have hbound (unit : ℚ) (hunit : 0 < unit) :
        2 * (2 ^ (52 : ℤ) * unit) * (1 + 2 ^ (-53 : ℤ)) < (2 ^ (54 : ℤ) - 1) * unit := by
      norm_num
      linarith
    calc (⌊|scaled| + 1 / 2⌋₊ : ℚ) / power
      _ ≤ 2 * |q| * (1 + 2 ^ (-53 : ℤ)) := by
          have hdouble := hwhole.trans (mul_le_mul_of_nonneg_left hscale two_pos.le)
          rw [div_le_iff₀ hpos]
          exact hdouble.trans_eq (by ring)
      _ ≤ 2 * (2 ^ (52 : ℤ) * 2 ^ (970 : ℤ)) * (1 + 2 ^ (-53 : ℤ)) := by
          rw [← zpow_add₀ (by norm_num)]
          exact mul_le_mul_of_nonneg_right (mul_le_mul_of_nonneg_left h two_pos.le) (by positivity)
      _ < overflowBound := hbound _ (two_zpow_pos 970)

/-! ### The function -/

/-- The number of places that the arguments after the first give; without one it is zero. -/
def placesOf (rest : List Value) : Float := (rest.head?.map Value.toFloat).getD 0.0

/-- Only finite numbers are lost. -/
theorem roundsBeyond_finite {decimals x : Float} (h : RoundsBeyond decimals x) :
    x.isFinite = true := by
  cases hx : x.isFinite with
  | true => rfl
  | false => exact absurd h (not_roundsBeyond_of_product (isFinite_mul (.inl hx)))

theorem isFinite_infinity (negative : Bool) : (infinity negative).isFinite = false := by
  cases negative <;> rfl

/-- Rounding keeps the kind of a number unless it rounds beyond the largest double. -/
theorem keepsKind_roundTo_iff (decimals x : Float) :
    KeepsKind x (roundTo decimals x) ↔ ¬ RoundsBeyond decimals x := by
  cases hx : x.isFinite with
  | false =>
      rw [roundTo_of_not_finite hx]
      exact iff_of_true (KeepsKind.refl x)
        (not_roundsBeyond_of_product (isFinite_mul (.inl hx)))
  | true =>
      rcases roundTo_finite hx decimals with ⟨hfinite, hnot⟩ | ⟨heq, hbeyond⟩
      · exact iff_of_true (keepsKind_of_finite hx hfinite) hnot
      · refine iff_of_false (fun hkeeps => ?_) (not_not_intro hbeyond)
        have hfinite := hkeeps.finite hx
        rw [heq, isFinite_infinity] at hfinite
        cases hfinite

theorem round_compute (m : Moment) (value : Value) (rest : List Value) :
    round.compute m (value :: rest) =
      if (placesOf rest).isFinite = true then
        .ok (Value.derived m.now (.scalar (roundTo (placesOf rest) value.toFloat)) (value :: rest))
      else .error (.invalidArgument "round" 1 .decimalsNotFinite) := by
  have hplaces : ((value :: rest)[1]?.map Value.toFloat).getD 0.0 = placesOf rest := by
    rw [List.getElem?_cons_succ, ← List.head?_eq_getElem?]
    rfl
  have hround : round.compute m (value :: rest) = do
      if !(placesOf rest).isFinite then
        throw (.invalidArgument "round" 1 .decimalsNotFinite)
      return Value.derived m.now (.scalar (roundTo (placesOf rest) value.toFloat))
        (value :: rest) := by
    rw [← hplaces]
    rfl
  rw [hround]
  cases (placesOf rest).isFinite <;> rfl

/-- `round` refuses a number of places that is NaN or infinite. Otherwise its result is a number of
the same kind as its argument unless the argument is rounded beyond the largest double; then it is
infinity with the sign of the argument. No number is rounded so far to places behind the point, and
none of at most `2 ^ 1022` at all. -/
theorem round_keeps_kind (m : Moment) (value : Value) (rest : List Value) :
    let decimals := placesOf rest
    let x := value.toFloat
    (decimals.isFinite = false →
      round.compute m (value :: rest) = .error (.invalidArgument "round" 1 .decimalsNotFinite)) ∧
    (decimals.isFinite = true →
      ∃ y, round.compute m (value :: rest) =
          .ok (Value.derived m.now (.scalar y) (value :: rest)) ∧
        (KeepsKind x y ↔ ¬ RoundsBeyond decimals x) ∧
        (RoundsBeyond decimals x → y = infinity (isNegative x)) ∧
        (0.0 ≤ decimals ∨ (∃ q, value? x = some q ∧ |q| ≤ 2 ^ (1022 : ℤ)) →
          ¬ RoundsBeyond decimals x)) := by
  intro decimals x
  refine ⟨fun hrefused => ?_, fun hfinite => ?_⟩
  · rw [round_compute]
    exact if_neg (by simpa using hrefused)
  refine ⟨roundTo decimals x, ?_, keepsKind_roundTo_iff decimals x, ?_, ?_⟩
  · rw [round_compute]
    exact if_pos hfinite
  · intro hbeyond
    rcases roundTo_finite (roundsBeyond_finite hbeyond) decimals with ⟨-, hnot⟩ | ⟨heq, -⟩
    · exact absurd hbeyond hnot
    · exact heq
  · rintro (hplaces | ⟨q, hq, hsmall⟩)
    · exact not_roundsBeyond_of_places hfinite hplaces x
    · exact not_roundsBeyond_of_small hq hsmall decimals

/-- A level is rounded to hundreds whatever stands behind the number of places, and infinitely many
places are refused. -/
theorem round_keeps_kind_hundreds :
    let m : Moment := ⟨⟨9, 0⟩, 0.0⟩
    let level : Value := ⟨.scalar 1234.0, ⟨.minor, "HIGH"⟩, ⟨3, 0⟩⟩
    let places : Value := ⟨.array [-2.0, 5.0] [2], .clear, ⟨5, 0⟩⟩
    let ignored : Value := Value.text ⟨4, 0⟩ "unit"
    let endless : Value := Value.number ⟨6, 0⟩ (infinity true)
    round.compute m [level, endless] =
        .error (.invalidArgument "round" 1 .decimalsNotFinite) ∧
      ∃ y, round.compute m [level, places, ignored] =
          .ok ⟨.scalar y, ⟨.minor, "HIGH"⟩, ⟨5, 0⟩⟩ ∧ KeepsKind 1234.0 y := by
  intro m level places ignored endless
  have hlevel : value? level.toFloat = some 1234 := by
    exact_mod_cast (natural?_eq_some_iff (n := 1234)).mp (by decide +kernel)
  refine ⟨(round_keeps_kind m level [endless]).1 (by decide +kernel), ?_⟩
  obtain ⟨y, hy, hiff, -, hsafe⟩ :=
    (round_keeps_kind m level [places, ignored]).2 (by decide +kernel)
  refine ⟨y, hy, hiff.mpr (hsafe (.inr ⟨_, hlevel, ?_⟩))⟩
  calc |(1234 : ℚ)|
    _ ≤ 2 ^ (11 : ℤ) := by norm_num [abs_of_pos]
    _ ≤ 2 ^ (1022 : ℤ) := zpow_le_zpow_right₀ (by norm_num) (by decide)

/-- A number just below the largest double is rounded to `2e308`, which is infinity. -/
theorem round_overflows :
    let m : Moment := ⟨⟨9, 0⟩, 0.0⟩
    let large : Value := Value.number ⟨3, 0⟩ 1.7e308
    let places : Value := Value.number ⟨5, 0⟩ (-308.0)
    large.toFloat.isFinite = true ∧ (placesOf [places]).isFinite = true ∧
      round.compute m [large, places] = .ok (Value.number ⟨5, 0⟩ (infinity false)) ∧
      ¬ KeepsKind large.toFloat (infinity false) := by
  intro m large places
  have hfinite : large.toFloat.isFinite = true := by decide +kernel
  have hplaces : (placesOf [places]).isFinite = true := by decide +kernel
  have hround : roundTo (placesOf [places]) large.toFloat = infinity false := by decide +kernel
  refine ⟨hfinite, hplaces, ?_, fun hkeeps => ?_⟩
  · rw [round_compute, if_pos hplaces, hround]
    rfl
  · have hinfinite := hkeeps.finite hfinite
    rw [isFinite_infinity] at hinfinite
    cases hinfinite

end ProcessFormula.Industrial
