import Mathlib
import ProcessFormula.Number.Binary64

/-!
What the bits of a double stand for, here and in the logical model of doubles, is the same number.
Hence a finite double is made from its sign and its other bits, negation changes the sign alone, and
finite doubles are those that stand for a number.
-/

namespace ProcessFormula.Binary64

open Float.Model Float.Model.UnpackedFloat Float.Model.Format

/-- The number that a sign and the other bits of a double stand for. -/
def Reading.ofMagnitude (negative : Bool) (magnitude : Nat) : Reading :=
  let biased := magnitude / Nat.pow 2 52
  let fraction := magnitude % Nat.pow 2 52
  if biased = 2047 then if fraction = 0 then .infinite negative else .nan
  else if biased = 0 then .finite negative fraction leastExponent
  else .finite negative (fraction + Nat.pow 2 52) ((biased : Int) - 1075)

def signOf (negative : Bool) : Sign := if negative then .negative else .positive

/-- The same number in the logical model. -/
def Reading.unpacked : Reading → UnpackedFloat
  | .nan => .notANumber
  | .infinite negative => .infinity (signOf negative)
  | .finite negative mantissa exponent =>
    if h : mantissa = 0 then .zero (signOf negative)
    else .finite (signOf negative) mantissa exponent (Nat.pos_of_ne_zero h)

@[simp] theorem Reading.unpacked_zero (negative : Bool) (exponent : Int) :
    (Reading.finite negative 0 exponent).unpacked = .zero (signOf negative) := by
  simp [Reading.unpacked]

theorem Reading.unpacked_finite (negative : Bool) {mantissa : Nat} (exponent : Int)
    (h : mantissa ≠ 0) :
    (Reading.finite negative mantissa exponent).unpacked =
      .finite (signOf negative) mantissa exponent (Nat.pos_of_ne_zero h) := by
  simp [Reading.unpacked, h]

theorem read_eq (x : Float) : read x = Reading.ofMagnitude (isNegative x) (magnitude x) := rfl

theorem toNat_unpackMantissa (b : BitVec 64) :
    (@unpackMantissa binary64 b).toNat = b.toNat % signBit % Nat.pow 2 52 := by
  simp [unpackMantissa, signBit]

theorem toNat_unpackExponent (b : BitVec 64) :
    (@unpackExponent binary64 b).toNat = b.toNat % signBit / Nat.pow 2 52 := by
  simp [unpackExponent, Nat.shiftRight_eq_div_pow, signBit]
  omega

theorem sign_unpackSign (b : BitVec 64) :
    Sign.ofBitVec (@unpackSign binary64 b) = signOf (decide (signBit ≤ b.toNat)) := by
  have hb := b.isLt
  have hsign : (@unpackSign binary64 b).toNat = b.toNat / signBit := by
    simp [unpackSign, Nat.shiftRight_eq_div_pow, signBit]
    omega
  have hzero : @unpackSign binary64 b = 0#1 ↔ ¬ signBit ≤ b.toNat := by
    rw [← BitVec.toNat_inj, hsign]
    simp [signBit]
  by_cases h : signBit ≤ b.toNat <;> simp [Sign.ofBitVec, signOf, hzero, h]

private theorem exponentBias_eq : (binary64.exponentBias : Int) = 1023 := rfl

/-- Unpacking reads the sign bit, the exponent and the fraction. -/
theorem unpack_eq (b : BitVec 64) :
    UnpackedFloat.unpack binary64 b =
      (Reading.ofMagnitude (decide (signBit ≤ b.toNat)) (b.toNat % signBit)).unpacked := by
  have hall : @unpackExponent binary64 b = (-1#_) ↔
      b.toNat % signBit / Nat.pow 2 52 = 2047 := by
    rw [← BitVec.toNat_inj, toNat_unpackExponent]
    simp
  have hnone : @unpackExponent binary64 b = 0#_ ↔
      b.toNat % signBit / Nat.pow 2 52 = 0 := by
    rw [← BitVec.toNat_inj, toNat_unpackExponent]
    simp
  have hzero : @unpackMantissa binary64 b = 0#_ ↔
      b.toNat % signBit % Nat.pow 2 52 = 0 := by
    rw [← BitVec.toNat_inj, toNat_unpackMantissa]
    simp
  have hone : (1#1 ++ @unpackMantissa binary64 b).toNat =
      b.toNat % signBit % Nat.pow 2 52 + Nat.pow 2 52 := by
    rw [BitVec.toNat_append,
      ← Nat.shiftLeft_add_eq_or_of_lt (@unpackMantissa binary64 b).isLt,
      toNat_unpackMantissa]
    simp [Nat.add_comm]
  unfold UnpackedFloat.unpack Reading.ofMagnitude
  simp only [hall, hnone, hzero, sign_unpackSign, toNat_unpackMantissa, toNat_unpackExponent, hone]
  split
  · split <;> rfl
  · split
    · next hsmall =>
      split
      · next hfraction => simp [Reading.unpacked, hfraction]
      · next hfraction =>
        simp only [Reading.unpacked, hfraction, leastExponent, hsmall, dif_neg, not_false_iff,
          exponentBias_eq]
        rfl
    · simp [Reading.unpacked, exponentBias_eq]

/-- The unpacked form of a double is what `read` finds in its bits. -/
theorem unpack_toModel (x : Float) : x.toModel.unpack = (read x).unpacked := by
  exact unpack_eq x.toBits.toBitVec

/-- The finite doubles are those that stand for a number. -/
theorem isFinite_iff {x : Float} :
    x.isFinite = true ↔
      ∃ negative mantissa exponent, read x = .finite negative mantissa exponent := by
  have hmodel : x.isFinite = (read x).unpacked.isFinite := congrArg _ (unpack_toModel x)
  rw [hmodel]
  cases read x with
  | nan => simp [Reading.unpacked, UnpackedFloat.isFinite]
  | infinite negative => simp [Reading.unpacked, UnpackedFloat.isFinite]
  | finite negative mantissa exponent =>
      by_cases hzero : mantissa = 0
      · subst hzero
        simp [UnpackedFloat.isFinite]
      · simp [Reading.unpacked_finite _ _ hzero, UnpackedFloat.isFinite]

theorem isNegative_of_read {x : Float} {negative : Bool} {mantissa : Nat} {exponent : Int}
    (h : read x = .finite negative mantissa exponent) : isNegative x = negative := by
  rw [read_eq] at h
  unfold Reading.ofMagnitude at h
  dsimp only at h
  split_ifs at h
  · exact (Reading.finite.inj h).1
  · exact (Reading.finite.inj h).1

theorem magnitude_lt_of_read {x : Float} {negative : Bool} {mantissa : Nat} {exponent : Int}
    (h : read x = .finite negative mantissa exponent) : magnitude x < infinityBits := by
  have hsmall : magnitude x < signBit := Nat.mod_lt _ (by decide)
  rw [read_eq] at h
  unfold Reading.ofMagnitude at h
  by_cases hbiased : magnitude x / Nat.pow 2 52 = 2047
  · simp only [hbiased, if_true] at h
    split at h <;> cases h
  · simp [signBit, infinityBits] at hsmall hbiased ⊢
    omega

theorem magnitude_ne_zero_of_read {x : Float} {negative : Bool} {mantissa : Nat} {exponent : Int}
    (h : read x = .finite negative mantissa exponent) (hmantissa : mantissa ≠ 0) :
    magnitude x ≠ 0 := by
  intro hzero
  rw [read_eq, hzero] at h
  cases h
  exact hmantissa rfl

/-- The logical model keeps the bits of a double that stands for a number. -/
theorem toBits_ofBits {bits : UInt64} (h : bits.toNat % signBit < infinityBits) :
    (Float.ofBits bits).toBits = bits := by
  have hexponent : @unpackExponent binary64 bits.toBitVec ≠ -1#_ := by
    intro hall
    have hmax := congrArg BitVec.toNat hall
    rw [toNat_unpackExponent] at hmax
    simp [signBit, infinityBits] at h hmax
    omega
  have hnumber : ¬ @isNaNBits binary64 bits.toBitVec :=
    fun hnan => hexponent (of_decide_eq_true hnan).1
  apply UInt64.toBitVec_inj.mp
  exact (@pack_unpack binary64 bits.toBitVec (by decide)).trans (if_neg hnumber)

private theorem toNat_ofNat_bits (negative : Bool) {magnitude : Nat}
    (h : magnitude < infinityBits) :
    (UInt64.ofNat (if negative then signBit + magnitude else magnitude)).toNat =
      negative.toNat * signBit + magnitude := by
  rw [UInt64.toNat_ofNat']
  simp [infinityBits, signBit] at h ⊢
  cases negative <;> simp <;> omega

/-- The bits that a double is made from are the bits that it has. -/
theorem toNat_toBits_ofMagnitude (negative : Bool) {magnitude : Nat}
    (h : magnitude < infinityBits) :
    (ofMagnitude negative magnitude).toBits.toNat = negative.toNat * signBit + magnitude := by
  have hsmall : magnitude < signBit := by
    simp [infinityBits, signBit] at h ⊢
    omega
  have hrest : (negative.toNat * signBit + magnitude) % signBit = magnitude := by
    rw [Nat.mul_add_mod_self_right, Nat.mod_eq_of_lt hsmall]
  rw [ofMagnitude, toBits_ofBits (by rwa [toNat_ofNat_bits negative h, hrest]),
    toNat_ofNat_bits negative h]

theorem magnitude_ofMagnitude (negative : Bool) {bits : Nat} (h : bits < infinityBits) :
    magnitude (ofMagnitude negative bits) = bits := by
  have hsmall : bits < signBit := by
    simp [infinityBits, signBit] at h ⊢
    omega
  rw [magnitude, toNat_toBits_ofMagnitude negative h, Nat.mul_add_mod_self_right,
    Nat.mod_eq_of_lt hsmall]

theorem isNegative_ofMagnitude (negative : Bool) {bits : Nat} (h : bits < infinityBits) :
    isNegative (ofMagnitude negative bits) = negative := by
  rw [isNegative, toNat_toBits_ofMagnitude negative h]
  simp [infinityBits, signBit] at h ⊢
  cases negative
  · simp
    omega
  · simp

/-- The bits of a double are its sign and its magnitude. -/
theorem toNat_toBits (x : Float) :
    x.toBits.toNat = (isNegative x).toNat * signBit + magnitude x := by
  have hlt := x.toBits.toNat_lt
  simp [isNegative, magnitude, signBit]
  by_cases h : 9223372036854775808 ≤ x.toBits.toNat <;> simp [h] <;> omega

/-- A finite double is made from its sign and its other bits. -/
theorem ofMagnitude_magnitude {x : Float} (h : magnitude x < infinityBits) :
    ofMagnitude (isNegative x) (magnitude x) = x := by
  rw [← Float.toBits_inj, ← UInt64.toNat_inj, toNat_toBits_ofMagnitude _ h, toNat_toBits]

theorem Reading.unpacked_neg (negative : Bool) (magnitude : Nat) :
    (Reading.ofMagnitude negative magnitude).unpacked.neg =
      (Reading.ofMagnitude (!negative) magnitude).unpacked := by
  have hsign : -signOf negative = signOf (!negative) := by
    cases negative <;> rfl
  have hfinite (mantissa : Nat) (exponent : Int) :
      (Reading.finite negative mantissa exponent).unpacked.neg =
        (Reading.finite (!negative) mantissa exponent).unpacked := by
    by_cases hzero : mantissa = 0
    · subst hzero
      simp [UnpackedFloat.neg, hsign]
    · simp [Reading.unpacked_finite _ _ hzero, UnpackedFloat.neg, hsign]
  have hinfinite : (Reading.infinite negative).unpacked.neg =
      (Reading.infinite (!negative)).unpacked := congrArg UnpackedFloat.infinity hsign
  unfold Reading.ofMagnitude
  dsimp only
  split_ifs
  · exact hinfinite
  · rfl
  · exact hfinite _ _
  · exact hfinite _ _

/-- A double is read as the sign and the magnitude that it is made from. -/
theorem read_ofMagnitude (negative : Bool) {bits : Nat} (h : bits < infinityBits) :
    read (ofMagnitude negative bits) = Reading.ofMagnitude negative bits := by
  rw [read_eq, isNegative_ofMagnitude negative h, magnitude_ofMagnitude negative h]

/-- Negation of a finite double changes its sign and nothing else. -/
theorem neg_ofMagnitude (negative : Bool) {bits : Nat} (h : bits < infinityBits) :
    -ofMagnitude negative bits = ofMagnitude (!negative) bits := by
  have hunpack : (ofMagnitude negative bits).toModel.unpack.neg =
      (ofMagnitude (!negative) bits).toModel.unpack := by
    rw [unpack_toModel, unpack_toModel, read_ofMagnitude _ h, read_ofMagnitude _ h,
      Reading.unpacked_neg]
  have hpack := (ofMagnitude (!negative) bits).toModel.valid
  rw [← Float.toBits_inj, ← UInt64.toBitVec_inj]
  exact (congrArg (UnpackedFloat.pack binary64) hunpack).trans (pack_unpack_of_valid hpack)

end ProcessFormula.Binary64
