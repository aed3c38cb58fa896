import ProcessFormula.Proofs.Number.Order
import ProcessFormula.Value.Basic

/-!
Equality of values. Numbers are equal if they have the same place among the numbers, which makes the
two zeros equal and NaN equal to itself, wherever in a payload they stand; everything else has to be
the same. So equality is an equivalence.
-/

namespace ProcessFormula

open Binary64

/-- Lists of numbers are the same if their numbers have the same places. -/
theorem sameNumbers_iff {as bs : List Float} :
    sameNumbers as bs = true ↔ as.map place? = bs.map place? := by
  induction as generalizing bs with
  | nil => cases bs <;> simp [sameNumbers]
  | cons a as ih =>
      cases bs with
      | nil => simp [sameNumbers]
      | cons b bs => simp [sameNumbers, same_iff, ih]

theorem Statistics.same_iff {a b : Statistics} :
    a.same b = true ↔ place? a.average = place? b.average ∧ place? a.stdDev = place? b.stdDev ∧
      place? a.min = place? b.min ∧ place? a.max = place? b.max ∧ a.count = b.count := by
  simp only [Statistics.same, Bool.and_eq_true, Binary64.same_iff, beq_iff_eq, and_assoc]

namespace Payload

/-- When payloads are equal. -/
inductive Same : Payload → Payload → Prop
  | scalar {a b : Float} (h : place? a = place? b) : Same (.scalar a) (.scalar b)
  | text (s : String) : Same (.text s) (.text s)
  | choice (index : Int64) (choices : List String) :
    Same (.choice index choices) (.choice index choices)
  | array {a b : List Float} (h : a.map place? = b.map place?) (shape : List UInt64) :
    Same (.array a shape) (.array b shape)
  | choiceArray (indexes : List Int64) (choices : List String) :
    Same (.choiceArray indexes choices) (.choiceArray indexes choices)
  | statistics {a b : Statistics} (average : place? a.average = place? b.average)
    (stdDev : place? a.stdDev = place? b.stdDev) (min : place? a.min = place? b.min)
    (max : place? a.max = place? b.max) (count : a.count = b.count) :
    Same (.statistics a) (.statistics b)
  | image (i : Image) : Same (.image i) (.image i)

/-- The test decides the relation. -/
theorem same_iff {p q : Payload} : p.same q = true ↔ p.Same q := by
  constructor
  · intro h
    cases p <;> cases q <;> simp only [same, Bool.and_eq_true, beq_iff_eq, reduceCtorEq] at h
    case scalar.scalar => exact .scalar (Binary64.same_iff.mp h)
    case text.text =>
      subst h
      exact .text _
    case choice.choice =>
      obtain ⟨rfl, rfl⟩ := h
      exact .choice _ _
    case array.array =>
      obtain ⟨rfl, hnumbers⟩ := h
      exact .array (sameNumbers_iff.mp hnumbers) _
    case choiceArray.choiceArray =>
      obtain ⟨rfl, rfl⟩ := h
      exact .choiceArray _ _
    case statistics.statistics =>
      obtain ⟨haverage, hstdDev, hmin, hmax, hcount⟩ := Statistics.same_iff.mp h
      exact .statistics haverage hstdDev hmin hmax hcount
    case image.image =>
      subst h
      exact .image _
  · intro h
    cases h with
    | scalar h => exact Binary64.same_iff.mpr h
    | text | choice | choiceArray | image => simp [same]
    | array h shape => simp [same, sameNumbers_iff.mpr h]
    | statistics average stdDev min max count =>
        exact Statistics.same_iff.mpr ⟨average, stdDev, min, max, count⟩

theorem Same.equivalence : Equivalence Same where
  refl p := by
    cases p with
    | scalar => exact .scalar rfl
    | text => exact .text _
    | choice => exact .choice _ _
    | array => exact .array rfl _
    | choiceArray => exact .choiceArray _ _
    | statistics => exact .statistics rfl rfl rfl rfl rfl
    | image => exact .image _
  symm h := by
    cases h with
    | scalar h => exact .scalar h.symm
    | text => exact .text _
    | choice => exact .choice _ _
    | array h => exact .array h.symm _
    | choiceArray => exact .choiceArray _ _
    | statistics average stdDev min max count =>
        exact .statistics average.symm stdDev.symm min.symm max.symm count.symm
    | image => exact .image _
  trans h h' := by
    cases h with
    | scalar h =>
        cases h' with
        | scalar h' => exact .scalar (h.trans h')
    | text | choice | choiceArray | image => exact h'
    | array h =>
        cases h' with
        | array h' => exact .array (h.trans h') _
    | statistics average stdDev min max count =>
        cases h' with
        | statistics average' stdDev' min' max' count' =>
            exact .statistics (average.trans average') (stdDev.trans stdDev') (min.trans min')
              (max.trans max') (count.trans count')

/-- To have the same payload is an equivalence, NaN being the same as itself. -/
theorem same_equivalence : Equivalence fun p q : Payload => p.same q = true := by
  simp only [same_iff]
  exact Same.equivalence

end Payload

namespace Value

theorem same_iff {a b : Value} :
    a.same b = true ↔ a.payload.Same b.payload ∧ a.alarm = b.alarm ∧ a.time = b.time := by
  simp only [same, Bool.and_eq_true, Payload.same_iff, beq_iff_eq, and_assoc]

/-- To be the same value is an equivalence. -/
theorem same_equivalence : Equivalence fun a b : Value => a.same b = true where
  refl a := same_iff.mpr ⟨Payload.Same.equivalence.refl _, rfl, rfl⟩
  symm h := by
    obtain ⟨hpayload, halarm, htime⟩ := same_iff.mp h
    exact same_iff.mpr ⟨Payload.Same.equivalence.symm hpayload, halarm.symm, htime.symm⟩
  trans h h' := by
    obtain ⟨hpayload, halarm, htime⟩ := same_iff.mp h
    obtain ⟨hpayload', halarm', htime'⟩ := same_iff.mp h'
    exact same_iff.mpr ⟨Payload.Same.equivalence.trans hpayload hpayload', halarm.trans halarm',
      htime.trans htime'⟩

end Value

end ProcessFormula
