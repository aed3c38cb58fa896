import ProcessFormula.Function.Builtin
import ProcessFormula.Proofs.Metadata.Functions
import ProcessFormula.Proofs.Metadata.Order
import ProcessFormula.Proofs.Value.Equality

/-!
The least and the greatest of several values. Both functions run over the numbers of their arguments
from the left and keep the better of two, NaN never being the better one. The places of the numbers
tell what comes out: the first place in the order of the function, wherever in the list it stands. So
the order of the arguments only decides which of several equally bad alarms the result has.
-/

namespace ProcessFormula

open Binary64

/-- The number equals one of the numbers in a list that are not NaN and none of which comes before
it. It is NaN if there is nothing else in the list. -/
structure Extreme (le : Float → Float → Prop) (numbers : List Float) (x : Float) : Prop where
  nan : (∀ y ∈ numbers, y.isNaN = true) → x.isNaN = true
  reached : (∃ y ∈ numbers, y.isNaN = false) → ∃ y ∈ numbers, y.isNaN = false ∧ (x == y) = true ∧
    ∀ z ∈ numbers, z.isNaN = false → le y z

namespace Binary64

/-! ### Choosing between two numbers -/

/-- The function keeps the one of two numbers that comes first in an order of places. NaN has no
place, and numbers with the same place are equal. -/
structure Chooses {α : Type} [LinearOrder α] (place : Float → Option α)
    (le : Float → Float → Prop) (choose : Float → Float → Float) : Prop where
  isNaN_iff : ∀ x, x.isNaN = true ↔ place x = none
  same_iff : ∀ x y, same x y = true ↔ place x = place y
  le_iff : ∀ x y p q, place x = some p → place y = some q → (le x y ↔ p ≤ q)
  merge : ∀ x y, place (choose x y) = (place x).merge min (place y)

theorem exists_place {x : Float} (hx : ¬ x.isNaN = true) : ∃ p, place? x = some p :=
  Option.ne_none_iff_exists'.mp (mt isNaN_iff.mpr hx)

/-- In the order of the numbers the lesser one is the minimum, where NaN has no place. -/
theorem place?_lesser (x y : Float) : place? (lesser x y) = (place? x).merge min (place? y) := by
  unfold lesser
  split
  · next hx =>
    rw [isNaN_iff.mp hx, Option.merge_none_left]
  · next hx =>
    split
    · next hy =>
      rw [isNaN_iff.mp hy, Option.merge_none_right]
    · next hy =>
      obtain ⟨p, hp⟩ := exists_place hx
      obtain ⟨q, hq⟩ := exists_place hy
      split
      · next hyx =>
        have hle : q ≤ p := ((lt_iff_place hq hp).mp hyx).le
        rw [hp, hq, Option.merge_some_some, min_eq_right hle]
      · next hyx =>
        have hle : p ≤ q := not_lt.mp (mt (lt_iff_place hq hp).mpr hyx)
        rw [hp, hq, Option.merge_some_some, min_eq_left hle]

theorem place?_greater (x y : Float) : place? (greater x y) = (place? x).merge max (place? y) := by
  unfold greater
  split
  · next hx =>
    rw [isNaN_iff.mp hx, Option.merge_none_left]
  · next hx =>
    split
    · next hy =>
      rw [isNaN_iff.mp hy, Option.merge_none_right]
    · next hy =>
      obtain ⟨p, hp⟩ := exists_place hx
      obtain ⟨q, hq⟩ := exists_place hy
      split
      · next hxy =>
        have hle : p ≤ q := ((lt_iff_place hp hq).mp hxy).le
        rw [hp, hq, Option.merge_some_some, max_eq_right hle]
      · next hxy =>
        have hle : q ≤ p := not_lt.mp (mt (lt_iff_place hp hq).mpr hxy)
        rw [hp, hq, Option.merge_some_some, max_eq_left hle]

theorem chooses_lesser : Chooses place? (· ≤ ·) lesser where
  isNaN_iff _ := isNaN_iff
  same_iff _ _ := Binary64.same_iff
  le_iff _ _ _ _ hp hq := le_iff_place hp hq
  merge := place?_lesser

/-- The greater number comes first in the reverse order. -/
theorem chooses_greater :
    Chooses (fun x => (place? x).map OrderDual.toDual) (· ≥ ·) greater where
  isNaN_iff x := by rw [isNaN_iff, Option.map_eq_none_iff]
  same_iff x y := by
    rw [Binary64.same_iff]
    exact (Option.map_injective OrderDual.toDual.injective).eq_iff.symm
  le_iff x y p q hp hq := by
    obtain ⟨p', hp', rfl⟩ := Option.map_eq_some_iff.mp hp
    obtain ⟨q', hq', rfl⟩ := Option.map_eq_some_iff.mp hq
    exact le_iff_place hq' hp'
  merge x y := by
    rw [place?_greater]
    cases place? x <;> cases place? y <;> rfl

/-! ### Choosing among many numbers -/

namespace Chooses

variable {α : Type} [LinearOrder α] {place : Float → Option α} {le : Float → Float → Prop}
  {choose : Float → Float → Float} (h : Chooses place le choose)
include h

/-- The place of the number that is kept is the first of all places. -/
theorem place_foldl (x : Float) (rest : List Float) :
    place (rest.foldl choose x) = ((x :: rest).filterMap place).min? := by
  induction rest generalizing x with
  | nil => cases hx : place x <;> simp [hx]
  | cons y rest ih =>
      rw [List.foldl_cons, ih]
      simp only [List.filterMap_cons, h.merge]
      cases hx : place x with
      | none => rw [Option.merge_none_left]
      | some p =>
          cases hy : place y with
          | none => rw [Option.merge_none_right]
          | some q =>
              -- Both sides fold the later places onto the lesser of these two.
              simp only [Option.merge_some_some, List.min?_cons', List.foldl_cons]

theorem isNaN_eq_false_iff (x : Float) : x.isNaN = false ↔ ∃ p, place x = some p := by
  rw [Bool.eq_false_iff, Ne, h.isNaN_iff, ← Ne, Option.ne_none_iff_exists']

/-- The fold from the first number on keeps the extreme one. The induction is on the numbers behind
it. -/
theorem extreme (x : Float) (rest : List Float) : Extreme le (x :: rest) (rest.foldl choose x) := by
  have hplace := h.place_foldl x rest
  generalize rest.foldl choose x = kept at hplace
  constructor
  · intro hnan
    have hnone : (x :: rest).filterMap place = [] := by
      apply List.filterMap_eq_nil_iff.mpr
      intro y hy
      exact (h.isNaN_iff y).mp (hnan y hy)
    rw [hnone] at hplace
    exact (h.isNaN_iff kept).mpr hplace
  · rintro ⟨y, hy, hnumber⟩
    obtain ⟨r, hr⟩ := (h.isNaN_eq_false_iff y).mp hnumber
    have hplaces : (x :: rest).filterMap place ≠ [] :=
      List.ne_nil_of_mem (List.mem_filterMap.mpr ⟨y, hy, hr⟩)
    obtain ⟨p, hp⟩ := Option.ne_none_iff_exists'.mp (mt List.min?_eq_none_iff.mp hplaces)
    obtain ⟨hmem, hleast⟩ := List.min?_eq_some_iff.mp hp
    obtain ⟨z, hz, hzp⟩ := List.mem_filterMap.mp hmem
    have hznumber : z.isNaN = false := (h.isNaN_eq_false_iff z).mpr ⟨p, hzp⟩
    have hequal : same kept z = true := by
      rw [h.same_iff, hplace, hp, hzp]
    refine ⟨z, hz, hznumber, ?_, ?_⟩
    · simpa only [same, hznumber, Bool.and_false, Bool.or_false] using hequal
    · intro w hw hwnumber
      obtain ⟨q, hq⟩ := (h.isNaN_eq_false_iff w).mp hwnumber
      exact (h.le_iff z w p q hzp hq).mpr (hleast q (List.mem_filterMap.mpr ⟨w, hw, hq⟩))

/-- In whatever order the numbers stand, equal numbers are kept. -/
theorem same_of_perm {x y : Float} {rest others : List Float}
    (hperm : (x :: rest).Perm (y :: others)) :
    same (rest.foldl choose x) (others.foldl choose y) = true := by
  rw [h.same_iff, h.place_foldl, h.place_foldl]
  apply Option.ext
  intro p
  rw [List.min?_eq_some_iff, List.min?_eq_some_iff]
  simp only [(hperm.filterMap place).mem_iff]

end Chooses

end Binary64

/-! ### Choosing among values -/

/-- The value is the extreme one of some values: its number is, and the alarm and the time are those
of all of them together. -/
structure Value.IsExtreme (le : Float → Float → Prop) (args : List Value) (v : Value) : Prop where
  number : ∃ x, v.payload = .scalar x ∧ Extreme le (args.map Value.toFloat) x
  alarm : FirstWorst v.alarm args
  time : IsLatest v.time args

/-- Two values that differ at most in which of two equally bad alarms they have. -/
structure Value.AgreesWith (v w : Value) : Prop where
  payload : v.payload.same w.payload = true
  rank : v.alarm.severity.rank = w.alarm.severity.rank
  time : v.time = w.time

namespace Builtin

variable {function : String} {m : Moment} {args : List Value}

theorem fold_cons (function : String) (choose : Float → Float → Float) (m : Moment)
    (first : Value) (rest : List Value) :
    fold function choose m (first :: rest) = .ok (Value.derived m.now
      (.scalar ((rest.map Value.toFloat).foldl choose first.toFloat)) (first :: rest)) :=
  rfl

section

variable {α : Type} [LinearOrder α] {place : Float → Option α} {le : Float → Float → Prop}
  {choose : Float → Float → Float} (h : Chooses place le choose)
include h

/-- So the function has the extreme value, and the order of the arguments shows only in which of two
equally bad alarms the result has. -/
theorem fold_extreme (hne : args ≠ []) :
    ∃ v, fold function choose m args = .ok v ∧ v.IsExtreme le args ∧
      ∀ m' args', args.Perm args' → ∃ v', fold function choose m' args' = .ok v' ∧
        v.AgreesWith v' := by
  obtain ⟨first, rest, rfl⟩ := List.exists_cons_of_ne_nil hne
  have hcarries : Carries (Value.derived m.now
      (.scalar ((rest.map Value.toFloat).foldl choose first.toFloat)) (first :: rest))
      (first :: rest) := carries_derived hne m.now _
  refine ⟨_, fold_cons function choose m first rest, ?_, ?_⟩
  · exact ⟨⟨_, rfl, h.extreme _ _⟩, hcarries.alarm, hcarries.time⟩
  · intro m' args' hperm
    have hne' : args' ≠ [] := by
      rintro rfl
      exact hne hperm.eq_nil
    obtain ⟨first', rest', rfl⟩ := List.exists_cons_of_ne_nil hne'
    have hcarries' : Carries (Value.derived m'.now
        (.scalar ((rest'.map Value.toFloat).foldl choose first'.toFloat)) (first' :: rest'))
        (first' :: rest') := carries_derived hne' m'.now _
    refine ⟨_, fold_cons function choose m' first' rest', ?_, ?_, ?_⟩
    · exact h.same_of_perm (hperm.map Value.toFloat)
    · exact hcarries.alarm.rank_eq_of_perm hcarries'.alarm hperm
    · exact hcarries.time.eq_of_perm hcarries'.time hperm

end

/-- The least and the greatest of two values or more. The number of the result is the extreme one of
the numbers that the values read as, NaN not counting unless there is nothing else; its alarm is that
of the first value of those with the highest rank, and its time is the latest. If the values are put
in another order, the result has an equal payload, the same rank of its severity and the same time. -/
theorem min_max_extreme (m : Moment) {args : List Value} (hcount : 2 ≤ args.length) :
    (∃ v, min.compute m args = .ok v ∧ v.IsExtreme (· ≤ ·) args ∧
      ∀ m' args', args.Perm args' → ∃ v', min.compute m' args' = .ok v' ∧ v.AgreesWith v') ∧
    ∃ v, max.compute m args = .ok v ∧ v.IsExtreme (· ≥ ·) args ∧
      ∀ m' args', args.Perm args' → ∃ v', max.compute m' args' = .ok v' ∧ v.AgreesWith v' := by
  have hne : args ≠ [] := by
    rintro rfl
    simp at hcount
  exact ⟨fold_extreme chooses_lesser hne, fold_extreme chooses_greater hne⟩

/-- A text and an empty array have no part in the greatest number; the alarm is that of the first
value. -/
theorem min_max_extreme_gaps :
    let m : Moment := ⟨⟨9, 0⟩, 0.0⟩
    let missing : Value := ⟨.text "pump", ⟨.invalid, "UDF"⟩, ⟨5, 0⟩⟩
    let level : Value := ⟨.scalar 2.5, ⟨.disconnected, "Disconnected"⟩, ⟨7, 0⟩⟩
    let none : Value := ⟨.array [] [0], .clear, ⟨3, 0⟩⟩
    2 ≤ [missing, level, none].length ∧
      ∃ v, max.compute m [missing, level, none] = .ok v ∧
        v.IsExtreme (· ≥ ·) [missing, level, none] ∧ v.alarm = ⟨.invalid, "UDF"⟩ ∧
        ∃ v', max.compute m [none, level, missing] = .ok v' ∧ v.AgreesWith v' ∧
          v'.alarm = ⟨.disconnected, "Disconnected"⟩ := by
  intro m missing level none
  have hcount : 2 ≤ [missing, level, none].length := by decide
  have hperm : [missing, level, none].Perm [none, level, missing] :=
    (List.reverse_perm [missing, level, none]).symm
  obtain ⟨-, v, hv, hextreme, hpermuted⟩ := min_max_extreme m hcount
  obtain ⟨v', hv', hagrees⟩ := hpermuted m _ hperm
  obtain rfl := Except.ok.inj hv
  obtain rfl := Except.ok.inj hv'
  exact ⟨hcount, _, hv, hextreme, rfl, _, hv', hagrees, rfl⟩

end Builtin

end ProcessFormula
