import ProcessFormula.Proofs.Metadata.Functions
import ProcessFormula.Proofs.Number.Exact

/-!
Arrays and their elements. An element is selected by the number that the index stands for: it has to
be a whole number inside the array, whatever value it is the number of, and negative zero is zero.
Every other index is refused, and so is whatever is not an array, before the index is looked at.
-/

namespace ProcessFormula

/-- The numbers of an array, which are the indexes in an array of choices. Nothing else has any. -/
def Payload.numbers? : Payload → Option (List Float)
  | .array data _ => some data
  | .choiceArray indexes _ => some (indexes.map choiceNumber)
  | .scalar _ | .text _ | .choice _ _ | .statistics _ | .image _ => none

namespace ArrayFunction

open Binary64 (value? natural?_eq_some_iff)

section

variable {function : String} {array : Value} {rest : List Value} {data : List Float}

theorem elements_of_numbers (h : array.payload.numbers? = some data) :
    elements function (array :: rest) 0 = .ok data := by
  obtain ⟨payload, alarm, time⟩ := array
  cases payload with
  | array | choiceArray => exact congrArg Except.ok (Option.some.inj h)
  | scalar | text | choice | statistics | image => cases h

/-- What is no array is refused by every function of an array. -/
theorem elements_of_not_array (h : array.payload.numbers? = none) :
    elements function (array :: rest) 0 = .error (.invalidArgument function 0 .notArray) := by
  obtain ⟨payload, alarm, time⟩ := array
  cases payload with
  | array | choiceArray => cases h
  | scalar | text | choice | statistics | image => rfl

/-- A reduction of an array is a number with the alarm and the time of the array. -/
theorem reduce_of_numbers (h : array.payload.numbers? = some data) (f : List Float → Float) :
    reduce function f [array] = .ok (array.withPayload (.scalar (f data))) := by
  rw [reduce, elements_of_numbers h]
  rfl

/-- Arguments are collected as the numbers they read as. -/
theorem collect_cons (m : Moment) (first : Value) (rest : List Value) :
    collect m (first :: rest) = .ok (Value.derived m.now
      (.array ((first :: rest).map Value.toFloat) [UInt64.ofNat (first :: rest).length])
      (first :: rest)) :=
  rfl

end

/-- The answers to an array of such numbers and an index: the number that stands at the index, with
the worst alarm and the latest time of both arguments, if the index is a whole number inside the
array, and otherwise a refusal of the index. -/
structure Selects (m : Moment) (array index : Value) (data : List Float) : Prop where
  inside : ∀ (k : ℕ) (hk : k < data.length), value? index.toFloat = some (k : ℚ) →
    elementAt.compute m [array, index] =
      .ok ⟨.scalar data[k], array.alarm.worst index.alarm, array.time.latest index.time⟩
  outside : (∀ k < data.length, value? index.toFloat ≠ some (k : ℚ)) →
    elementAt.compute m [array, index] =
      .error (.invalidArgument "elementAt" 1 (.outOfRange index.toFloat data.length))

variable {array : Value} {data : List Float}

/-- The index counts from zero, and it has to be a natural number below the length. -/
theorem select_of_numbers (h : array.payload.numbers? = some data) (m : Moment) (index : Value) :
    select m [array, index] = match (Binary64.natural? index.toFloat).bind (data[·]?) with
      | some x => .ok (Value.derived m.now (.scalar x) [array, index])
      | none =>
        .error (.invalidArgument "elementAt" 1 (.outOfRange index.toFloat data.length)) := by
  rw [select, elements_of_numbers h]
  rfl

theorem selects_of_numbers (h : array.payload.numbers? = some data) (m : Moment) (index : Value) :
    Selects m array index data where
  inside k hk hindex := by
    have hnatural : Binary64.natural? index.toFloat = some k := natural?_eq_some_iff.mpr hindex
    show select m [array, index] = _
    rw [select_of_numbers h, hnatural, Option.bind_some, List.getElem?_eq_getElem hk]
    rfl
  outside houtside := by
    have hnone : (Binary64.natural? index.toFloat).bind (data[·]?) = none := by
      cases hnatural : Binary64.natural? index.toFloat with
      | none => rfl
      | some k =>
          refine List.getElem?_eq_none (Nat.le_of_not_lt fun hk => ?_)
          exact houtside k hk (natural?_eq_some_iff.mp hnatural)
    show select m [array, index] = _
    rw [select_of_numbers h, hnone]

/-- Exactly the whole numbers inside an array select its elements, and what is not an array is
refused. So the elements of the array of some values are the numbers that these read as, as many as
its length. -/
theorem elementAt_selects (m : Moment) (array index : Value) (values : List Value) :
    (∀ data, array.payload.numbers? = some data → Selects m array index data) ∧
      (array.payload.numbers? = none → elementAt.compute m [array, index] =
        .error (.invalidArgument "elementAt" 0 .notArray)) ∧
      (values ≠ [] → ∃ collected, arrayOf.compute m values = .ok collected ∧
        arrayLength.compute m [collected] =
          .ok (collected.withPayload (.scalar (Binary64.ofNat values.length))) ∧
        Selects m collected index (values.map Value.toFloat)) := by
  refine ⟨fun data h => selects_of_numbers h m index, fun h => ?_, fun hne => ?_⟩
  · show select m [array, index] = _
    rw [select, elements_of_not_array h]
    rfl
  · obtain ⟨first, rest, rfl⟩ := List.exists_cons_of_ne_nil hne
    have hnumbers : (Value.derived m.now (.array ((first :: rest).map Value.toFloat)
        [UInt64.ofNat (first :: rest).length]) (first :: rest)).payload.numbers? =
        some ((first :: rest).map Value.toFloat) := rfl
    refine ⟨_, collect_cons m first rest, ?_, selects_of_numbers hnumbers m index⟩
    have hlength := @reduce_of_numbers "arrayLength" _ _ hnumbers (Binary64.ofNat ·.length)
    rwa [List.length_map] at hlength

/-- A choice among two selects the second of the choices of an array and the second of three
collected values, of which it has the worse alarm; a number is no array. -/
theorem elementAt_selects_second :
    let m : Moment := ⟨⟨9, 0⟩, 0.0⟩
    let modes : Value := ⟨.choiceArray [7, -3] ["off", "on"], ⟨.minor, "LOW"⟩, ⟨5, 0⟩⟩
    let second : Value := ⟨.choice 1 ["first", "second"], ⟨.major, "HIGH"⟩, ⟨2, 0⟩⟩
    let level : Value := ⟨.scalar 2.5, .clear, ⟨3, 0⟩⟩
    elementAt.compute m [modes, second] =
        .ok ⟨.scalar (choiceNumber (-3)), ⟨.major, "HIGH"⟩, ⟨5, 0⟩⟩ ∧
      elementAt.compute m [modes, level] =
        .error (.invalidArgument "elementAt" 1 (.outOfRange 2.5 2)) ∧
      elementAt.compute m [level, second] = .error (.invalidArgument "elementAt" 0 .notArray) ∧
      ∃ collected, arrayOf.compute m [second, level, modes] = .ok collected ∧
        elementAt.compute m [collected, second] = .ok ⟨.scalar 2.5, ⟨.major, "HIGH"⟩, ⟨5, 0⟩⟩ := by
  intro m modes second level
  have hone : value? second.toFloat = some ((1 : ℕ) : ℚ) :=
    natural?_eq_some_iff.mp (by decide +kernel)
  have hhalf (k : ℕ) (_ : k < 2) : value? level.toFloat ≠ some (k : ℚ) := by
    intro hk
    have hnatural : Binary64.natural? level.toFloat = some k := natural?_eq_some_iff.mpr hk
    have hnone : Binary64.natural? level.toFloat = none := by decide +kernel
    rw [hnone] at hnatural
    cases hnatural
  have hsecond := elementAt_selects m modes second [second, level, modes]
  have hlevel := elementAt_selects m modes level []
  have hrefused := elementAt_selects m level second []
  obtain ⟨collected, hcollected, -, hselects⟩ := hsecond.2.2 (by simp)
  refine ⟨?_, ?_, hrefused.2.1 rfl, collected, hcollected, ?_⟩
  · exact (hsecond.1 [choiceNumber 7, choiceNumber (-3)] rfl).inside 1 (by decide) hone
  · exact (hlevel.1 [choiceNumber 7, choiceNumber (-3)] rfl).outside hhalf
  · obtain rfl := Except.ok.inj hcollected
    exact hselects.inside 1 (by decide) hone

end ArrayFunction

end ProcessFormula
