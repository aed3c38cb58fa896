import ProcessFormula.Proofs.Metadata.Combining

/-!
Values combined step by step. Steps may take two results or any number of them, and the values may be
divided among the steps in any way that keeps their order: the alarm and the time that come out are
those of a single step over all values.
-/

namespace ProcessFormula

/-- A way to combine values step by step. A step takes two results, or one and any number more, in
their order, and makes data of its own. -/
inductive Grouping where
  | single (v : Value)
  | pair (result : Float) (left right : Grouping)
  | group (now : Timestamp) (payload : Payload) (first : Grouping) (rest : List Grouping)

namespace Grouping

mutual

def values : Grouping → List Value
  | .single v => [v]
  | .pair _ left right => left.values ++ right.values
  | .group _ _ first rest => first.values ++ allValues rest

def allValues : List Grouping → List Value
  | [] => []
  | g :: rest => g.values ++ allValues rest

end

mutual

def combined : Grouping → Value
  | .single v => v
  | .pair result left right => Value.combine result left.combined right.combined
  | .group now payload first rest =>
    Value.derived now payload (first.combined :: allCombined rest)

def allCombined : List Grouping → List Value
  | [] => []
  | g :: rest => g.combined :: allCombined rest

end

mutual

/-- Whatever the steps, the result carries what all the values have together. -/
theorem carries_combined (g : Grouping) : Carries g.combined g.values := by
  match g with
  | .single v => exact carries_single v
  | .pair result left right =>
      exact left.carries_combined.append right.carries_combined rfl rfl
  | .group now payload first rest =>
      have hmembers : CarriesEach (first.combined :: allCombined rest)
          (first.values ++ allValues rest) :=
        .cons first.carries_combined (carriesEach_allCombined rest)
      exact hmembers.derived (List.cons_ne_nil _ _) now payload

theorem carriesEach_allCombined (groups : List Grouping) :
    CarriesEach (allCombined groups) (allValues groups) := by
  match groups with
  | [] => exact .nil
  | g :: rest => exact .cons g.carries_combined (carriesEach_allCombined rest)

end

/-- The metadata of combined values depends on the values alone. A single step over all of them
gives the alarm of the first value whose severity has the highest rank, invalid and disconnected
values being equally bad, and the latest time. Every grouping of the values gives the same alarm and
the same time, and another order of the values changes neither the rank of the severity nor the
time. -/
theorem metadata_independent (now : Timestamp) (payload : Payload) {values : List Value}
    (hne : values ≠ []) :
    let whole := Value.derived now payload values
    FirstWorst whole.alarm values ∧ Severity.invalid.rank = Severity.disconnected.rank ∧
      IsLatest whole.time values ∧
      (∀ g : Grouping, g.values = values →
        g.combined.alarm = whole.alarm ∧ g.combined.time = whole.time) ∧
      ∀ now' payload' others, values.Perm others →
        let permuted := Value.derived now' payload' others
        permuted.alarm.severity.rank = whole.alarm.severity.rank ∧ permuted.time = whole.time := by
  intro whole
  have hwhole : Carries whole values := carries_derived hne now payload
  refine ⟨hwhole.alarm, rfl, hwhole.time, ?_, ?_⟩
  · rintro g rfl
    have hsteps := g.carries_combined
    exact ⟨hsteps.alarm.unique hwhole.alarm, hsteps.time.eq_of_perm hwhole.time (.refl _)⟩
  · intro now' payload' others hperm permuted
    have hne' : others ≠ [] := by
      rintro rfl
      exact hne hperm.eq_nil
    have hpermuted : Carries permuted others := carries_derived hne' now' payload'
    exact ⟨hpermuted.alarm.rank_eq_of_perm hwhole.alarm hperm.symm,
      hpermuted.time.eq_of_perm hwhole.time hperm.symm⟩

/-- The alarm of the invalid pump comes before that of the disconnected valve, also if the valve has
been combined with the level first. With the valve in front, the alarm is that of the valve, which is
no better and no worse. -/
theorem metadata_independent_pump :
    let level : Value := ⟨.scalar 2.5, ⟨.major, "HIHI"⟩, ⟨9, 0⟩⟩
    let pump : Value := ⟨.text "pump", ⟨.invalid, "UDF"⟩, ⟨5, 0⟩⟩
    let valve : Value := ⟨.array [] [0], .disconnected, ⟨9, 1⟩⟩
    let whole : Value := .derived ⟨100, 0⟩ (.text "") [pump, valve, level]
    let g : Grouping := .pair 0.0 (.single pump)
      (.group ⟨200, 0⟩ (.scalar 1.0) (.single valve) [.group ⟨300, 0⟩ (.text "") (.single level) []])
    let permuted : Value := .derived ⟨400, 0⟩ (.text "") [valve, pump, level]
    [pump, valve, level] ≠ [] ∧ g.values = [pump, valve, level] ∧
      FirstWorst whole.alarm [pump, valve, level] ∧ IsLatest whole.time [pump, valve, level] ∧
      g.combined.alarm = whole.alarm ∧ whole.alarm = ⟨.invalid, "UDF"⟩ ∧
      g.combined.time = whole.time ∧ whole.time = ⟨9, 1⟩ ∧
      permuted.alarm = .disconnected ∧
      permuted.alarm.severity.rank = whole.alarm.severity.rank ∧ permuted.time = whole.time := by
  intro level pump valve whole g permuted
  have hne : [pump, valve, level] ≠ [] := List.cons_ne_nil _ _
  obtain ⟨halarm, -, htime, hgrouping, hpermuted⟩ :=
    metadata_independent ⟨100, 0⟩ (.text "") hne
  obtain ⟨hsameAlarm, hsameTime⟩ := hgrouping g rfl
  obtain ⟨hrank, hlatest⟩ := hpermuted ⟨400, 0⟩ (.text "") [valve, pump, level] (.swap valve pump _)
  exact ⟨hne, rfl, halarm, htime, hsameAlarm, rfl, hsameTime, rfl, rfl, hrank, hlatest⟩

end Grouping

end ProcessFormula
