import ProcessFormula.Value.Basic

/-!
What combining alarms and times amounts to. The worst of several alarms is that of the first value
none is worse than, and the latest of several times is one that none is later than. Both are kept
when the lists that two results were combined from are put one behind the other. The list determines
them, and another order of it changes at most which of several equally bad alarms comes first.
-/

namespace ProcessFormula

/-! ### Alarms -/

/-- The alarm is that of the first of the values whose severity has the highest rank. -/
def FirstWorst (alarm : Alarm) (values : List Value) : Prop :=
  ∃ before v after, values = before ++ v :: after ∧ v.alarm = alarm ∧
    (∀ w ∈ before, w.alarm.severity.rank < alarm.severity.rank) ∧
    ∀ w ∈ after, w.alarm.severity.rank ≤ alarm.severity.rank

namespace FirstWorst

variable {a b : Alarm} {values others : List Value}

theorem single (v : Value) : FirstWorst v.alarm [v] :=
  ⟨[], v, [], rfl, rfl, by simp, by simp⟩

/-- No value of the list has a worse alarm than the first worst one. -/
theorem rank_le (h : FirstWorst a values) {w : Value} (hw : w ∈ values) :
    w.alarm.severity.rank ≤ a.severity.rank := by
  obtain ⟨before, v, after, rfl, rfl, hbefore, hafter⟩ := h
  simp only [List.mem_append, List.mem_cons] at hw
  rcases hw with hw | rfl | hw
  · have := hbefore w hw
    omega
  · omega
  · exact hafter w hw

/-- Between equally bad alarms the one on the left wins. -/
theorem append (ha : FirstWorst a values) (hb : FirstWorst b others) :
    FirstWorst (a.worst b) (values ++ others) := by
  unfold Alarm.worst
  split
  · next hlt =>
    obtain ⟨before, v, after, rfl, hv, hbefore, hafter⟩ := hb
    refine ⟨values ++ before, v, after, by simp, hv, ?_, hafter⟩
    intro w hw
    rcases List.mem_append.mp hw with hw | hw
    · exact Nat.lt_of_le_of_lt (ha.rank_le hw) hlt
    · exact hbefore w hw
  · next hle =>
    have hother : ∀ w ∈ others, w.alarm.severity.rank ≤ a.severity.rank :=
      fun w hw => Nat.le_trans (hb.rank_le hw) (Nat.le_of_not_lt hle)
    obtain ⟨before, v, after, rfl, hv, hbefore, hafter⟩ := ha
    refine ⟨before, v, after ++ others, by simp, hv, hbefore, ?_⟩
    intro w hw
    rcases List.mem_append.mp hw with hw | hw
    · exact hafter w hw
    · exact hother w hw

/-- The rank of the worst alarm does not depend on the order of the values. -/
theorem rank_eq_of_perm (ha : FirstWorst a values) (hb : FirstWorst b others)
    (hperm : values.Perm others) : a.severity.rank = b.severity.rank := by
  obtain ⟨_, v, _, hvalues, rfl, -⟩ := id ha
  obtain ⟨_, w, _, hothers, rfl, -⟩ := id hb
  have hv : v ∈ others := hperm.mem_iff.mp (by simp [hvalues])
  have hw : w ∈ values := hperm.mem_iff.mpr (by simp [hothers])
  have := ha.rank_le hw
  have := hb.rank_le hv
  omega

/-- Of two places in a list one comes before the other, unless they are the same. -/
theorem eq_or_mem_before {before before' after after' : List Value} {v w : Value}
    (h : before ++ v :: after = before' ++ w :: after') : v = w ∨ v ∈ before' ∨ w ∈ before := by
  rcases List.append_eq_append_iff.mp h with ⟨between, rfl, hrest⟩ | ⟨between, rfl, hrest⟩
  · cases between with
    | nil => exact .inl (List.cons.inj hrest).1
    | cons u between =>
        obtain ⟨rfl, -⟩ := List.cons.inj hrest
        exact .inr (.inl (by simp))
  · cases between with
    | nil => exact .inl (List.cons.inj hrest).1.symm
    | cons u between =>
        obtain ⟨rfl, -⟩ := List.cons.inj hrest
        exact .inr (.inr (by simp))

/-- Values in one order have only one first worst alarm. -/
theorem unique (ha : FirstWorst a values) (hb : FirstWorst b values) : a = b := by
  have hrank := ha.rank_eq_of_perm hb (.refl values)
  obtain ⟨before, v, after, hvalues, rfl, hbefore, -⟩ := ha
  obtain ⟨before', w, after', hvalues', rfl, hbefore', -⟩ := hb
  rcases eq_or_mem_before (hvalues.symm.trans hvalues') with rfl | hv | hw
  · rfl
  · have := hbefore' v hv
    omega
  · have := hbefore w hw
    omega

end FirstWorst

/-! ### Times -/

namespace Timestamp

theorem before_iff {s t : Timestamp} :
    s.before t = true ↔ s.seconds.toInt < t.seconds.toInt ∨
      s.seconds.toInt = t.seconds.toInt ∧ s.nanoseconds.toNat < t.nanoseconds.toNat := by
  simp [before, Int64.lt_iff_toInt_lt, UInt32.lt_iff_toNat_lt, Int64.toInt_inj]

theorem before_trans {s t u : Timestamp} (hst : s.before t = true) (htu : t.before u = true) :
    s.before u = true := by
  rw [before_iff] at *
  omega

/-- An instant that is not later than another is earlier than what that is earlier than. -/
theorem before_of_not_before {s t u : Timestamp} (hts : ¬ t.before s = true)
    (htu : t.before u = true) : s.before u = true := by
  rw [before_iff] at *
  omega

/-- Two times of which neither is before the other are equal. -/
theorem eq_of_not_before {s t : Timestamp} (hst : ¬ s.before t = true)
    (hts : ¬ t.before s = true) : s = t := by
  rw [before_iff] at hst hts
  obtain ⟨seconds, nanoseconds⟩ := s
  obtain ⟨seconds', nanoseconds'⟩ := t
  have hseconds : seconds = seconds' := Int64.toInt_inj.mp (by simp only at *; omega)
  have hnanoseconds : nanoseconds = nanoseconds' := UInt32.toNat_inj.mp (by simp only at *; omega)
  rw [hseconds, hnanoseconds]

end Timestamp

/-- The time is that of one of the values, and none of them is later. -/
def IsLatest (time : Timestamp) (values : List Value) : Prop :=
  (∃ v ∈ values, v.time = time) ∧ ∀ v ∈ values, ¬ time.before v.time = true

namespace IsLatest

variable {s t : Timestamp} {values others : List Value}

theorem single (v : Value) : IsLatest v.time [v] := by
  refine ⟨⟨v, by simp, rfl⟩, ?_⟩
  intro w hw
  obtain rfl := List.mem_singleton.mp hw
  rw [Timestamp.before_iff]
  omega

/-- The latest time of two lists is the later of their latest times. -/
theorem append (hs : IsLatest s values) (ht : IsLatest t others) :
    IsLatest (s.latest t) (values ++ others) := by
  obtain ⟨⟨v, hv, hvs⟩, hs⟩ := hs
  obtain ⟨⟨w, hw, hwt⟩, ht⟩ := ht
  unfold Timestamp.latest
  split
  · next hlater =>
    refine ⟨⟨w, List.mem_append_right _ hw, hwt⟩, ?_⟩
    intro u hu hbefore
    rcases List.mem_append.mp hu with hu | hu
    · exact hs u hu (Timestamp.before_trans hlater hbefore)
    · exact ht u hu hbefore
  · next hnot =>
    refine ⟨⟨v, List.mem_append_left _ hv, hvs⟩, ?_⟩
    intro u hu hbefore
    rcases List.mem_append.mp hu with hu | hu
    · exact hs u hu hbefore
    · exact ht u hu (Timestamp.before_of_not_before hnot hbefore)

/-- The latest time does not depend on the order of the values. -/
theorem eq_of_perm (hs : IsLatest s values) (ht : IsLatest t others)
    (hperm : values.Perm others) : s = t := by
  obtain ⟨⟨v, hv, rfl⟩, hs⟩ := hs
  obtain ⟨⟨w, hw, rfl⟩, ht⟩ := ht
  apply Timestamp.eq_of_not_before
  · exact hs w (hperm.mem_iff.mpr hw)
  · exact ht v (hperm.mem_iff.mp hv)

end IsLatest

/-! ### Both together -/

/-- The alarm and the time of a value are those that some values have together. -/
structure Carries (v : Value) (values : List Value) : Prop where
  alarm : FirstWorst v.alarm values
  time : IsLatest v.time values

theorem carries_single (v : Value) : Carries v [v] :=
  ⟨.single v, .single v⟩

/-- What carries the metadata of two lists in turn carries that of both behind each other. -/
theorem Carries.append {v a b : Value} {values others : List Value} (ha : Carries a values)
    (hb : Carries b others) (halarm : v.alarm = a.alarm.worst b.alarm)
    (htime : v.time = a.time.latest b.time) : Carries v (values ++ others) :=
  ⟨halarm ▸ ha.alarm.append hb.alarm, htime ▸ ha.time.append hb.time⟩

/-- Each of the values carries what a list of its own has together. -/
inductive CarriesEach : List Value → List Value → Prop
  | nil : CarriesEach [] []
  | cons {v : Value} {own others rest : List Value} (hfirst : Carries v own)
      (hrest : CarriesEach rest others) : CarriesEach (v :: rest) (own ++ others)

/-- Values combined from the left carry what all their lists have together. -/
theorem CarriesEach.foldl {values others : List Value} (h : CarriesEach values others)
    {a : Value} {own : List Value} (ha : Carries a own) :
    FirstWorst ((values.map (·.alarm)).foldl Alarm.worst a.alarm) (own ++ others) ∧
      IsLatest ((values.map (·.time)).foldl Timestamp.latest a.time) (own ++ others) := by
  induction h generalizing a own with
  | nil => simpa using ⟨ha.alarm, ha.time⟩
  | @cons v mine others rest hfirst _ ih =>
      rw [← List.append_assoc]
      exact @ih ⟨a.payload, a.alarm.worst v.alarm, a.time.latest v.time⟩ (own ++ mine)
        (ha.append hfirst rfl rfl)

/-- The worst alarm and the latest time of several values are those of their lists. -/
theorem CarriesEach.carries {values others : List Value} (h : CarriesEach values others)
    (hne : values ≠ []) {v : Value} {now : Timestamp} (halarm : v.alarm = Value.highestAlarm values)
    (htime : v.time = Value.latestTime now values) : Carries v others := by
  cases h with
  | nil => exact absurd rfl hne
  | cons hfirst hrest =>
      obtain ⟨hworst, hlatest⟩ := hrest.foldl hfirst
      exact ⟨halarm ▸ hworst, htime ▸ hlatest⟩

theorem CarriesEach.derived {values others : List Value} (h : CarriesEach values others)
    (hne : values ≠ []) (now : Timestamp) (payload : Payload) :
    Carries (Value.derived now payload values) others :=
  h.carries hne rfl rfl

theorem carriesEach_self (values : List Value) : CarriesEach values values := by
  induction values with
  | nil => exact .nil
  | cons v rest ih => exact .cons (carries_single v) ih

/-- A derived value carries the metadata of the values that it is derived from. -/
theorem carries_derived {values : List Value} (hne : values ≠ []) (now : Timestamp)
    (payload : Payload) : Carries (Value.derived now payload values) values :=
  (carriesEach_self values).derived hne now payload

end ProcessFormula
