import Mathlib.Algebra.Order.Group.Int
import Mathlib.Data.Int.SuccPred
import Mathlib.Tactic.IntervalCases
import ProcessFormula.Value.Calendar

/-!
The calendar. Day 0 is 1 January 1970, and the date of the next day is the next date of the calendar:
months have the lengths that they have, and February has 29 days in the years that 4 divides, unless
100 divides the year and 400 does not. Hence dates come one after the other as their days do.
-/

namespace ProcessFormula.Date

def IsLeap (year : Int) : Prop := 4 ∣ year ∧ (¬ 100 ∣ year ∨ 400 ∣ year)

instance (year : Int) : Decidable (IsLeap year) := by
  unfold IsLeap
  infer_instance

def monthLength (d : Date) : Nat :=
  if d.month = 2 then if IsLeap d.year then 29 else 28
  else if d.month = 4 ∨ d.month = 6 ∨ d.month = 9 ∨ d.month = 11 then 30
  else 31

theorem monthLength_pos (d : Date) : 0 < d.monthLength := by
  unfold monthLength
  split
  · split <;> decide
  · split <;> decide

theorem monthLength_le (d : Date) : d.monthLength ≤ 31 := by
  unfold monthLength
  split
  · split <;> decide
  · split <;> decide

def next (d : Date) : Date :=
  if d.day < d.monthLength then ⟨d.year, d.month, d.day + 1⟩
  else if d.month < 12 then ⟨d.year, d.month + 1, 1⟩
  else ⟨d.year + 1, 1, 1⟩

def Before (a b : Date) : Prop :=
  a.year < b.year ∨ a.year = b.year ∧ (a.month < b.month ∨ a.month = b.month ∧ a.day < b.day)

theorem Before.trans {a b c : Date} (hab : a.Before b) (hbc : b.Before c) : a.Before c := by
  unfold Before at *
  omega

/-- The next day is later. -/
theorem before_next (d : Date) : d.Before d.next := by
  unfold next
  split
  · exact .inr ⟨rfl, .inr ⟨rfl, by simp⟩⟩
  · split
    · exact .inr ⟨rfl, .inl (by simp)⟩
    · exact .inl (by simp)

/-! ### Years of a cycle -/

/-- A year of a cycle made up of the centuries, of groups of four years and of the years in front of
it. Such a year has 366 days if it is the fourth one of its group and does not end a century, or ends
the cycle. -/
theorem yearOfCycle_eq {century group year day : Nat} (hcentury : century ≤ 3) (hgroup : group ≤ 24)
    (hyear : year ≤ 3)
    (hday : day < 365 ∨ day = 365 ∧ year = 3 ∧ (group < 24 ∨ century = 3)) :
    yearOfCycle (36524 * century + 1461 * group + 365 * year + day) =
      100 * century + 4 * group + year := by
  generalize hn : 36524 * century + 1461 * group + 365 * year + day = n
  have hcenturies : n / 36524 = century + n / 146096 := by
    by_cases hlast : n = 146096
    · omega
    · have hnone : n / 146096 = 0 := by omega
      rw [hnone]
      omega
  -- The quotient is one too large from some day of the fourth year of a group on.
  by_cases hlate : 1460 ≤ 24 * century + group + 365 * year + day
  · have hgroups : n / 1460 = 25 * century + group + 1 := by omega
    have hyears : n - n / 1460 + n / 36524 - n / 146096 =
        365 * (100 * century + 4 * group + year) + (day - 1) := by
      omega
    unfold yearOfCycle
    rw [hyears]
    omega
  · have hgroups : n / 1460 = 25 * century + group := by omega
    have hyears : n - n / 1460 + n / 36524 - n / 146096 =
        365 * (100 * century + 4 * group + year) + day := by
      omega
    unfold yearOfCycle
    rw [hyears]
    omega

/-- The number of days of a year of a cycle. Its leap day, which is the last, belongs to the calendar
year that begins in it. -/
def yearLength (year : Nat) : Nat := if IsLeap (year + 1) then 366 else 365

theorem yearLength_cases (year : Nat) :
    yearLength year = 366 ∧ IsLeap (year + 1) ∨ yearLength year = 365 ∧ ¬ IsLeap (year + 1) := by
  unfold yearLength
  split
  · next hleap => exact .inl ⟨rfl, hleap⟩
  · next hleap => exact .inr ⟨rfl, hleap⟩

/-- Within a cycle a year begins where the one before it ends. -/
theorem daysBeforeYear_succ {year : Nat} (hyear : year < 399) :
    daysBeforeYear (year + 1) = daysBeforeYear year + yearLength year := by
  unfold daysBeforeYear
  rcases yearLength_cases year with ⟨hlength, hleap⟩ | ⟨hlength, hleap⟩
  · unfold IsLeap at hleap
    omega
  · unfold IsLeap at hleap
    omega

theorem daysBeforeYear_last : daysBeforeYear 399 + yearLength 399 = daysPerCycle := by
  decide

/-- The days of a year are found in it. -/
theorem yearOfCycle_add {year day : Nat} (hyear : year ≤ 399) (hday : day < yearLength year) :
    yearOfCycle (daysBeforeYear year + day) = year := by
  have hbefore : daysBeforeYear year + day =
      36524 * (year / 100) + 1461 * (year % 100 / 4) + 365 * (year % 4) + day := by
    unfold daysBeforeYear
    omega
  rw [hbefore, yearOfCycle_eq (by omega) (by omega) (by omega)]
  · omega
  · rcases yearLength_cases year with ⟨hlength, hleap⟩ | ⟨hlength, -⟩
    · unfold IsLeap at hleap
      omega
    · omega

/-- Every day of a cycle is a day of one of its years. -/
theorem exists_year {n : Nat} (hn : n < daysPerCycle) :
    ∃ year day, year ≤ 399 ∧ day < yearLength year ∧ n = daysBeforeYear year + day := by
  have hyears : ∀ count ≤ 399, n < daysBeforeYear count + yearLength count →
      ∃ year day, year ≤ 399 ∧ day < yearLength year ∧ n = daysBeforeYear year + day := by
    intro count
    induction count with
    | zero =>
        intro hcount hlt
        exact ⟨0, n, hcount, by simpa [daysBeforeYear] using hlt, by simp [daysBeforeYear]⟩
    | succ count ih =>
        intro hcount hlt
        by_cases hearlier : n < daysBeforeYear (count + 1)
        · rw [daysBeforeYear_succ (by omega)] at hearlier
          exact ih (by omega) hearlier
        · exact ⟨count + 1, n - daysBeforeYear (count + 1), hcount, by omega, by omega⟩
  apply hyears 399 (by omega)
  rw [daysBeforeYear_last]
  exact hn

/-! ### Dates in parts -/

/-- The date of a day that is counted from March: the cycle, the year in it, the month and the day,
all from zero on. -/
def ofParts (cycle : Int) (year month day : Nat) : Date where
  year := cycle * 400 + year + if month < 10 then 0 else 1
  month := if month < 10 then month + 3 else month - 9
  day := day + 1

/-- The parts of a date count this number of days. -/
structure Parts (days cycle : Int) (year month day : Nat) : Prop where
  year_le : year ≤ 399
  month_le : month ≤ 11
  day_lt : day < (ofParts cycle year month day).monthLength
  count : days + 719468 =
    daysPerCycle * cycle + (daysBeforeYear year + (daysBeforeMonth month + day) : Nat)

/-- The months from March on lie one behind the other, and the last one ends the year. -/
theorem daysBeforeMonth_add (cycle : Int) (year day : Nat) {month : Nat} (hmonth : month ≤ 11) :
    daysBeforeMonth month + (ofParts cycle year month day).monthLength =
      if month < 11 then daysBeforeMonth (month + 1) else yearLength year := by
  by_cases hlast : month = 11
  · subst hlast
    have hleap : IsLeap (cycle * 400 + year + 1) ↔ IsLeap (year + 1) := by
      unfold IsLeap
      omega
    simp only [ofParts, monthLength, daysBeforeMonth, yearLength]
    simp [hleap]
    split <;> rfl
  · have hearlier : month ≤ 10 := by omega
    interval_cases month <;> rfl

section

variable {days cycle : Int} {year month day : Nat} (h : Parts days cycle year month day)
include h

theorem Parts.day_lt_yearLength : daysBeforeMonth month + day < yearLength year := by
  have hmonth := daysBeforeMonth_add cycle year day h.month_le
  have hday := h.day_lt
  split at hmonth
  · next hearlier =>
    have hnext : daysBeforeMonth (month + 1) ≤ 365 := by
      unfold daysBeforeMonth
      omega
    rcases yearLength_cases year with ⟨hlength, -⟩ | ⟨hlength, -⟩
    · omega
    · omega
  · omega

/-- The month of a day is found from the days before the months. -/
theorem Parts.monthOfYear_eq : monthOfYear (daysBeforeMonth month + day) = month := by
  have hmonth := daysBeforeMonth_add cycle year day h.month_le
  have hday := h.day_lt
  have hyear := h.month_le
  split at hmonth
  · unfold monthOfYear daysBeforeMonth at *
    omega
  · have hlength : yearLength year ≤ 366 := by
      rcases yearLength_cases year with ⟨hlength, -⟩ | ⟨hlength, -⟩
      · omega
      · omega
    unfold monthOfYear daysBeforeMonth at *
    omega

/-- The date of a day is the one that its parts make up. -/
theorem Parts.ofDays_eq : ofDays days = ofParts cycle year month day := by
  have hday := h.day_lt_yearLength
  have hinCycle : daysBeforeYear year + (daysBeforeMonth month + day) < daysPerCycle := by
    have hyears : daysBeforeYear year + yearLength year ≤ daysPerCycle := by
      by_cases hlast : year = 399
      · rw [hlast, daysBeforeYear_last]
      · have hyear := h.year_le
        rw [← daysBeforeYear_succ (by omega)]
        unfold daysBeforeYear daysPerCycle
        omega
    omega
  have hcycle : (days + 719468) / daysPerCycle = cycle := by
    rw [h.count]
    unfold daysPerCycle at *
    omega
  have hrest : ((days + 719468) % daysPerCycle).toNat =
      daysBeforeYear year + (daysBeforeMonth month + day) := by
    rw [h.count]
    unfold daysPerCycle at *
    omega
  unfold ofDays
  simp only [hcycle, hrest, yearOfCycle_add h.year_le hday, Nat.add_sub_cancel_left,
    h.monthOfYear_eq, ofParts]

/-- One day more is the next date, in the same cycle or as the first day of the next one. -/
theorem Parts.step : ∃ cycle' year' month' day', Parts (days + 1) cycle' year' month' day' ∧
    ofParts cycle' year' month' day' = (ofParts cycle year month day).next := by
  have hcount := h.count
  have hday := h.day_lt
  have hmonth := daysBeforeMonth_add cycle year day h.month_le
  by_cases hmore : day + 1 < (ofParts cycle year month day).monthLength
  · refine ⟨cycle, year, month, day + 1, ⟨h.year_le, h.month_le, hmore, by omega⟩, ?_⟩
    exact (if_pos hmore).symm
  -- The month ends, and with it perhaps the year or the cycle.
  have hnext : (ofParts cycle year month day).next = _ := if_neg hmore
  rw [hnext]
  split at hmonth
  · next hearlier =>
    refine ⟨cycle, year, month + 1, 0, ⟨h.year_le, hearlier, monthLength_pos _, by omega⟩, ?_⟩
    by_cases hnewYear : month = 9
    · subst hnewYear
      simp [ofParts]
    · have hiff : month + 1 < 10 ↔ month < 10 := by omega
      simp only [ofParts, hiff]
      split
      · rw [if_pos (by omega)]
      · rw [if_pos (by omega)]
        simp
        omega
  · next hlast =>
    obtain rfl : month = 11 := by
      have := h.month_le
      omega
    by_cases hcycle : year = 399
    · subst hcycle
      refine ⟨cycle + 1, 0, 0, 0, ⟨by omega, by omega, monthLength_pos _, ?_⟩, ?_⟩
      · have hend := daysBeforeYear_last
        simp only [daysBeforeYear, daysBeforeMonth, daysPerCycle] at *
        omega
      · simp [ofParts]
        omega
    · have hyear := h.year_le
      refine ⟨cycle, year + 1, 0, 0, ⟨by omega, by omega, monthLength_pos _, ?_⟩, ?_⟩
      · rw [daysBeforeYear_succ (by omega)]
        have hfirst : daysBeforeMonth 0 = 0 := rfl
        omega
      · simp [ofParts]
        omega

end

/-- Every day has a date in parts. -/
theorem exists_parts (days : Int) :
    ∃ cycle year month day, Parts days cycle year month day := by
  obtain ⟨year, dayOfYear, hyear, hday, hcount⟩ :=
    exists_year (n := ((days + 719468) % daysPerCycle).toNat) (by
      unfold daysPerCycle
      omega)
  have hmonth : monthOfYear dayOfYear ≤ 11 := by
    rcases yearLength_cases year with ⟨hlength, -⟩ | ⟨hlength, -⟩ <;>
      unfold monthOfYear <;> omega
  have hbefore : daysBeforeMonth (monthOfYear dayOfYear) ≤ dayOfYear := by
    unfold daysBeforeMonth monthOfYear
    omega
  have hbehind : dayOfYear < daysBeforeMonth (monthOfYear dayOfYear + 1) := by
    unfold daysBeforeMonth monthOfYear
    omega
  refine ⟨(days + 719468) / daysPerCycle, year, monthOfYear dayOfYear,
    dayOfYear - daysBeforeMonth (monthOfYear dayOfYear), hyear, hmonth, ?_, ?_⟩
  · have hlength := daysBeforeMonth_add ((days + 719468) / daysPerCycle) year
      (dayOfYear - daysBeforeMonth (monthOfYear dayOfYear)) hmonth
    split at hlength <;> omega
  · unfold daysPerCycle at *
    omega

/-! ### Days and dates -/

/-- The date of the next day is the next date. -/
theorem ofDays_succ (days : Int) : ofDays (days + 1) = (ofDays days).next := by
  obtain ⟨cycle, year, month, day, hparts⟩ := exists_parts days
  obtain ⟨cycle', year', month', day', hparts', hnext⟩ := hparts.step
  rw [hparts.ofDays_eq, hparts'.ofDays_eq, hnext]

/-- Later days have later dates. -/
theorem ofDays_before {a b : Int} (h : a < b) : (ofDays a).Before (ofDays b) := by
  induction b, Int.add_one_le_of_lt h using Int.leInduction with
  | base =>
      rw [ofDays_succ]
      exact before_next _
  | succ b hab ih =>
      rw [ofDays_succ]
      exact (ih hab).trans (before_next _)

theorem month_day_lt_ofDays (days : Int) : (ofDays days).month < 100 ∧ (ofDays days).day < 100 := by
  obtain ⟨cycle, year, month, day, hparts⟩ := exists_parts days
  have hmonth := hparts.month_le
  have hday := hparts.day_lt
  have hlength := monthLength_le (ofParts cycle year month day)
  rw [hparts.ofDays_eq]
  constructor
  · unfold ofParts
    dsimp only
    split <;> omega
  · show day + 1 < 100
    omega

end ProcessFormula.Date
