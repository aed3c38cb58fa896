import Mathlib.Data.List.Basic
import Mathlib.Order.Lattice
import ProcessFormula.Proofs.Metadata.Combining
import ProcessFormula.Proofs.Number.Digits
import ProcessFormula.Proofs.Value.Calendar
import ProcessFormula.Proofs.Value.Json

/-!
The texts of instants. A date and a time of day are a row of numbers, each written with a fixed width,
so rows are ordered as their texts are. The row of a later instant is greater, also where the row
stands for a leap second, which comes behind the last second of its minute. Hence the text tells which
instant it is, and while years have four digits the texts sort as the instants do.
-/

namespace ProcessFormula.Timestamp

/-! ### Numbers of fixed width -/

theorem toList_padded (width n : Nat) : (padded width n).toList =
    List.replicate (width - (Nat.toDigits 10 n).length) '0' ++ Nat.toDigits 10 n :=
  String.toList_ofList

/-- The last digit of a number with leading zeros. -/
theorem padded_succ {width : Nat} (hwidth : 0 < width) (n : Nat) :
    (padded (width + 1) n).toList = (padded width (n / 10)).toList ++ [(n % 10).digitChar] := by
  rw [toList_padded, toList_padded, Nat.toDigits_eq_if (n := n) (by decide)]
  split
  · next hsmall =>
    have hquotient : n / 10 = 0 := by omega
    have hlast : n % 10 = n := by omega
    have hzeros : width = width - 1 + 1 := by omega
    rw [hquotient, hlast]
    show List.replicate width '0' ++ [n.digitChar] =
      List.replicate (width - 1) '0' ++ ['0'] ++ [n.digitChar]
    rw [← List.replicate_succ', ← hzeros]
  · simp

theorem ofDigits_padded (width n : Nat) : Decimal.ofDigits (padded width n).toList = n := by
  rw [toList_padded, Decimal.ofDigits_zeros_append, Decimal.ofDigits_toDigits]

/-- Padded numbers are equal only if the numbers are. -/
theorem padded_injective {width a b : Nat} (h : (padded width a).toList = (padded width b).toList) :
    a = b := by
  rw [← ofDigits_padded width a, h, ofDigits_padded]

theorem isDigit_of_mem_padded {width n : Nat} {c : Char} (hc : c ∈ (padded width n).toList) :
    c.isDigit = true := by
  rw [toList_padded, List.mem_append] at hc
  rcases hc with hzero | hdigit
  · rw [List.eq_of_mem_replicate hzero]
    rfl
  · exact (Decimal.digits_toDigits n).2 c hdigit

/-- A number that fits its width is padded to this width. -/
theorem length_padded {width n : Nat} (hwidth : 0 < width) (hn : n < 10 ^ width) :
    (padded width n).toList.length = width := by
  have hlength := (Nat.length_toDigits_le_iff (by decide) hwidth).mpr hn
  rw [toList_padded, List.length_append, List.length_replicate]
  omega

/-- What is decided within texts of one length is decided for all that goes on from them. -/
theorem append_lt_append {l₁ l₂ : List Char} (hlength : l₁.length = l₂.length) (h : l₁ < l₂)
    (r₁ r₂ : List Char) : l₁ ++ r₁ < l₂ ++ r₂ := by
  induction l₁ generalizing l₂ with
  | nil =>
      obtain rfl := List.eq_nil_of_length_eq_zero hlength.symm
      exact absurd h (List.lt_irrefl _)
  | cons c l₁ ih =>
      obtain _ | ⟨c', l₂⟩ := l₂
      · cases hlength
      · rw [List.cons_lt_cons_iff] at h
        rw [List.cons_append, List.cons_append, List.cons_lt_cons_iff]
        rcases h with hc | ⟨rfl, hrest⟩
        · exact .inl hc
        · exact .inr ⟨rfl, ih (Nat.succ.inj hlength) hrest⟩

/-- Of numbers of one width the lesser has the lesser text. -/
theorem padded_lt {width a b : Nat} (hwidth : 0 < width) (hb : b < 10 ^ width) (hab : a < b) :
    (padded width a).toList < (padded width b).toList := by
  have hdigit : ∀ n < 10, ∀ m < n, m.digitChar < n.digitChar := by decide
  induction width, hwidth using Nat.le_induction generalizing a b with
  | base =>
      have hone (n : Nat) (hn : n < 10) : (padded 1 n).toList = [n.digitChar] := by
        rw [toList_padded, Nat.toDigits_of_lt_base hn]
        rfl
      have hdigits := hdigit b (by omega) a hab
      rw [hone a (by omega), hone b (by omega), List.cons_lt_cons_iff]
      exact .inl hdigits
  | succ width hwidth ih =>
      rw [Nat.pow_succ] at hb
      rw [padded_succ hwidth, padded_succ hwidth]
      by_cases hquotient : a / 10 = b / 10
      · rw [hquotient]
        apply List.append_left_lt
        rw [List.cons_lt_cons_iff]
        exact .inl (hdigit (b % 10) (by omega) (a % 10) (by omega))
      · have hlength : (padded width (a / 10)).toList.length =
            (padded width (b / 10)).toList.length := by
          rw [length_padded hwidth (by omega), length_padded hwidth (by omega)]
        exact append_lt_append hlength (ih (by omega) (by omega)) _ _

/-! ### Rows of numbers -/

def row : (layout : List (Nat × Char)) → (numbers : List Nat) → List Char
  | (width, mark) :: layout, n :: numbers => (padded width n).toList ++ mark :: row layout numbers
  | _, _ => []

/-- Each number can be written with its width. -/
abbrev Fits : List (Nat × Char) → List Nat → Prop :=
  List.Forall₂ fun field n => 0 < field.1 ∧ n < 10 ^ field.1

section

variable {layout : List (Nat × Char)} {numbers numbers' : List Nat}

theorem length_row (h : Fits layout numbers) :
    (row layout numbers).length = (layout.map (·.1 + 1)).sum := by
  induction h with
  | nil => rfl
  | cons hfirst _ ih =>
      rw [row, List.length_append, List.length_cons, length_padded hfirst.1 hfirst.2, ih,
        List.map_cons, List.sum_cons]
      omega

/-- Rows are ordered as their numbers are, the first ones deciding first. -/
theorem row_lt (h : Fits layout numbers) (h' : Fits layout numbers') (hlt : numbers < numbers') :
    row layout numbers < row layout numbers' := by
  induction h generalizing numbers' with
  | nil =>
      cases h'
      exact absurd hlt (List.lt_irrefl _)
  | cons hfirst _ ih =>
      cases h' with
      | cons hfirst' hrest' =>
          rcases List.cons_lt_cons_iff.mp hlt with hn | ⟨rfl, hrest⟩
          · apply append_lt_append
            · rw [length_padded hfirst.1 hfirst.2, length_padded hfirst'.1 hfirst'.2]
            · exact padded_lt hfirst'.1 hfirst'.2 hn
          · apply List.append_left_lt
            exact List.cons_lt_cons_iff.mpr (.inr ⟨rfl, ih hrest' hrest⟩)

/-- Rows of numbers that fit the layout are equal only if the numbers are. -/
theorem row_injective (h : Fits layout numbers) (h' : Fits layout numbers')
    (heq : row layout numbers = row layout numbers') : numbers = numbers' := by
  rcases lt_trichotomy numbers numbers' with hlt | heq' | hgt
  · have hrows := row_lt h h' hlt
    rw [heq] at hrows
    exact absurd hrows (List.lt_irrefl _)
  · exact heq'
  · have hrows := row_lt h' h hgt
    rw [heq] at hrows
    exact absurd hrows (List.lt_irrefl _)

end

/-! ### Dates and times of day -/

/-- What stands behind the year. -/
def DateTime.numbers (d : DateTime) : List Nat :=
  [d.date.month, d.date.day, d.hour, d.minute, d.second, d.nanosecond]

/-- The widths of these numbers and the marks behind them. -/
def clockLayout : List (Nat × Char) := [(2, '-'), (2, 'T'), (2, ':'), (2, ':'), (2, '.'), (9, 'Z')]

theorem DateTime.toList_text (d : DateTime) :
    d.text.toList = (yearText d.date.year).toList ++ '-' :: row clockLayout d.numbers := by
  simp [DateTime.text, clockLayout, DateTime.numbers, row]

def DateTime.Before (d e : DateTime) : Prop :=
  d.date.year < e.date.year ∨ d.date.year = e.date.year ∧ d.numbers < e.numbers

/-- A date and a time of day are those of an instant. The last second of a minute may hold a second
one, the leap second. -/
structure DateOf (t : Timestamp) (d : DateTime) : Prop where
  date : d.date = Date.ofDays (t.seconds.toInt / 86400)
  minutes : t.seconds.toInt / 60 = 1440 * (t.seconds.toInt / 86400) + 60 * d.hour + d.minute
  minute_lt : d.minute < 60
  second : d.second = t.seconds.toInt % 60 ∧ d.nanosecond = t.nanoseconds.toNat ∧
      t.nanoseconds.toNat < 1000000000 ∨
    d.second = 60 ∧ t.seconds.toInt % 60 = 59 ∧
      d.nanosecond + 1000000000 = t.nanoseconds.toNat ∧ d.nanosecond < 1000000000

section

variable {s t : Timestamp} {d e : DateTime}

theorem dateOf_of_dateTime? (h : t.dateTime? = some d) : t.DateOf d := by
  unfold dateTime? at h
  simp only at h
  split at h
  · cases h
  split at h
  · cases h
  next hleap =>
  obtain rfl := Option.some.inj h
  refine ⟨rfl, ?_, ?_, ?_⟩
  · simp only
    omega
  · simp only
    omega
  · simp only [decide_eq_true_eq, Bool.and_eq_true, Bool.or_eq_true, bne_iff_ne] at *
    split
    · omega
    · omega

theorem fits_numbers (h : t.DateOf d) : Fits clockLayout d.numbers := by
  obtain ⟨hmonth, hday⟩ := Date.month_day_lt_ofDays (t.seconds.toInt / 86400)
  rw [← h.date] at hmonth hday
  have hminutes := h.minutes
  have hminute := h.minute_lt
  have hsecond := h.second
  refine .cons ⟨by decide, hmonth⟩ (.cons ⟨by decide, hday⟩ (.cons ⟨by decide, ?_⟩
    (.cons ⟨by decide, ?_⟩ (.cons ⟨by decide, ?_⟩ (.cons ⟨by decide, ?_⟩ .nil)))))
  all_goals
    simp only
    omega

/-- A later instant has a later date and time. -/
theorem dateTime_before (hs : s.DateOf d) (ht : t.DateOf e) (h : s.before t = true) :
    d.Before e := by
  rw [before_iff] at h
  have hsecond := hs.second
  have hsecond' := ht.second
  by_cases hday : s.seconds.toInt / 86400 = t.seconds.toInt / 86400
  · have hdate : d.date = e.date := by rw [hs.date, ht.date, hday]
    refine .inr ⟨by rw [hdate], ?_⟩
    simp only [DateTime.numbers, hdate, List.cons_lt_cons_iff, List.not_lt_nil, Nat.lt_irrefl,
      and_false, or_false, false_or, true_and]
    have hminutes := hs.minutes
    have hminutes' := ht.minutes
    have hminute := hs.minute_lt
    have hminute' := ht.minute_lt
    omega
  · have hdate : d.date.Before e.date := by
      rw [hs.date, ht.date]
      exact Date.ofDays_before (by omega)
    unfold Date.Before at hdate
    unfold DateTime.Before DateTime.numbers
    simp only [List.cons_lt_cons_iff]
    omega

/-- Of two different times one is before the other. -/
theorem before_or_before (h : s ≠ t) : s.before t = true ∨ t.before s = true := by
  by_contra hnot
  rw [not_or] at hnot
  exact h (eq_of_not_before hnot.1 hnot.2)

theorem DateTime.not_before_of_eq (hyear : d.date.year = e.date.year)
    (hnumbers : d.numbers = e.numbers) : ¬ d.Before e := by
  unfold Before
  rw [hyear, hnumbers]
  simp

/-! ### Texts -/

/-- A mark without digits and the digits behind it can be told apart. -/
theorem append_digits_inj {mark mark' digits digits' : List Char}
    (hmark : ∀ c ∈ mark, c.isDigit = false) (hmark' : ∀ c ∈ mark', c.isDigit = false)
    (hdigits : ∀ c ∈ digits, c.isDigit = true) (hdigits' : ∀ c ∈ digits', c.isDigit = true)
    (h : mark ++ digits = mark' ++ digits') : mark = mark' ∧ digits = digits' := by
  have hfilter {mark digits : List Char} (hmark : ∀ c ∈ mark, c.isDigit = false)
      (hdigits : ∀ c ∈ digits, c.isDigit = true) :
      (mark ++ digits).filter (fun c => !c.isDigit) = mark := by
    rw [List.filter_append, List.filter_eq_self.mpr (by simpa using hmark),
      List.filter_eq_nil_iff.mpr (by simpa using hdigits), List.append_nil]
  have heq : mark = mark' := by
    rw [← hfilter hmark hdigits, h, hfilter hmark' hdigits']
  rw [heq] at h
  exact ⟨heq, List.append_cancel_left h⟩

def yearMark (year : Int) : List Char :=
  if year < 0 then ['-'] else if 9999 < year then ['+'] else []

theorem toList_yearText (year : Int) :
    (yearText year).toList = yearMark year ++ (padded 4 year.natAbs).toList := by
  unfold yearText yearMark
  split
  · simp
  · split
    · simp
    · simp

theorem isDigit_of_mem_yearMark {year : Int} {c : Char} (hc : c ∈ yearMark year) :
    c.isDigit = false := by
  unfold yearMark at hc
  split at hc
  · obtain rfl := List.mem_singleton.mp hc
    rfl
  · split at hc
    · obtain rfl := List.mem_singleton.mp hc
      rfl
    · cases hc

theorem yearMark_eq_minus_iff (year : Int) : yearMark year = ['-'] ↔ year < 0 := by
  unfold yearMark
  split
  · next hlt => simpa using hlt
  · next hle =>
    split
    · simpa using hle
    · simpa using hle

/-- Years are told apart by their texts. -/
theorem yearText_injective {year year' : Int}
    (h : (yearText year).toList = (yearText year').toList) : year = year' := by
  rw [toList_yearText, toList_yearText] at h
  obtain ⟨hmark, hdigits⟩ := append_digits_inj (fun _ => isDigit_of_mem_yearMark)
    (fun _ => isDigit_of_mem_yearMark) (fun _ => isDigit_of_mem_padded)
    (fun _ => isDigit_of_mem_padded) h
  have habs := padded_injective hdigits
  have hsign : year < 0 ↔ year' < 0 := by
    rw [← yearMark_eq_minus_iff, hmark, yearMark_eq_minus_iff]
  omega

/-- The text of a date and a time of day tells the instant. -/
theorem eq_of_dateTime_text_eq (hs : s.DateOf d) (ht : t.DateOf e) (h : d.text = e.text) :
    s = t := by
  have htexts := congrArg String.toList h
  rw [DateTime.toList_text, DateTime.toList_text] at htexts
  have hlength : ('-' :: row clockLayout d.numbers).length =
      ('-' :: row clockLayout e.numbers).length := by
    rw [List.length_cons, List.length_cons, length_row (fits_numbers hs),
      length_row (fits_numbers ht)]
  obtain ⟨hyears, hrows⟩ := List.append_inj' htexts hlength
  have hyear : d.date.year = e.date.year := yearText_injective hyears
  have hnumbers : d.numbers = e.numbers :=
    row_injective (fits_numbers hs) (fits_numbers ht) (List.cons.inj hrows).2
  by_contra hne
  rcases before_or_before hne with hlt | hgt
  · exact DateTime.not_before_of_eq hyear hnumbers (dateTime_before hs ht hlt)
  · exact DateTime.not_before_of_eq hyear.symm hnumbers.symm (dateTime_before ht hs hgt)

/-- With years of four digits, the text of an earlier date and time is the lesser one. -/
theorem dateTime_text_lt (hs : s.DateOf d) (ht : t.DateOf e) (hyear : 0 ≤ d.date.year)
    (hyear' : 0 ≤ e.date.year) (hlast : d.date.year ≤ 9999) (hlast' : e.date.year ≤ 9999)
    (h : d.Before e) : d.text < e.text := by
  have hplain {year : Int} (hfirst : 0 ≤ year) (hlast : year ≤ 9999) :
      (yearText year).toList = (padded 4 year.natAbs).toList := by
    rw [toList_yearText, yearMark, if_neg (by omega), if_neg (by omega), List.nil_append]
  show d.text.toList < e.text.toList
  rw [DateTime.toList_text, DateTime.toList_text, hplain hyear hlast, hplain hyear' hlast']
  rcases h with hlt | ⟨heq, hlt⟩
  · apply append_lt_append
    · rw [length_padded (by decide) (by omega), length_padded (by decide) (by omega)]
    · exact padded_lt (by decide) (by omega) (by omega)
  · rw [heq]
    apply List.append_left_lt
    apply List.cons_lt_cons_iff.mpr
    exact .inr ⟨rfl, row_lt (fits_numbers hs) (fits_numbers ht) hlt⟩

theorem text_of_dateTime? (h : t.dateTime? = some d) : t.text = d.text := by
  unfold text
  rw [h]

/-- The text of an instant that has no date. -/
theorem toList_text_of_none (h : t.dateTime? = none) : t.text.toList =
    (toString t.seconds.toInt).toList ++ '.' :: (padded 9 t.nanoseconds.toNat).toList := by
  unfold text
  rw [h]
  simp

theorem isDigit_or_of_mem_toString {n : Int} {c : Char} (hc : c ∈ (toString n).toList) :
    c.isDigit = true ∨ c = '-' := by
  rw [Json.toList_toString, List.mem_append] at hc
  rcases hc with hsign | hdigit
  · split at hsign
    · exact .inr (List.mem_singleton.mp hsign)
    · cases hsign
  · exact .inl ((Decimal.digits_toDigits n.natAbs).2 c hdigit)

/-- Only a text with a date ends with the letter of its time zone. -/
theorem text_ne_of_none (hs : s.dateTime? = some d) (ht : t.dateTime? = none) :
    s.text ≠ t.text := by
  intro h
  have hzone : 'Z' ∈ t.text.toList := by
    rw [← h, text_of_dateTime? hs, DateTime.toList_text]
    simp [clockLayout, DateTime.numbers, row]
  rw [toList_text_of_none ht, List.mem_append, List.mem_cons] at hzone
  rcases hzone with hseconds | hpoint | hnanoseconds
  · rcases isDigit_or_of_mem_toString hseconds with hdigit | hminus
    · cases hdigit
    · cases hminus
  · cases hpoint
  · cases isDigit_of_mem_padded hnanoseconds

theorem toString_injective {m n : Int} (h : (toString m).toList = (toString n).toList) : m = n := by
  have hsign (n : Int) : ∀ c ∈ if n < 0 then ['-'] else [], c.isDigit = false := by
    intro c hc
    split at hc
    · rw [List.mem_singleton.mp hc]
      rfl
    · cases hc
  rw [Json.toList_toString, Json.toList_toString] at h
  obtain ⟨hmark, hdigits⟩ := append_digits_inj (hsign m) (hsign n)
    (Decimal.digits_toDigits m.natAbs).2 (Decimal.digits_toDigits n.natAbs).2 h
  have habs : m.natAbs = n.natAbs := by
    rw [← Decimal.ofDigits_toDigits m.natAbs, hdigits, Decimal.ofDigits_toDigits]
  split at hmark
  · split at hmark
    · omega
    · cases hmark
  · split at hmark
    · cases hmark
    · omega

/-- Instants without a date with the same text are the same. -/
theorem eq_of_text_eq_of_none (hs : s.dateTime? = none) (ht : t.dateTime? = none)
    (h : s.text = t.text) : s = t := by
  have htexts := congrArg String.toList h
  have hpoint (n : Int) : '.' ∉ (toString n).toList := by
    intro hmem
    rcases isDigit_or_of_mem_toString hmem with hdigit | hminus
    · cases hdigit
    · cases hminus
  have hpoint' (n : Nat) : '.' ∉ (padded 9 n).toList := by
    intro hmem
    cases isDigit_of_mem_padded hmem
  rw [toList_text_of_none hs, toList_text_of_none ht,
    List.append_cons_inj_of_notMem (hpoint _) (hpoint' _)] at htexts
  obtain ⟨hseconds, -, hnanoseconds⟩ := htexts
  obtain ⟨seconds, nanoseconds⟩ := s
  obtain ⟨seconds', nanoseconds'⟩ := t
  obtain rfl := Int64.toInt_inj.mp (toString_injective hseconds)
  obtain rfl := UInt32.toNat_inj.mp (padded_injective hnanoseconds)
  rfl

/-- Different times have different texts. -/
theorem text_injective (h : s.text = t.text) : s = t := by
  cases hs : s.dateTime? with
  | none =>
      cases ht : t.dateTime? with
      | none => exact eq_of_text_eq_of_none hs ht h
      | some e => exact absurd h.symm (text_ne_of_none ht hs)
  | some d =>
      cases ht : t.dateTime? with
      | none => exact absurd h (text_ne_of_none hs ht)
      | some e =>
          rw [text_of_dateTime? hs, text_of_dateTime? ht] at h
          exact eq_of_dateTime_text_eq (dateOf_of_dateTime? hs) (dateOf_of_dateTime? ht) h

/-- In the years of four digits an earlier time has the lesser text. -/
theorem text_lt (hs : s.dateTime? = some d) (ht : t.dateTime? = some e)
    (hyear : 0 ≤ d.date.year) (hyear' : 0 ≤ e.date.year) (hlast : d.date.year ≤ 9999)
    (hlast' : e.date.year ≤ 9999) (h : s.before t = true) : s.text < t.text := by
  have hdate := dateOf_of_dateTime? hs
  have hdate' := dateOf_of_dateTime? ht
  rw [text_of_dateTime? hs, text_of_dateTime? ht]
  exact dateTime_text_lt hdate hdate' hyear hyear' hlast hlast' (dateTime_before hdate hdate' h)

end

/-- The text of an instant tells which instant it is, whether it has a date or not. And of two
instants with dates in years from 0 to 9999 the earlier one has the text that comes first, also where
one of them is a leap second. -/
theorem text_injective_and_ordered (s t : Timestamp) :
    (s.text = t.text ↔ s = t) ∧
      ∀ d e, s.dateTime? = some d → t.dateTime? = some e →
        0 ≤ d.date.year → d.date.year ≤ 9999 → 0 ≤ e.date.year → e.date.year ≤ 9999 →
        (s.before t = true ↔ s.text < t.text) := by
  refine ⟨⟨text_injective, congrArg text⟩, ?_⟩
  intro d e hs ht hyear hlast hyear' hlast'
  constructor
  · exact text_lt hs ht hyear hyear' hlast hlast'
  · intro hlt
    by_contra hnot
    have hne : s ≠ t := by
      rintro rfl
      exact String.lt_irrefl _ hlt
    have hgt : t.before s = true := (before_or_before hne).resolve_left hnot
    exact String.lt_asymm hlt (text_lt ht hs hyear' hyear hlast' hlast hgt)

/-- Half of the leap second at the end of 2016 comes before the new year, and so does its text. -/
theorem text_injective_and_ordered_leap :
    let leap : Timestamp := ⟨1483228799, 1500000000⟩
    let newYear : Timestamp := ⟨1483228800, 0⟩
    leap.text = "2016-12-31T23:59:60.500000000Z" ∧ newYear.text = "2017-01-01T00:00:00.000000000Z" ∧
      leap.before newYear = true ∧ leap.text < newYear.text := by
  intro leap newYear
  have hleap : leap.dateTime? = some ⟨⟨2016, 12, 31⟩, 23, 59, 60, 500000000⟩ := by cbv
  have hnewYear : newYear.dateTime? = some ⟨⟨2017, 1, 1⟩, 0, 0, 0, 0⟩ := by cbv
  have hbefore : leap.before newYear = true := by decide
  have hordered := (text_injective_and_ordered leap newYear).2 _ _ hleap hnewYear (by decide)
    (by decide) (by decide) (by decide)
  exact ⟨by decide +kernel, by decide +kernel, hbefore, hordered.mp hbefore⟩

end ProcessFormula.Timestamp
