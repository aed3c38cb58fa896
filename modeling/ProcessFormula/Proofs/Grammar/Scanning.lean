import Mathlib.Data.List.TakeWhile
import ProcessFormula.Proofs.Grammar.Lexical

/-!
The readers of single lexemes stop where the description of the lexemes says: runs of characters are
read as far as they go, and quoted text up to the quote that closes it.
-/

namespace ProcessFormula.Grammar

open Text Lexeme

@[simp]
theorem solid_nil : solid [] = [] := rfl

@[simp]
theorem solid_append (s t : List Char) : solid (s ++ t) = solid s ++ solid t :=
  List.filter_append ..

theorem solid_cons_of_blank {c : Char} (hc : isBlank c = true) (s : List Char) :
    solid (c :: s) = solid s := by
  simp [solid, hc]

theorem solid_cons_of_solid {c : Char} (hc : isBlank c = false) (s : List Char) :
    solid (c :: s) = c :: solid s := by
  simp [solid, hc]

theorem startsSolid_nil : StartsSolid [] := by
  simp [StartsSolid]

theorem startsSolid_cons {c : Char} {s : List Char} :
    StartsSolid (c :: s) ↔ isBlank c = false := by
  simp [StartsSolid]

theorem startsSolid_quote {quote : Char} (hquote : quote = '\x27' ∨ quote = '\x60')
    (s : List Char) : StartsSolid (quote :: s) := by
  apply startsSolid_cons.mpr
  rcases hquote with rfl | rfl
  · decide
  · decide

theorem startsSolid_skipBlanks (s : List Char) : StartsSolid (skipBlanks s) := by
  intro c hc
  have hnot := List.head?_dropWhile_not isBlank s
  unfold skipBlanks at hc
  rw [Option.mem_def] at hc
  simpa [hc] using hnot

/-- Skipping takes only blanks away. -/
theorem exists_blanks (s : List Char) :
    ∃ blanks, s = blanks ++ skipBlanks s ∧ solid blanks = [] := by
  refine ⟨s.takeWhile isBlank, List.takeWhile_append_dropWhile.symm, ?_⟩
  simp only [solid, List.filter_eq_nil_iff]
  intro c hc
  simp [List.mem_takeWhile_imp hc]

/-- Skipping takes all blanks away up to text that does not start with one. -/
theorem skipBlanks_append {blanks rest : List Char} (hblanks : solid blanks = [])
    (hrest : StartsSolid rest) : skipBlanks (blanks ++ rest) = rest := by
  have hall : ∀ c ∈ blanks, isBlank c = true := by
    simpa [solid] using hblanks
  rw [skipBlanks, List.dropWhile_append_of_pos hall]
  cases rest with
  | nil => rfl
  | cons c s => simp [startsSolid_cons.mp hrest]

theorem skipBlanks_of_startsSolid {s : List Char} (h : StartsSolid s) : skipBlanks s = s :=
  @skipBlanks_append [] s rfl h

/-! ### Runs of characters -/

/-- Reads characters that go on, each judged by those in front of it, and passes over blanks. -/
def takeRun (goesOn : List Char → Char → Bool) (before : List Char) :
    List Char → List Char × List Char
  | [] => ([], [])
  | c :: s =>
    if goesOn before c then
      let r := takeRun goesOn (before ++ [c]) s
      (c :: r.1, r.2)
    else if isBlank c then takeRun goesOn before s
    else ([], c :: s)

theorem runs_nil (goesOn : List Char → Char → Bool) : Runs goesOn [] := by
  intro before c after h
  simp at h

theorem runs_concat {goesOn : List Char → Char → Bool} {chars : List Char} {c : Char} :
    Runs goesOn (chars ++ [c]) ↔ Runs goesOn chars ∧ goesOn chars c = true := by
  constructor
  · intro h
    refine ⟨?_, h chars c [] rfl⟩
    rintro before d after rfl
    exact h before d (after ++ [c]) (by simp)
  · rintro ⟨h, hc⟩ before d after heq
    rcases List.eq_nil_or_concat after with rfl | ⟨after, e, rfl⟩
    · obtain ⟨rfl, rfl⟩ : chars = before ∧ c = d := by
        simpa using List.append_inj' heq rfl
      exact hc
    · have heq' : chars ++ [c] = (before ++ d :: after) ++ [e] := by
        simpa using heq
      exact h before d after (List.append_inj' heq' rfl).1

variable {goesOn : List Char → Char → Bool}

/-- What a run reads is a longest run, whatever stands in front of it. -/
theorem longest_takeRun (hsolid : ∀ before c, goesOn before c = true → isBlank c = false)
    {before : List Char} (hbefore : Runs goesOn before) (s : List Char) :
    (∃ run, s = run ++ (takeRun goesOn before s).2 ∧ solid run = (takeRun goesOn before s).1) ∧
      Runs goesOn (before ++ (takeRun goesOn before s).1) ∧
      ∀ c ∈ (takeRun goesOn before s).2.head?,
        isBlank c = false ∧ goesOn (before ++ (takeRun goesOn before s).1) c = false := by
  fun_induction takeRun goesOn before s with
  | case1 => exact ⟨⟨[], rfl, rfl⟩, by simpa using hbefore, by simp⟩
  | case2 before c s hc r ih =>
      obtain ⟨⟨run, hs, hrun⟩, hruns, hstop⟩ := ih (runs_concat.mpr ⟨hbefore, hc⟩)
      simp only [List.append_assoc, List.cons_append, List.nil_append] at hruns hstop
      refine ⟨⟨c :: run, by rw [List.cons_append, ← hs], ?_⟩, hruns, hstop⟩
      rw [solid_cons_of_solid (hsolid _ c hc), hrun]
  | case3 before c s _ hblank ih =>
      obtain ⟨⟨run, hs, hrun⟩, hruns, hstop⟩ := ih hbefore
      refine ⟨⟨c :: run, by rw [List.cons_append, ← hs], ?_⟩, hruns, hstop⟩
      rw [solid_cons_of_blank hblank, hrun]
  | case4 before c s hc hblank =>
      refine ⟨⟨[], rfl, rfl⟩, by simpa using hbefore, ?_⟩
      intro d hd
      obtain rfl : c = d := by simpa using hd
      exact ⟨by simpa using hblank, by simpa using hc⟩

/-- There is only one longest run. -/
theorem takeRun_eq (hsolid : ∀ before c, goesOn before c = true → isBlank c = false)
    {before run rest : List Char} (hruns : Runs goesOn (before ++ solid run))
    (hstop : ∀ c ∈ rest.head?, isBlank c = false ∧ goesOn (before ++ solid run) c = false) :
    takeRun goesOn before (run ++ rest) = (solid run, rest) := by
  induction run generalizing before with
  | nil =>
      cases rest with
      | nil => rfl
      | cons c s =>
          have ⟨hblank, hc⟩ := hstop c (by simp)
          rw [solid_nil, List.append_nil] at hc
          simp [takeRun, hblank, hc]
  | cons c run ih =>
      cases hblank : isBlank c with
      | true =>
          have hc : goesOn before c = false := by
            cases h : goesOn before c with
            | false => rfl
            | true => rw [hsolid _ c h] at hblank; cases hblank
          rw [solid_cons_of_blank hblank] at hruns hstop ⊢
          simp only [List.cons_append, takeRun, hc, hblank, if_true, Bool.false_eq_true, if_false]
          exact ih hruns hstop
      | false =>
          rw [solid_cons_of_solid hblank] at hruns hstop ⊢
          have hc : goesOn before c = true := hruns before c (solid run) rfl
          have hmore := @ih (before ++ [c]) (by simpa using hruns) (by simpa using hstop)
          simp [takeRun, hc, hmore]

/-- Reading characters that go on finds the longest run. -/
theorem takeRun_eq_iff (hsolid : ∀ before c, goesOn before c = true → isBlank c = false)
    {s chars rest : List Char} :
    takeRun goesOn [] s = (chars, rest) ↔ Longest (Runs goesOn) chars s rest := by
  constructor
  · intro h
    obtain ⟨hrun, hruns, hstop⟩ := longest_takeRun hsolid (runs_nil goesOn) s
    rw [h] at hrun hruns hstop
    refine ⟨hrun, hruns, fun c hc => (hstop c hc).1, ?_⟩
    intro c hc hmore
    have hgoes := (runs_concat.mp hmore).2
    rw [show goesOn chars c = false from (hstop c hc).2] at hgoes
    cases hgoes
  · rintro ⟨⟨run, rfl, rfl⟩, hruns, hrest, hmax⟩
    apply takeRun_eq hsolid hruns
    intro c hc
    refine ⟨hrest c hc, ?_⟩
    rw [← Bool.not_eq_true]
    intro hgoes
    exact hmax c hc (runs_concat.mpr ⟨hruns, hgoes⟩)

/-! ### Names and numbers -/

/-- No blank is among the characters from the plus sign to the last small letter. -/
private theorem blankRanges_apart :
    ∀ r ∈ blankRanges, r.2 < '+'.toNat ∨ 'z'.toNat < r.1 := by decide

private theorem alphanumericRanges_apart :
    (alphanumericRanges.all fun r => blankRanges.all fun b =>
      decide (r.2 < b.1 ∨ b.2 < r.1)) = true := by
  decide +kernel

private theorem isBlank_eq_false_of_range {c : Char} (hlow : '+'.toNat ≤ c.toNat)
    (hhigh : c.toNat ≤ 'z'.toNat) : isBlank c = false := by
  rw [← Bool.not_eq_true]
  intro hblank
  obtain ⟨r, hr, hmem⟩ := List.any_eq_true.mp hblank
  simp only [Bool.and_eq_true, decide_eq_true_eq] at hmem
  have := blankRanges_apart r hr
  omega

private theorem range_of_isAlphanum {c : Char} (hc : c.isAlphanum = true) :
    '+'.toNat ≤ c.toNat ∧ c.toNat ≤ 'z'.toNat := by
  rw [show c.isAlphanum = ((decide (c.val ≥ 'A'.val ∧ c.val ≤ 'Z'.val) ||
    decide (c.val ≥ 'a'.val) && decide (c.val ≤ 'z'.val)) ||
      decide (c.val ≥ '0'.val) && decide (c.val ≤ '9'.val)) from rfl] at hc
  simp only [Bool.or_eq_true, Bool.and_eq_true, decide_eq_true_eq, ge_iff_le,
    UInt32.le_iff_toNat_le] at hc
  have hval : c.toNat = c.val.toNat := rfl
  simp only [Char.reduceVal, Char.reduceToNat, UInt32.reduceToNat] at hc ⊢
  omega

/-- Name characters are not blank. They are compared range by range. -/
theorem isBlank_of_isNameChar {c : Char} (hc : isNameChar c = true) : isBlank c = false := by
  simp only [isNameChar, isAlphanumeric, Bool.or_eq_true, beq_iff_eq] at hc
  rcases hc with (hc | rfl) | rfl
  · split at hc
    · exact isBlank_eq_false_of_range (range_of_isAlphanum hc).1 (range_of_isAlphanum hc).2
    · rw [← Bool.not_eq_true]
      intro hblank
      obtain ⟨b, hb, hmem⟩ := List.any_eq_true.mp hblank
      obtain ⟨r, hr, hrange⟩ := List.any_eq_true.mp hc
      have happart := List.all_eq_true.mp (List.all_eq_true.mp alphanumericRanges_apart r hr) b hb
      simp only [Bool.and_eq_true, decide_eq_true_eq] at hmem hrange happart
      omega
  · decide
  · decide

theorem isBlank_of_isDigit {c : Char} (hc : c.isDigit = true) : isBlank c = false := by
  have halnum : c.isAlphanum = true := by simp [Char.isAlphanum, hc]
  exact isBlank_eq_false_of_range (range_of_isAlphanum halnum).1 (range_of_isAlphanum halnum).2

theorem isBlank_of_startsNumber {c : Char} (hc : startsNumber c = true) : isBlank c = false := by
  simp only [startsNumber, Bool.or_eq_true, beq_iff_eq] at hc
  rcases hc with hc | rfl
  · exact isBlank_of_isDigit hc
  · decide

theorem isBlank_of_numberGoesOn {before : List Char} {c : Char}
    (hc : numberGoesOn before c = true) : isBlank c = false := by
  simp only [numberGoesOn, Bool.or_eq_true, beq_iff_eq, Bool.and_eq_true] at hc
  rcases hc with (((hc | rfl) | rfl) | rfl) | ⟨rfl | rfl, -⟩
  · exact isBlank_of_isDigit hc
  all_goals decide

theorem bareName_eq_takeRun (before s : List Char) : bareName s = takeRun nameGoesOn before s := by
  induction s generalizing before with
  | nil => rfl
  | cons c s ih =>
      simp only [bareName, takeRun, nameGoesOn, ← ih (before ++ [c]), ← ih before]

/-- A name is the longest run of name characters. -/
theorem bareName_eq_iff {s chars rest : List Char} :
    bareName s = (chars, rest) ↔ Longest (Runs nameGoesOn) chars s rest := by
  have hsolid : ∀ before c, nameGoesOn before c = true → isBlank c = false :=
    fun _ _ hc => isBlank_of_isNameChar hc
  rw [bareName_eq_takeRun [], takeRun_eq_iff hsolid]

theorem numberRun_eq_takeRun (before s : List Char) :
    numberRun (before.getLast?.any isExponentMark) s = takeRun numberGoesOn before s := by
  induction s generalizing before with
  | nil => rfl
  | cons c s ih =>
      have hgoes : continuesNumber (before.getLast?.any isExponentMark) c =
          numberGoesOn before c := by
        cases hlast : before.getLast? <;>
          simp [continuesNumber, startsNumber, numberGoesOn, isExponentMark, hlast, Bool.and_comm,
            Bool.or_assoc]
      have hmore : numberRun (isExponentMark c) s = takeRun numberGoesOn (before ++ [c]) s := by
        simpa using ih (before ++ [c])
      simp only [numberRun, takeRun, hgoes, hmore, ih before]

/-- A number is the longest run of characters that go on with it. -/
theorem numberRun_eq_iff {s chars rest : List Char} :
    numberRun false s = (chars, rest) ↔ Longest (Runs numberGoesOn) chars s rest := by
  rw [show false = ([] : List Char).getLast?.any isExponentMark from rfl, numberRun_eq_takeRun,
    takeRun_eq_iff fun _ _ hc => isBlank_of_numberGoesOn hc]

/-! ### Quoted text -/

/-- A quoted name ends at the next quote of its kind. -/
theorem upTo_eq_some_iff {quote : Char} {s name rest : List Char} :
    upTo quote s = some (name, rest) ↔
      ∃ blanks, s = name ++ quote :: (blanks ++ rest) ∧ quote ∉ name ∧ solid blanks = [] ∧
        StartsSolid rest := by
  induction s generalizing name with
  | nil => simp [upTo]
  | cons c s ih =>
      simp only [upTo]
      split
      · next hc =>
        subst hc
        constructor
        · intro h
          obtain ⟨rfl, rfl⟩ := Prod.mk.inj (Option.some.inj h)
          obtain ⟨blanks, hs, hblanks⟩ := exists_blanks s
          exact ⟨blanks, by rw [List.nil_append, ← hs], by simp, hblanks, startsSolid_skipBlanks s⟩
        · rintro ⟨blanks, hs, hname, hblanks, hrest⟩
          cases name with
          | nil =>
              obtain rfl : s = blanks ++ rest := by simpa using hs
              rw [skipBlanks_append hblanks hrest]
          | cons d name =>
              obtain rfl : c = d := by simpa using congrArg List.head? hs
              simp at hname
      · next hc =>
        constructor
        · intro h
          obtain ⟨⟨name', rest'⟩, hmore, heq⟩ := Option.map_eq_some_iff.mp h
          obtain ⟨rfl, rfl⟩ := Prod.mk.inj heq
          obtain ⟨blanks, rfl, hname, hblanks⟩ := ih.mp hmore
          exact ⟨blanks, rfl, by simp [hname, Ne.symm hc], hblanks⟩
        · rintro ⟨blanks, hs, hname, hblanks, hrest⟩
          cases name with
          | nil =>
              obtain rfl : c = quote := by simpa using congrArg List.head? hs
              exact absurd rfl hc
          | cons d name =>
              obtain ⟨rfl, rfl⟩ := List.cons.inj hs
              have hmore := ih.mpr ⟨blanks, rfl, fun h => hname (List.mem_cons_of_mem _ h), hblanks,
                hrest⟩
              simpa using hmore

/-- What may stand between the quotes of a string from some place on, `before` standing in front of
that place. -/
private def RestOfBody (before body : List Char) : Prop :=
  (∀ inside after, body = inside ++ '\x22' :: after →
      (before ++ inside).getLast? = some '\\') ∧
    (before ++ body).getLast? ≠ some '\\'

private theorem restOfBody_cons {before body : List Char} {c : Char} :
    RestOfBody before (c :: body) ↔
      (c = '\x22' → before.getLast? = some '\\') ∧ RestOfBody (before ++ [c]) body := by
  constructor
  · rintro ⟨hescaped, hclosed⟩
    refine ⟨?_, ?_, by simpa using hclosed⟩
    · rintro rfl
      simpa using hescaped [] body rfl
    · rintro inside after rfl
      simpa using hescaped (c :: inside) after rfl
  · rintro ⟨hfirst, hescaped, hclosed⟩
    refine ⟨?_, by simpa using hclosed⟩
    intro inside after heq
    cases inside with
    | nil =>
        obtain ⟨rfl, -⟩ := List.cons.inj heq
        simpa using hfirst rfl
    | cons d inside =>
        obtain ⟨rfl, rfl⟩ := List.cons.inj heq
        simpa using hescaped inside after rfl

/-- A backslash is dropped, and it is what the next character stands behind. -/
private theorem escaped_concat (before : List Char) (c : Char) :
    ((before ++ [c]).getLast? == some '\\') = (c == '\\') := by
  simp

private theorem body_of_stringBody {before s content rest : List Char}
    (h : stringBody (before.getLast? == some '\\') s = some (content, rest)) :
    ∃ body blanks, s = body ++ '\x22' :: (blanks ++ rest) ∧ RestOfBody before body ∧
      solid blanks = [] ∧ StartsSolid rest ∧ content = body.filter (· ≠ '\\') := by
  induction s generalizing before content with
  | nil => cases h
  | cons c s ih =>
      have hih := @ih (before ++ [c])
      rw [escaped_concat] at hih
      simp only [stringBody] at h
      split at h
      · next hclosing =>
        obtain ⟨rfl, hescaped⟩ := hclosing
        obtain ⟨rfl, rfl⟩ := Prod.mk.inj (Option.some.inj h)
        obtain ⟨blanks, hs, hblanks⟩ := exists_blanks s
        refine ⟨[], blanks, by rw [List.nil_append, ← hs], ⟨by simp, ?_⟩, hblanks,
          startsSolid_skipBlanks s, rfl⟩
        simpa using hescaped
      · next hclosing =>
        have hfirst : c = '\x22' → before.getLast? = some '\\' := by
          intro hquote
          simpa [hquote] using hclosing
        split at h
        · next hbackslash =>
          subst hbackslash
          obtain ⟨body, blanks, rfl, hbody, hblanks, hrest, rfl⟩ := hih h
          exact ⟨'\\' :: body, blanks, rfl, restOfBody_cons.mpr ⟨hfirst, hbody⟩, hblanks, hrest,
            by simp⟩
        · next hplain =>
          obtain ⟨⟨content', rest'⟩, hmore, heq⟩ := Option.map_eq_some_iff.mp h
          obtain ⟨rfl, rfl⟩ := Prod.mk.inj heq
          rw [beq_eq_false_iff_ne.mpr hplain] at hih
          obtain ⟨body, blanks, rfl, hbody, hblanks, hrest, rfl⟩ := hih hmore
          exact ⟨c :: body, blanks, rfl, restOfBody_cons.mpr ⟨hfirst, hbody⟩, hblanks, hrest,
            by simp [hplain]⟩

private theorem stringBody_of_body {before body blanks rest : List Char}
    (hbody : RestOfBody before body) (hblanks : solid blanks = []) (hrest : StartsSolid rest) :
    stringBody (before.getLast? == some '\\') (body ++ '\x22' :: (blanks ++ rest)) =
      some (body.filter (· ≠ '\\'), rest) := by
  induction body generalizing before with
  | nil =>
      have hescaped : (before.getLast? == some '\\') = false := by simpa using hbody.2
      simp [stringBody, hescaped, skipBlanks_append hblanks hrest]
  | cons c body ih =>
      obtain ⟨hfirst, hbody⟩ := restOfBody_cons.mp hbody
      have hmore := ih hbody
      rw [escaped_concat] at hmore
      have hclosing : ¬ (c = '\x22' ∧ (before.getLast? == some '\\') = false) := by
        rintro ⟨hquote, hescaped⟩
        rw [hfirst hquote] at hescaped
        cases hescaped
      rw [List.cons_append, stringBody, if_neg hclosing]
      split
      · next hbackslash =>
        subst hbackslash
        exact hmore.trans (by simp)
      · next hplain =>
        rw [beq_eq_false_iff_ne.mpr hplain] at hmore
        simp [hmore, hplain]

/-- A string ends at the first double quote that is not escaped, and the backslashes are left out of
its text. -/
theorem stringBody_eq_some_iff {s content rest : List Char} :
    stringBody false s = some (content, rest) ↔
      ∃ body blanks, s = body ++ '\x22' :: (blanks ++ rest) ∧ StringBody body ∧
        solid blanks = [] ∧ StartsSolid rest ∧ content = body.filter (· ≠ '\\') := by
  have hbody : ∀ body, RestOfBody [] body ↔ StringBody body := by
    intro body
    constructor
    · intro h
      exact ⟨by simpa using h.1, by simpa using h.2⟩
    · intro h
      exact ⟨by simpa using h.escaped, by simpa using h.closed⟩
  simp only [← hbody]
  constructor
  · intro h
    exact @body_of_stringBody [] s content rest h
  · rintro ⟨body, blanks, rfl, hinside, hblanks, hrest, rfl⟩
    exact stringBody_of_body hinside hblanks hrest

end ProcessFormula.Grammar
