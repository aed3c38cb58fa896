import ProcessFormula.Text.Blank
import ProcessFormula.Text.NameChar

/-!
Reading single lexemes off formula text. Blanks may stand between any two characters outside quotes,
also inside a number or a name, where they have no meaning; so a reader leaves the text at its next
character that is not blank. Inside quotes every character counts.
-/

namespace ProcessFormula.Lexeme

open Text

/-- Text that has not been read yet. -/
abbrev Input := List Char

abbrev Shorter (s : Input) := { rest : Input // rest.length < s.length }

/-- The text behind its first character `c`, if it starts with `c`. -/
def accept (c : Char) : (s : Input) → Option (Shorter s)
  | [] => none
  | d :: s =>
    if d = c then some ⟨skipBlanks s, Nat.lt_succ_of_le (length_skipBlanks_le s)⟩ else none

/-- The text behind its first character `c`, or the text as it is. -/
def skip (c : Char) (s : Input) : Input :=
  match accept c s with
  | some rest => rest.1
  | none => s

theorem length_skip_le (c : Char) (s : Input) : (skip c s).length ≤ s.length := by
  unfold skip
  split
  · next rest _ => exact Nat.le_of_lt rest.2
  · exact Nat.le_refl _

/-- Reads a name: all name characters up to the next character that is neither one nor blank. -/
def bareName : Input → List Char × Input
  | [] => ([], [])
  | c :: s =>
    if isNameChar c then
      let (name, rest) := bareName s
      (c :: name, rest)
    else if isBlank c then bareName s
    else ([], c :: s)

theorem length_bareName_le (s : Input) : (bareName s).2.length ≤ s.length := by
  fun_induction bareName s with
  | case1 => exact Nat.le_refl _
  | case2 c s _ name rest h ih =>
    rw [h] at ih
    exact Nat.le_succ_of_le ih
  | case3 c s _ _ ih => exact Nat.le_succ_of_le ih
  | case4 => exact Nat.le_refl _

/-- A name that has characters takes text away. -/
theorem length_bareName_lt (s : Input) (h : (bareName s).1 ≠ []) :
    (bareName s).2.length < s.length := by
  fun_induction bareName s with
  | case1 => exact absurd rfl h
  | case2 c s _ name rest hs ih =>
    have := length_bareName_le s
    rw [hs] at this
    exact Nat.lt_succ_of_le this
  | case3 c s _ _ ih => exact Nat.lt_succ_of_lt (ih h)
  | case4 => exact absurd rfl h

def startsNumber (c : Char) : Bool := c.isDigit || c == '.'

def isExponentMark (c : Char) : Bool := c == 'e' || c == 'E'

/-- May the character belong to a number? A sign may only stand right behind the exponent mark. -/
def continuesNumber (afterMark : Bool) (c : Char) : Bool :=
  startsNumber c || isExponentMark c || (afterMark && (c == '+' || c == '-'))

/-- Reads the characters of a number; whether they make one is another question. -/
def numberRun (afterMark : Bool) : Input → List Char × Input
  | [] => ([], [])
  | c :: s =>
    if continuesNumber afterMark c then
      let (digits, rest) := numberRun (isExponentMark c) s
      (c :: digits, rest)
    else if isBlank c then numberRun afterMark s
    else ([], c :: s)

theorem length_numberRun_le (afterMark : Bool) (s : Input) :
    (numberRun afterMark s).2.length ≤ s.length := by
  fun_induction numberRun afterMark s with
  | case1 => exact Nat.le_refl _
  | case2 afterMark c s _ digits rest h ih =>
    rw [h] at ih
    exact Nat.le_succ_of_le ih
  | case3 afterMark c s _ _ ih => exact Nat.le_succ_of_le ih
  | case4 => exact Nat.le_refl _

/-- A number takes at least the character it starts with. -/
theorem length_numberRun_lt (c : Char) (s : Input) (h : startsNumber c = true) :
    (numberRun false (c :: s)).2.length < (c :: s).length := by
  have hc : continuesNumber false c = true := by simp [continuesNumber, h]
  simp only [numberRun, hc, if_true]
  exact Nat.lt_succ_of_le (length_numberRun_le _ s)

/-- Reads up to the next mark `c` and past it. There may be none. -/
def upTo (c : Char) : Input → Option (List Char × Input)
  | [] => none
  | d :: s => if d = c then some ([], skipBlanks s) else (upTo c s).map fun r => (d :: r.1, r.2)

theorem length_upTo_lt (c : Char) (s : Input) (r : List Char × Input) (h : upTo c s = some r) :
    r.2.length < s.length := by
  induction s generalizing r with
  | nil => simp [upTo] at h
  | cons d s ih =>
    unfold upTo at h
    split at h
    · cases h
      exact Nat.lt_succ_of_le (length_skipBlanks_le s)
    · obtain ⟨r', hr', rfl⟩ := Option.map_eq_some_iff.1 h
      exact Nat.lt_succ_of_lt (ih r' hr')

/-- Reads a string up to the double quote that closes it and past that quote. A quote right behind a
backslash does not close the string, and backslashes are dropped, all of them. -/
def stringBody (escaped : Bool) : Input → Option (List Char × Input)
  | [] => none
  | c :: s =>
    if c = '\x22' ∧ escaped = false then some ([], skipBlanks s)
    else if c = '\\' then stringBody true s
    else (stringBody false s).map fun r => (c :: r.1, r.2)

theorem length_stringBody_lt (escaped : Bool) (s : Input) (r : List Char × Input)
    (h : stringBody escaped s = some r) : r.2.length < s.length := by
  induction s generalizing escaped r with
  | nil => simp [stringBody] at h
  | cons c s ih =>
    unfold stringBody at h
    split at h
    · cases h
      exact Nat.lt_succ_of_le (length_skipBlanks_le s)
    · split at h
      · exact Nat.lt_succ_of_lt (ih true r h)
      · obtain ⟨r', hr', rfl⟩ := Option.map_eq_some_iff.1 h
        exact Nat.lt_succ_of_lt (ih false r' hr')

end ProcessFormula.Lexeme
