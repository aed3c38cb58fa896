import ProcessFormula.Proofs.CommandLine.Binding
import ProcessFormula.Proofs.Formula.PrintedNames
import ProcessFormula.Proofs.Number.Roundtrip
import ProcessFormula.Proofs.Number.Scaling

/-!
Which variables of a formula a command line can bind. A quoted name may have any characters, but an
argument is cut at its first equals sign and the blanks around the name are dropped; so a name can
be given exactly if it has a character, no equals sign and no blank at either end. Then every number
can be given to its variable.
-/

namespace ProcessFormula.CommandLine

open Text Grammar

/-! ### Texts without blanks at the ends -/

theorem trimBlanks_of_solid {s : List Char} (hstart : StartsSolid s)
    (hend : StartsSolid s.reverse) : trimBlanks s = s := by
  rw [trimBlanks, skipBlanks_of_startsSolid hstart, skipBlanks_of_startsSolid hend,
    List.reverse_reverse]

theorem startsSolid_reverse_trimBlanks (s : List Char) : StartsSolid (trimBlanks s).reverse := by
  rw [trimBlanks, List.reverse_reverse]
  exact startsSolid_skipBlanks _

theorem mem_of_mem_trimBlanks {s : List Char} {c : Char} (h : c ∈ trimBlanks s) : c ∈ s := by
  have hsuffix := (List.dropWhile_suffix isBlank).subset (List.mem_reverse.mp h)
  exact (List.dropWhile_suffix isBlank).subset (List.mem_reverse.mp hsuffix)

theorem startsSolid_trimBlanks (s : List Char) : StartsSolid (trimBlanks s) := by
  intro c hc
  -- What is left after the blanks at the end are dropped starts as before.
  have hprefix : trimBlanks s <+: skipBlanks s := by
    rw [trimBlanks, ← List.reverse_suffix, List.reverse_reverse]
    exact List.dropWhile_suffix isBlank
  obtain ⟨rest, hrest⟩ := hprefix
  apply startsSolid_skipBlanks s c
  rw [← hrest, List.head?_append, Option.mem_def.mp hc]
  rfl

/-! ### Numbers on a command line -/

inductive Sign : List Char → Bool → Prop
  | absent : Sign [] false
  | plus : Sign ['+'] false
  | minus : Sign ['-'] true

def nanWord : List Char := ['n', 'a', 'n']

def infinityWords : List (List Char) := [['i', 'n', 'f'], ['i', 'n', 'f', 'i', 'n', 'i', 't', 'y']]

/-- How numbers are written: a decimal literal stands for the nearest double, and a word, in letters
of either case, for NaN or an infinity. -/
inductive NumberText : List Char → Float → Prop
  | decimal {sign s : List Char} {negative : Bool} {d : Decimal} (hsign : Sign sign negative)
      (h : Literal s d) : NumberText (sign ++ s) (d.toFloat negative)
  | infinite {sign s : List Char} {negative : Bool} (hsign : Sign sign negative)
      (h : s.map Char.toLower ∈ infinityWords) : NumberText (sign ++ s) (Binary64.infinity negative)
  | nan {sign s : List Char} {negative : Bool} (hsign : Sign sign negative)
      (h : s.map Char.toLower = nanWord) : NumberText (sign ++ s) Binary64.nan

theorem literal_head {s : List Char} {d : Decimal} (h : Literal s d) :
    ∃ c rest, s = c :: rest ∧ (c.isDigit = true ∨ c = '.') := by
  cases h with
  | whole hdigits _ =>
      obtain ⟨c, rest, rfl⟩ := List.exists_cons_of_ne_nil hdigits.1
      exact ⟨c, _, rfl, .inl (hdigits.2 c (by simp))⟩
  | @pointed whole fraction tail e hdigits _ =>
      cases whole with
      | nil => exact ⟨'.', _, rfl, .inr rfl⟩
      | cons c rest => exact ⟨c, _, rfl, .inl (hdigits.2 c (by simp))⟩

/-- A sign is taken off a text that has none of its own. -/
theorem ofText?_append {sign s : List Char} {negative : Bool} (hsign : Sign sign negative)
    (hs : ∀ c ∈ s.head?, c ≠ '-' ∧ c ≠ '+') :
    Binary64.ofText? (sign ++ s) =
      if s.map Char.toLower = nanWord then some Binary64.nan
      else if s.map Char.toLower ∈ infinityWords then some (Binary64.infinity negative)
      else (Decimal.literal? s).map (Decimal.toFloat negative) := by
  have hword (t : String) : String.ofList (s.map Char.toLower) = t ↔
      s.map Char.toLower = t.toList := by
    rw [← String.toList_inj, String.toList_ofList]
  have hnan := hword "nan"
  have hinfinity : s.map Char.toLower ∈ infinityWords ↔
      String.ofList (s.map Char.toLower) = "inf" ∨
        String.ofList (s.map Char.toLower) = "infinity" := by
    rw [hword, hword]
    simp [infinityWords]
  rw [show nanWord = "nan".toList from rfl]
  simp only [← hnan, hinfinity]
  cases hsign with
  | plus => rfl
  | minus => rfl
  | absent =>
      cases s with
      | nil => rfl
      | cons c rest =>
          obtain ⟨hminus, hplus⟩ := hs c rfl
          simp [Binary64.ofText?, hminus, hplus]

theorem toLower_of_not_upper {c : Char} (h : c.toNat < 65 ∨ 90 < c.toNat) : c.toLower = c := by
  have hval : c.toNat = c.val.toNat := rfl
  unfold Char.toLower
  rw [dif_neg]
  intro hupper
  simp [UInt32.le_iff_toNat_le] at hupper
  omega

theorem toLower_of_digit {c : Char} (h : c.isDigit = true ∨ c = '.') : c.toLower = c := by
  rcases h with h | rfl
  · have hval : c.toNat = c.val.toNat := rfl
    apply toLower_of_not_upper
    simp [Char.isDigit, UInt32.le_iff_toNat_le] at h
    omega
  · rfl

theorem toLower_of_blank {c : Char} (h : isBlank c = true) : c.toLower = c := by
  apply toLower_of_not_upper
  simp [isBlank, blankRanges] at h
  omega

/-- A word is made of letters. -/
theorem words_spec : ∀ word ∈ nanWord :: infinityWords, (∀ c ∈ word, isBlank c = false) ∧
    ∃ first more, word = first :: more ∧ ¬ (first.isDigit = true ∨ first = '.') ∧
      first ≠ '-' ∧ first ≠ '+' := by
  have hblank : ∀ word ∈ nanWord :: infinityWords, (word.all fun c => !isBlank c) = true := by
    decide
  have hfirst : ∀ word ∈ nanWord :: infinityWords,
      word.head? = some 'n' ∨ word.head? = some 'i' := by
    decide
  intro word hword
  refine ⟨fun c hc => by simpa using List.all_eq_true.mp (hblank word hword) c hc, ?_⟩
  rcases hfirst word hword with hhead | hhead
  · obtain ⟨more, rfl⟩ := List.head?_eq_some_iff.mp hhead
    exact ⟨_, _, rfl, by decide⟩
  · obtain ⟨more, rfl⟩ := List.head?_eq_some_iff.mp hhead
    exact ⟨_, _, rfl, by decide⟩

section

variable {s word : List Char} (h : s.map Char.toLower = word)
include h

theorem head_of_word (hword : word ∈ nanWord :: infinityWords) :
    ∀ c ∈ s.head?, c ≠ '-' ∧ c ≠ '+' := by
  intro c hc
  obtain ⟨first, more, hfirst, -, hminus, hplus⟩ := (words_spec word hword).2
  have hlower : c.toLower = first := by
    have hhead := congrArg List.head? (h.trans hfirst)
    rw [List.head?_map, Option.mem_def.mp hc] at hhead
    exact Option.some.inj hhead
  constructor
  · rintro rfl
    exact hminus hlower.symm
  · rintro rfl
    exact hplus hlower.symm

theorem solid_of_word (hword : ∀ c ∈ word, isBlank c = false) :
    ∀ c ∈ s, isBlank c = false := by
  intro c hc
  by_contra hblank
  have hlower := hword c.toLower (h ▸ List.mem_map_of_mem hc)
  rw [toLower_of_blank (by simpa using hblank)] at hlower
  exact hblank hlower

end

theorem solid_of_sign {sign : List Char} {negative : Bool} (h : Sign sign negative) :
    ∀ c ∈ sign, isBlank c = false := by
  cases h with
  | absent => exact List.forall_mem_nil _
  | plus | minus =>
      rw [List.forall_mem_singleton]
      decide

theorem solid_of_exponent {tail : List Char} {e : Int} (h : Exponent tail e) :
    ∀ c ∈ tail, isBlank c = false := by
  have hdigit {digits : List Char} (hdigits : Grammar.Digits digits) :
      ∀ c ∈ digits, isBlank c = false :=
    fun c hc => isBlank_of_isDigit (hdigits.2 c hc)
  have hmark {mark : Char} (hmark : mark = 'e' ∨ mark = 'E') : isBlank mark = false := by
    rcases hmark with rfl | rfl <;> decide
  cases h with
  | absent => simp
  | unsigned h hdigits => exact List.forall_mem_cons.mpr ⟨hmark h, hdigit hdigits⟩
  | plus h hdigits | minus h hdigits =>
      exact List.forall_mem_cons.mpr ⟨hmark h, List.forall_mem_cons.mpr ⟨by decide, hdigit hdigits⟩⟩

theorem solid_of_literal {s : List Char} {d : Decimal} (h : Literal s d) :
    ∀ c ∈ s, isBlank c = false := by
  cases h with
  | whole hdigits htail =>
      exact List.forall_mem_append.mpr
        ⟨fun c hc => isBlank_of_isDigit (hdigits.2 c hc), solid_of_exponent htail⟩
  | pointed hdigits htail =>
      have hdigit := fun c hc => isBlank_of_isDigit (hdigits.2 c hc)
      rw [List.forall_mem_append] at hdigit
      exact List.forall_mem_append.mpr ⟨hdigit.1, List.forall_mem_cons.mpr
        ⟨by decide, List.forall_mem_append.mpr ⟨hdigit.2, solid_of_exponent htail⟩⟩⟩

/-- No blank stands in the text of a number. -/
theorem solid_of_numberText {s : List Char} {x : Float} (h : NumberText s x) :
    ∀ c ∈ s, isBlank c = false := by
  cases h with
  | decimal hsign h => exact List.forall_mem_append.mpr ⟨solid_of_sign hsign, solid_of_literal h⟩
  | infinite hsign h =>
      exact List.forall_mem_append.mpr
        ⟨solid_of_sign hsign, solid_of_word rfl (words_spec _ (List.mem_cons_of_mem _ h)).1⟩
  | nan hsign h =>
      exact List.forall_mem_append.mpr
        ⟨solid_of_sign hsign, solid_of_word h (words_spec _ List.mem_cons_self).1⟩

/-- The text of a number is read as the number. -/
theorem ofText?_of_numberText {s : List Char} {x : Float} (h : NumberText s x) :
    Binary64.ofText? s = some x := by
  cases h with
  | decimal hsign h =>
      obtain ⟨c, rest, rfl, hc⟩ := literal_head h
      have hmark : ∀ first ∈ (c :: rest).head?, first ≠ '-' ∧ first ≠ '+' := by
        rintro first hfirst
        obtain rfl := Option.some.inj hfirst
        constructor <;> rintro rfl <;> simp at hc
      have hword : (c :: rest).map Char.toLower ∉ nanWord :: infinityWords := by
        intro hmem
        obtain ⟨first, more, hfirst, hletter, -⟩ := (words_spec _ hmem).2
        rw [List.map_cons, toLower_of_digit hc] at hfirst
        exact hletter ((List.cons.inj hfirst).1 ▸ hc)
      rw [List.mem_cons, not_or] at hword
      rw [ofText?_append hsign hmark, if_neg hword.1, if_neg hword.2, literal?_of_literal h]
      rfl
  | infinite hsign h =>
      have hnan : ∀ word ∈ infinityWords, word ≠ nanWord := by decide
      rw [ofText?_append hsign (head_of_word rfl (List.mem_cons_of_mem _ h)), if_neg (hnan _ h),
        if_pos h]
  | nan hsign h =>
      rw [ofText?_append hsign (head_of_word h List.mem_cons_self), if_pos h]

/-- Every number can be written. -/
theorem exists_numberText (x : Float) : ∃ s, NumberText s x := by
  cases hread : Binary64.read x with
  | nan =>
      have hword : nanWord.map Char.toLower = nanWord := rfl
      rw [Binary64.eq_nan_of_read hread]
      exact ⟨_, .nan .absent hword⟩
  | infinite negative =>
      have hword : ['i', 'n', 'f'].map Char.toLower ∈ infinityWords := by decide
      rw [Binary64.eq_infinity_of_read hread]
      cases negative with
      | false => exact ⟨_, .infinite .absent hword⟩
      | true => exact ⟨_, .infinite .minus hword⟩
  | finite negative mantissa exponent =>
      have hfinite := Binary64.isFinite_iff.mpr ⟨_, _, _, hread⟩
      obtain ⟨negative, s, n, -, hnumeral, rfl⟩ := Layout.text_readsBack Layout.tree_pointed hfinite
      cases negative with
      | false => exact ⟨_, .decimal .absent hnumeral.literal⟩
      | true =>
          rw [if_pos rfl, ← Decimal.toFloat_true]
          exact ⟨_, .decimal .minus hnumeral.literal⟩

/-! ### Names -/

structure Writable (name : String) : Prop where
  ne_nil : name.toList ≠ []
  noEquals : '=' ∉ name.toList
  starts : ∀ c ∈ name.toList.head?, isBlank c = false
  ends : ∀ c ∈ name.toList.getLast?, isBlank c = false

namespace Binding

theorem span_equals {before : List Char} (h : '=' ∉ before) (behind : List Char) :
    (before ++ '=' :: behind).span (· != '=') = (before, '=' :: behind) := by
  have hbefore : ∀ c ∈ before, (c != '=') = true := by
    intro c hc
    rw [bne_iff_ne]
    rintro rfl
    exact h hc
  rw [List.span_eq_takeWhile_dropWhile, List.takeWhile_append_of_pos hbefore,
    List.dropWhile_append_of_pos hbefore]
  simp

/-- An argument with a name that can be written gives exactly this name, and the text behind the
equals sign is the value. -/
theorem parse_of_writable {name : String} (h : Writable name) (now : Timestamp) (raw : String) :
    parse now (name ++ "=" ++ raw) = .ok ⟨name, payloadOf raw.toList, .clear, now⟩ := by
  have hargument : (name ++ "=" ++ raw).toList = name.toList ++ '=' :: raw.toList := by simp
  have htrim : trimBlanks name.toList = name.toList :=
    trimBlanks_of_solid h.starts (by simpa [StartsSolid] using h.ends)
  obtain ⟨c, rest, hname⟩ := List.exists_cons_of_ne_nil h.ne_nil
  unfold parse
  rw [hargument, span_equals h.noEquals]
  dsimp only
  rw [htrim, hname]
  dsimp only
  rw [← hname, String.ofList_toList]

/-- Whatever argument is accepted, the name that it gives can be written. -/
theorem writable_of_parse {now : Timestamp} {argument : String} {b : Binding}
    (h : parse now argument = .ok b) : Writable b.name := by
  unfold parse at h
  rw [List.span_eq_takeWhile_dropWhile] at h
  dsimp only at h
  split at h
  · cases h
  · split at h
    · cases h
    · next name hne =>
      obtain rfl := Except.ok.inj h
      have hends := startsSolid_reverse_trimBlanks (argument.toList.takeWhile (· != '='))
      refine ⟨?_, ?_, ?_, ?_⟩ <;> rw [String.toList_ofList]
      · exact hne
      · intro hequals
        have hbefore := List.mem_takeWhile_imp (mem_of_mem_trimBlanks hequals)
        simp at hbefore
      · exact startsSolid_trimBlanks _
      · rwa [StartsSolid, List.head?_reverse] at hends

/-- A number's text is read as the number. -/
theorem payloadOf_number {s : List Char} {x : Float} (h : NumberText s x) :
    payloadOf s = .scalar x := by
  have hsolid := solid_of_numberText h
  have htrim : trimBlanks s = s := by
    refine trimBlanks_of_solid (fun c hc => ?_) fun c hc => ?_
    · exact hsolid c (List.mem_of_head? hc)
    · exact hsolid c (List.mem_reverse.mp (List.mem_of_head? hc))
  rw [payloadOf, htrim, ofText?_of_numberText h]

/-- A variable that a formula lists can be bound exactly if its name can be given by an argument.
Then an argument gives it any number: the name, an equals sign and the number's text set the
variable to the number, unless a later argument names it again. -/
theorem variable_bindable {registry : Registry} {compiled : Timestamp} {offered : List Variable}
    {text : String} {store store' : Store} {f : Formula}
    (h : Formula.compile registry compiled .autoDetect offered text store = .ok (f, store'))
    {v : Variable} (hv : v ∈ f.inputs) (now : Timestamp) :
    (Writable v.name ↔ ∃ argument b, parse now argument = .ok b ∧ b.name = v.name) ∧
    (Writable v.name → ∀ (d : String) (x : Float), NumberText d.toList x →
      ∃ b, parse now (v.name ++ "=" ++ d) = .ok b ∧ b.name = v.name ∧ b.value = .number now x ∧
        ∀ before after : List Binding, (∀ c ∈ after, c.name ≠ v.name) →
          (applyAll f (before ++ b :: after) store').read v = .number now x) ∧
    ∀ x : Float, ∃ d : String, NumberText d.toList x := by
  refine ⟨⟨fun hname => ?_, ?_⟩, fun hname d x hd => ?_, fun x => ?_⟩
  · exact ⟨_, _, parse_of_writable hname now "0", rfl⟩
  · rintro ⟨argument, b, hparse, hname⟩
    exact hname ▸ writable_of_parse hparse
  · have hparse : parse now (v.name ++ "=" ++ d) = .ok ⟨v.name, .number now x⟩ := by
      rw [parse_of_writable hname, payloadOf_number hd]
      rfl
    refine ⟨⟨v.name, .number now x⟩, hparse, rfl, rfl, fun before after hafter => ?_⟩
    rw [read_applyAll (hasCells_of_compile h) _ hv,
      @last?_eq_some before after ⟨v.name, .number now x⟩ hafter]
    rfl
  · obtain ⟨s, hs⟩ := exists_numberText x
    exact ⟨String.ofList s, by rwa [String.toList_ofList]⟩

theorem parse_quoted (registry : Registry) (now : Timestamp) {name : String}
    (hname : '\x27' ∉ name.toList) :
    Parser.parse (Formula.scope registry now .autoDetect []) ("'" ++ name ++ "'") =
      .ok (.var name) := by
  have htext : "'" ++ name ++ "'" = String.ofList ('\x27' :: (name.toList ++ ['\x27'])) := by
    rw [← String.toList_inj]
    simp
  rw [htext]
  exact parse_of_sentence ((sentence_quoted_iff rfl (.inl rfl)).mpr hname)

/-- The level of a tank can be given, as the blank stands inside its name. -/
theorem variable_bindable_tank :
    let level : Variable := ⟨"Tank level", 0⟩
    ∃ f store' b,
      Formula.compile .builtinsOnly ⟨3, 0⟩ .autoDetect [] ("'" ++ "Tank level" ++ "'") .empty =
        .ok (f, store') ∧
      f.inputs = [level] ∧ parse ⟨9, 0⟩ ("Tank level" ++ "=" ++ "-42.5") = .ok b ∧
      (applyAll f [b] store').read level = .number ⟨9, 0⟩ (-42.5) := by
  intro level
  have hcompile := Formula.compile_of_parse
    (parse_quoted .builtinsOnly ⟨3, 0⟩ (by decide : '\x27' ∉ "Tank level".toList)) .empty
  have hwritable : Writable level.name := by
    have hhead : level.name.toList.head? = some 'T' := by decide
    have hlast : level.name.toList.getLast? = some 'l' := by decide
    refine ⟨by decide, by decide, fun c hc => ?_, fun c hc => ?_⟩
    · obtain rfl : 'T' = c := Option.some.inj (hhead ▸ hc)
      decide
    · obtain rfl : 'l' = c := Option.some.inj (hlast ▸ hc)
      decide
  have htext : NumberText "-42.5".toList (-42.5) := by
    have hdigits : Grammar.Digits (['4', '2'] ++ ['5']) :=
      ⟨by decide, List.all_eq_true.mp (by decide)⟩
    have hvalue : Decimal.toFloat true ⟨425, 0 - 1⟩ = -42.5 := by decide +kernel
    rw [← hvalue]
    exact .decimal .minus (.pointed hdigits .absent)
  obtain ⟨b, hparse, -, -, hread⟩ :=
    (variable_bindable hcompile (v := level) List.mem_cons_self ⟨9, 0⟩).2.1 hwritable "-42.5" (-42.5)
      htext
  exact ⟨_, _, b, hcompile, rfl, hparse, hread [] [] (by simp)⟩

/-- A name with an equals sign is cut there, so that another variable is meant. -/
theorem variable_cut_at_equals :
    ∃ f store',
      Formula.compile .builtinsOnly ⟨3, 0⟩ .autoDetect [] ("'" ++ "a=b" ++ "'") .empty =
        .ok (f, store') ∧
      "a=b" ∈ f.inputs.map Variable.name ∧ NumberText "1".toList 1.0 ∧
      parse ⟨9, 0⟩ ("a=b" ++ "=" ++ "1") = .ok ⟨"a", .text ⟨9, 0⟩ "b=1"⟩ := by
  have hcompile := Formula.compile_of_parse
    (parse_quoted .builtinsOnly ⟨3, 0⟩ (by decide : '\x27' ∉ "a=b".toList)) .empty
  have hdigits : Grammar.Digits ['1'] := ⟨by decide, List.all_eq_true.mp (by decide)⟩
  have hvalue : Decimal.toFloat false ⟨1, 0⟩ = 1.0 := by decide +kernel
  have hparse : parse ⟨9, 0⟩ ("a=b" ++ "=" ++ "1") = .ok ⟨"a", .text ⟨9, 0⟩ "b=1"⟩ := rfl
  have hone : NumberText "1".toList 1.0 := by
    rw [← hvalue]
    exact .decimal .absent (.whole hdigits .absent)
  exact ⟨_, _, hcompile, List.mem_cons_self, hone, hparse⟩

end Binding

end ProcessFormula.CommandLine
