import ProcessFormula.Proofs.Formula.Compiling
import ProcessFormula.Proofs.Parser.Tracing

/-!
What a compile error points at. The position of an error splits the text in two, and what the error
says fits the two parts: a name that it blames starts behind the position, a token that it did not
expect is the character there, and where it says that the text is at its end it is.
-/

namespace ProcessFormula

open Grammar Text

/-- A fault fits a position of a text with this in front of it and that behind it. Blanks count only
inside of quotes and in what is left over. -/
def Fault.Fits (resolve : String → Option Callable) (before behind : List Char) : Fault → Prop
  | .unknownVariable name =>
    (name ≠ "" ∧ name.toList <+: solid behind) ∨
      ∃ quote rest, (quote = '\x27' ∨ quote = '\x60') ∧
        behind = quote :: (name.toList ++ quote :: rest)
  | .unknownFunction name =>
    name ≠ "" ∧ name.toList ++ ['('] <+: solid behind ∧ resolve name = none
  | .arityMismatch signature arity count =>
    ∃ name f, name ≠ "" ∧ name.toList ++ ['('] <+: solid behind ∧ resolve name = some f ∧
      f.signature = signature ∧ f.arity = arity ∧ arity.accepts count = false
  | .malformedNumber text =>
    text ≠ "" ∧ text.toList <+: solid behind ∧ Decimal.literal? text.toList = none
  | .unexpectedToken expected found =>
    -- The token is the character at the position; an operator of which only the first half is there
    -- stands in front of it.
    found ≠ "" ∧ found.toList = expected.firstHalf?.toList ++ behind.take 1 ∧
      expected.firstHalf?.toList <:+ solid before ∧ StartsSolid behind
  | .unexpectedEnd | .unterminatedQuote _ => behind = []
  | .trailingInput rest => rest ≠ "" ∧ StartsSolid rest.toList ∧ behind = rest.toList
  | .tooDeep limit => limit = 64 ∨ limit = 256
  | .colonInName name => ':' ∈ name.toList ∧ name.toList <+: solid behind
  | .unreadable _ => False

namespace Parser

open Lexeme

variable {scope : Scope} {u : Input} {e : Failure}

/-- A longest run of characters is what stands in front of the rest, but for blanks. -/
theorem solid_of_longest {viable : List Char → Prop} {chars s rest : List Char}
    (h : Longest viable chars s rest) : solid s = chars ++ solid rest := by
  obtain ⟨run, rfl, hrun⟩ := h.run
  rw [solid_append, hrun]

theorem solid_bareName (s : Input) : solid s = (bareName s).1 ++ solid (bareName s).2 :=
  solid_of_longest (bareName_eq_iff.mp rfl)

theorem solid_numberRun (s : Input) :
    solid s = (numberRun false s).1 ++ solid (numberRun false s).2 :=
  solid_of_longest (numberRun_eq_iff.mp rfl)

/-- A name in front of a parenthesis. -/
theorem startsCall_of_opening {s : Input} (hopen : (bareName s).2.head? = some '(') :
    (bareName s).1 ++ ['('] <+: solid s := by
  obtain ⟨more, hmore⟩ := List.head?_eq_some_iff.mp hopen
  refine ⟨solid more, ?_⟩
  rw [solid_bareName s, hmore, solid_cons_of_solid (by decide), List.append_assoc]
  rfl

theorem ofList_ne_empty {chars : List Char} (h : chars ≠ []) : String.ofList chars ≠ "" := by
  intro hempty
  exact h (by simpa using congrArg String.toList hempty)

/-- A fault that is met at a place fits its position, whatever stands in front of the place. -/
theorem Met.fits (h : Met scope u e) (hsolid : StartsSolid u) (lead : Input) :
    ∃ middle, u = middle ++ e.unread ∧
      e.fault.Fits scope.resolve (lead ++ middle) e.unread := by
  cases h with
  | @unexpected _ expected hhalf =>
      refine ⟨[], ?_⟩
      cases u with
      | nil => exact ⟨rfl, rfl⟩
      | cons c s =>
          refine ⟨rfl, ofList_ne_empty (by simp), ?_, ?_, hsolid⟩
          · rw [String.toList_ofList, hhalf]
            rfl
          · simp [hhalf]
  | @unfinished c s expected hhalf =>
      obtain ⟨blanks, hs, hblanks⟩ := exists_blanks s
      refine ⟨c :: blanks, congrArg (c :: ·) hs, ofList_ne_empty (by simp), ?_, ?_,
        startsSolid_skipBlanks s⟩
      · rw [String.toList_ofList, hhalf]
        rfl
      · rw [solid_append, solid_cons_of_solid (startsSolid_cons.mp hsolid), hblanks, hhalf]
        exact List.suffix_append _ _
  | number hrun hliteral =>
      refine ⟨[], rfl, ofList_ne_empty hrun, ?_, ?_⟩
      · rw [String.toList_ofList]
        exact ⟨_, (solid_numberRun u).symm⟩
      · rwa [String.toList_ofList]
  | @openString s => exact ⟨'\x22' :: s, by simp, rfl⟩
  | @openName c s => exact ⟨c :: s, by simp, rfl⟩
  | «variable» hname =>
      refine ⟨[], rfl, .inl ⟨ofList_ne_empty hname, ?_⟩⟩
      rw [String.toList_ofList]
      exact ⟨_, (solid_bareName u).symm⟩
  | @quotedVariable c s rest name hc hname =>
      obtain ⟨blanks, rfl, -⟩ := upTo_eq_some_iff.mp hname
      exact ⟨[], rfl, .inr ⟨c, blanks ++ rest, hc, by rw [String.toList_ofList]⟩⟩
  | function hname hopen hunknown =>
      refine ⟨[], rfl, ofList_ne_empty hname, ?_, hunknown⟩
      rw [String.toList_ofList]
      exact startsCall_of_opening hopen
  | arity hname hopen hresolve hcount =>
      refine ⟨[], rfl, _, _, ofList_ne_empty hname, ?_, hresolve, rfl, rfl, hcount⟩
      rw [String.toList_ofList]
      exact startsCall_of_opening hopen
  | colon hname hcolon =>
      refine ⟨[], rfl, by simpa using hcolon, ?_⟩
      rw [← hname]
      exact ⟨_, (solid_bareName u).symm⟩
  | height => exact ⟨[], rfl, .inr rfl⟩
  | nesting => exact ⟨[], rfl, .inl rfl⟩
  | trailing hmore =>
      refine ⟨[], rfl, ofList_ne_empty hmore, ?_, ?_⟩
      · rwa [String.toList_ofList]
      · rw [String.toList_ofList]

/-- What is left unread when a text is refused is a rest of the text, and the fault fits its
beginning. -/
theorem fits_formula {text : List Char} (h : formula scope text = .error e) :
    ∃ before, text = before ++ e.unread ∧ e.fault.Fits scope.resolve before e.unread := by
  have htraced := traced_formula scope text
  rw [h] at htraced
  cases htraced with
  | error hclear hsolid hmet =>
      obtain ⟨lead, rfl, -⟩ := hclear
      obtain ⟨middle, rfl, hfits⟩ := hmet.fits hsolid lead
      exact ⟨lead ++ middle, (List.append_assoc ..).symm, hfits⟩

end Parser

namespace Formula

variable {registry : Registry} {now : Timestamp} {mode : BindingMode} {offered : List Variable}
  {text : String} {store : Store} {e : CompileError}

/-- A refused text is refused by the parser, at the rest that it left unread. -/
theorem failure_of_compile (h : compile registry now mode offered text store = .error e) :
    ∃ failure, Parser.formula (scope registry now mode offered) text.toList = .error failure ∧
      e = ⟨failure.fault, text, text.toList.length - failure.unread.length⟩ := by
  rw [compile_eq_map, Parser.parse] at h
  split at h
  · cases h
  · next failure hfailure => exact ⟨failure, hfailure, (Except.error.inj h).symm⟩

/-- Every compile error shows the text that was compiled, its position lies in the text or at its
end, and what it says fits what stands there. -/
theorem compile_error_fits (h : compile registry now mode offered text store = .error e) :
    e.formula = text ∧ e.position ≤ text.length ∧
      e.fault.Fits registry.resolve (text.toList.take e.position)
        (text.toList.drop e.position) := by
  obtain ⟨failure, hfailure, rfl⟩ := failure_of_compile h
  obtain ⟨before, htext, hfits⟩ := Parser.fits_formula hfailure
  have hposition : text.toList.length - failure.unread.length = before.length := by
    rw [htext, List.length_append, Nat.add_sub_cancel]
  refine ⟨rfl, ?_, ?_⟩
  · rw [← String.length_toList]
    exact Nat.sub_le ..
  · rw [hposition, htext, List.take_left, List.drop_left]
    exact hfits

/-- An unknown variable is pointed at, and so is the number that stands where an equals sign had to
stand. -/
theorem compile_error_fits_name :
    (∃ e, compile .builtinsOnly ⟨0, 0⟩ .noVariables [] "1 + foo" .empty = .error e ∧
      e.position = 4 ∧
      (Fault.unknownVariable "foo").Fits Registry.builtinsOnly.resolve "1 + ".toList "foo".toList) ∧
    ∃ e, compile .builtinsOnly ⟨0, 0⟩ .noVariables [] "1 = 2" .empty = .error e ∧ e.position = 4 ∧
      (Fault.unexpectedToken .equal "=2").Fits Registry.builtinsOnly.resolve "1 = ".toList
        "2".toList := by
  have hrefused : ∀ text fault, (compile .builtinsOnly ⟨0, 0⟩ .noVariables [] text .empty).map
      (fun _ => ()) = .error ⟨fault, text, 4⟩ →
      ∃ e, compile .builtinsOnly ⟨0, 0⟩ .noVariables [] text .empty = .error e ∧ e.position = 4 ∧
        fault.Fits Registry.builtinsOnly.resolve (text.toList.take 4) (text.toList.drop 4) := by
    intro text fault hfails
    cases hcompile : compile .builtinsOnly ⟨0, 0⟩ .noVariables [] text .empty with
    | ok result =>
        rw [hcompile] at hfails
        cases hfails
    | error e =>
        rw [hcompile] at hfails
        obtain rfl := Except.error.inj hfails
        exact ⟨_, rfl, rfl, (compile_error_fits hcompile).2.2⟩
  exact ⟨hrefused "1 + foo" _ (by decide +kernel), hrefused "1 = 2" _ (by decide +kernel)⟩

end Formula

end ProcessFormula
