import ProcessFormula.Proofs.Grammar.Marks
import ProcessFormula.Proofs.Grammar.Squeezing

/-!
Where the readers stop. A reader that succeeds leaves the text outside of literals and at a character
that is not blank, and a reader that fails has met a fault at such a place: for every fault there is
a fact about the text from that place on that explains it.
-/

namespace ProcessFormula

/-- The half of an operator behind which its other half is expected. -/
def Expected.firstHalf? : Expected → Option Char
  | .notEqual => some '!'
  | .equal => some '='
  | .operand | .closingParenthesis | .branchColon => none

namespace Parser

open Lexeme Text Grammar

/-- The faults that can be met at the start of a text, with what is left unread. -/
inductive Met (scope : Scope) : Input → Failure → Prop
  | unexpected {s : Input} {expected : Expected} (h : expected.firstHalf? = none) :
      Met scope s (unexpected expected s)
  | unfinished {c : Char} {s : Input} {expected : Expected} (h : expected.firstHalf? = some c) :
      Met scope (c :: s) (unfinished expected c (skipBlanks s))
  | number {s : Input} (hrun : (numberRun false s).1 ≠ [])
      (h : Decimal.literal? (numberRun false s).1 = none) :
      Met scope s ⟨.malformedNumber (String.ofList (numberRun false s).1), s⟩
  | openString {s : Input} (h : stringBody false s = none) :
      Met scope ('\x22' :: s) ⟨.unterminatedQuote .string, []⟩
  | openName {c : Char} {s : Input} (hc : c = '\x27' ∨ c = '\x60') (h : upTo c s = none) :
      Met scope (c :: s) ⟨.unterminatedQuote .variableName, []⟩
  | variable {s : Input} (hname : (bareName s).1 ≠ [])
      (hunknown : scope.knows (String.ofList (bareName s).1) = false) :
      Met scope s ⟨.unknownVariable (String.ofList (bareName s).1), s⟩
  | quotedVariable {c : Char} {s rest : Input} {name : List Char} (hc : c = '\x27' ∨ c = '\x60')
      (hname : upTo c s = some (name, rest)) (hunknown : scope.knows (String.ofList name) = false) :
      Met scope (c :: s) ⟨.unknownVariable (String.ofList name), c :: s⟩
  | function {s : Input} (hname : (bareName s).1 ≠ []) (hopen : (bareName s).2.head? = some '(')
      (hunknown : scope.resolve (String.ofList (bareName s).1) = none) :
      Met scope s ⟨.unknownFunction (String.ofList (bareName s).1), s⟩
  | arity {s : Input} {f : Callable} {count : Nat} (hname : (bareName s).1 ≠ [])
      (hopen : (bareName s).2.head? = some '(')
      (hresolve : scope.resolve (String.ofList (bareName s).1) = some f)
      (hcount : f.arity.accepts count = false) :
      Met scope s ⟨.arityMismatch f.signature f.arity count, s⟩
  | colon {s : Input} {name : String} (hname : (bareName s).1 = name.toList)
      (hcolon : name.contains ':' = true) : Met scope s ⟨.colonInName name, s⟩
  | height {s : Input} : Met scope s ⟨.tooDeep maxHeight, s⟩
  | nesting {s : Input} : Met scope s ⟨.tooDeep maxNesting, s⟩
  | trailing {s : Input} (hmore : s ≠ []) : Met scope s ⟨.trailingInput (String.ofList s), s⟩

/-- A computation over the text `s` succeeds with such a result, or fails with a fault that was met at
a rest of the text. -/
inductive Traced (scope : Scope) (s : Input) {α : Type} (stops : α → Prop) :
    Except Failure α → Prop
  | ok {a : α} (h : stops a) : Traced scope s stops (.ok a)
  | error {u : Input} {e : Failure} (hclear : Clear s u) (hsolid : StartsSolid u)
      (h : Met scope u e) : Traced scope s stops (.error e)

section

variable {scope : Scope} {s u v : Input} {α β : Type} {stops : α → Prop} {stops' : β → Prop}
  {x : Except Failure α}

/-- What is known of two computations is known of the one followed by the other. -/
theorem Traced.bind (h : Traced scope s stops x) {f : α → Except Failure β}
    (hmore : ∀ a, stops a → Traced scope s stops' (f a)) : Traced scope s stops' (x >>= f) := by
  cases h with
  | ok h => exact hmore _ h
  | error hclear hsolid h => exact .error hclear hsolid h

theorem Traced.behind (hclear : Clear s u) (h : Traced scope u stops x) :
    Traced scope s stops x := by
  cases h with
  | ok h => exact .ok h
  | error hclear' hsolid h => exact .error (hclear.trans hclear') hsolid h

/-- A name starts at a rest of the text. -/
structure NamedAt (s : Input) (name : String) (start : Input) : Prop where
  clear : Clear s start
  solid : StartsSolid start
  reads : (bareName start).1 = name.toList

/-- Reading the text `s` may stop in front of `rest`, the last unquoted name being this one. -/
structure Stops (s rest : Input) (lastName : Option (String × Input)) : Prop where
  clear : Clear s rest
  solid : StartsSolid rest
  named : ∀ name start, lastName = some (name, start) → NamedAt s name start

theorem Stops.behind {lastName : Option (String × Input)} (hclear : Clear s u)
    (h : Stops u v lastName) : Stops s v lastName where
  clear := hclear.trans h.clear
  solid := h.solid
  named name start hname :=
    let named := h.named name start hname
    ⟨hclear.trans named.clear, named.solid, named.reads⟩

/-- The latest name of two readings is that of the second, or else that of the first. -/
theorem Stops.append {lastName lastName' : Option (String × Input)} (h : Stops s u lastName)
    (h' : Stops u v lastName') : Stops s v (lastName'.or lastName) where
  clear := h.clear.trans h'.clear
  solid := h'.solid
  named name start hname := by
    rcases Option.or_eq_some_iff.mp hname with hname | ⟨-, hname⟩
    · exact (h'.behind h.clear).named name start hname
    · exact h.named name start hname

/-- Text may be read on behind a mark that is not quoted. -/
theorem Stops.accept {lastName : Option (String × Input)} (h : Stops s u lastName) {c : Char}
    (hc : isQuote c = false) {rest : Shorter u} (haccept : accept c u = some rest) :
    Stops s rest.1 lastName where
  clear := h.clear.trans (.accept hc haccept)
  solid := startsSolid_accept haccept
  named := h.named

end

def Traces (scope : Scope) (reader : Reader) : Prop :=
  ∀ s, StartsSolid s → Traced scope s (fun p : Parsed s => Stops s p.rest p.lastName) (reader s)

/-- Behind an operator text may be read on. -/
def OperatorStops (s : Input) (found : Operator s) : Prop :=
  ∀ op rest, found = some (op, rest) → Clear s rest.1 ∧ StartsSolid rest.1

section

variable {scope : Scope} {s u : Input}

theorem traced_limited (hclear : Clear s u) (hsolid : StartsSolid u) (tree : Expr String) :
    Traced scope s (fun _ => True) (limited tree u) := by
  unfold limited
  split
  · exact .ok trivial
  · exact .error hclear hsolid .height

theorem traced_closeParenthesis (hclear : Clear s u) (hsolid : StartsSolid u) :
    Traced scope s (fun rest => Clear s rest.1 ∧ StartsSolid rest.1) (closeParenthesis u) := by
  unfold closeParenthesis
  split
  · next rest hrest =>
    exact .ok ⟨hclear.trans (.accept rfl hrest), startsSolid_accept hrest⟩
  · exact .error hclear hsolid (.unexpected rfl)

/-! ### Operators -/

theorem OperatorStops.or {found other : Operator s} (h : OperatorStops s found)
    (h' : OperatorStops s other) : OperatorStops s (found.or other) := by
  intro op rest hfound
  rcases Option.or_eq_some_iff.mp hfound with hfound | ⟨-, hfound⟩
  · exact h op rest hfound
  · exact h' op rest hfound

theorem operatorStops_single {c : Char} (hc : isQuote c = false) (op : BinaryOp) :
    OperatorStops s (single c op s) := by
  intro op' rest hfound
  obtain ⟨rest', haccept, heq⟩ := Option.map_eq_some_iff.mp hfound
  obtain ⟨-, rfl⟩ := Prod.mk.inj heq
  exact ⟨.accept hc haccept, startsSolid_accept haccept⟩

theorem clear_skip {c : Char} (hc : isQuote c = false) (hs : StartsSolid s) :
    Clear s (skip c s) ∧ StartsSolid (skip c s) := by
  unfold skip
  split
  · next rest hrest => exact ⟨.accept hc hrest, startsSolid_accept hrest⟩
  · exact ⟨.refl s, hs⟩

theorem operatorStops_doubled {c : Char} (hc : isQuote c = false) (op : BinaryOp) :
    OperatorStops s (doubled c op s) := by
  intro op' rest hfound
  obtain ⟨rest', haccept, heq⟩ := Option.map_eq_some_iff.mp hfound
  obtain ⟨-, rfl⟩ := Prod.mk.inj heq
  obtain ⟨hclear, hsolid⟩ := clear_skip hc (startsSolid_accept haccept)
  exact ⟨(Clear.accept hc haccept).trans hclear, hsolid⟩

theorem operatorStops_maybeEquals {c : Char} (hc : isQuote c = false) (alone orEqual : BinaryOp) :
    OperatorStops s (maybeEquals c alone orEqual s) := by
  intro op' rest hfound
  obtain ⟨rest', haccept, heq⟩ := Option.map_eq_some_iff.mp hfound
  split at heq
  · next more hmore =>
    have hsolid := startsSolid_accept hmore
    obtain ⟨-, rfl⟩ := Prod.mk.inj heq
    exact ⟨(Clear.accept hc haccept).trans (.accept rfl hmore), hsolid⟩
  · obtain ⟨-, rfl⟩ := Prod.mk.inj heq
    exact ⟨.accept hc haccept, startsSolid_accept haccept⟩

theorem traced_withEquals {c : Char} (hc : isQuote c = false) (op : BinaryOp)
    {expected : Expected} (hexpected : expected.firstHalf? = some c) (hs : StartsSolid s) :
    Traced scope s (OperatorStops s) (withEquals c op expected s) := by
  unfold withEquals
  split
  · exact .ok fun _ _ h => nomatch h
  · next rest haccept =>
    split
    · next more hmore =>
      have hsolid := startsSolid_accept hmore
      refine .ok fun op' rest' heq => ?_
      obtain ⟨-, rfl⟩ := Prod.mk.inj (Option.some.inj heq)
      exact ⟨(Clear.accept hc haccept).trans (.accept rfl hmore), hsolid⟩
    · obtain ⟨more, rfl, hrest⟩ := accept_eq_some haccept
      rw [hrest]
      exact .error (.refl _) hs (.unfinished hexpected)

theorem traced_compareOperator (hs : StartsSolid s) :
    Traced scope s (OperatorStops s) (compareOperator s) := by
  refine (traced_withEquals rfl .ne rfl hs).bind fun ne hne => ?_
  refine (traced_withEquals rfl .eq rfl hs).bind fun eq heq => ?_
  exact .ok (((hne.or heq).or (operatorStops_maybeEquals rfl _ _)).or
    (operatorStops_maybeEquals rfl _ _))

theorem traced_sumOperator : Traced scope s (OperatorStops s) (sumOperator s) :=
  .ok ((operatorStops_single rfl _).or (operatorStops_single rfl _))

theorem traced_productOperator : Traced scope s (OperatorStops s) (productOperator s) :=
  .ok (((operatorStops_single rfl _).or (operatorStops_single rfl _)).or
    (operatorStops_single rfl _))

/-! ### Loops -/

theorem traced_chainFrom {operator : (s : Input) → Except Failure (Operator s)} {operand : Reader}
    (hoperator : ∀ u, StartsSolid u → Traced scope u (OperatorStops u) (operator u))
    (hoperand : Traces scope operand) {left : Parsed s} (hleft : Stops s left.rest left.lastName) :
    Traced scope s (fun p : Parsed s => Stops s p.rest p.lastName)
      (chainFrom operator operand left) := by
  induction left using chainFrom.induct with
  | case1 left ih =>
      rw [chainFrom]
      refine ((hoperator left.rest hleft.solid).behind hleft.clear).bind fun found hfound => ?_
      rcases found with _ | ⟨op, rest⟩
      · exact .ok hleft
      · obtain ⟨hclear, hsolid⟩ := hfound op rest rfl
        refine ((hoperand rest.1 hsolid).behind (hleft.clear.trans hclear)).bind
          fun right hright => ?_
        have hnext := hleft.append (hright.behind hclear)
        exact (traced_limited hnext.clear hnext.solid _).bind fun tree _ => ih rest right tree hnext

theorem traces_chain {operator : (s : Input) → Except Failure (Operator s)} {operand : Reader}
    (hoperator : ∀ u, StartsSolid u → Traced scope u (OperatorStops u) (operator u))
    (hoperand : Traces scope operand) : Traces scope (chain operator operand) :=
  fun s hs => (hoperand s hs).bind fun _ hleft => traced_chainFrom hoperator hoperand hleft

theorem traced_arguments {nested : Reader} (hnested : Traces scope nested) (hs : StartsSolid s) :
    Traced scope s (fun a : Arguments s => Stops s a.rest a.lastName) (arguments nested s) := by
  induction s using arguments.induct with
  | case1 s ih =>
      rw [arguments]
      refine (hnested s hs).bind fun first hfirst => ?_
      split
      · exact .ok hfirst
      · next rest hcomma =>
        have hrest := hfirst.accept rfl hcomma
        refine ((ih first rest hrest.solid).behind hrest.clear).bind fun more hmore => ?_
        exact .ok (hrest.append hmore)

/-- Where a colon is missing, the name that may have swallowed it, or the character in its place, is
what the fault points at. -/
theorem traced_missingColon {α : Type} {stops : α → Prop} {thenBranch : Parsed u}
    (hclear : Clear s u) (hthen : Stops u thenBranch.rest thenBranch.lastName) :
    Traced scope s stops (.error (missingColon thenBranch)) := by
  have hunexpected : Traced scope s stops (.error (unexpected .branchColon thenBranch.rest)) :=
    .error (hclear.trans hthen.clear) hthen.solid (.unexpected rfl)
  unfold missingColon
  split
  · next name start hlast =>
    split
    · next hcolon =>
      obtain ⟨hstart, hsolid, hname⟩ := hthen.named name start hlast
      exact .error (hclear.trans hstart) hsolid (.colon hname hcolon)
    · exact hunexpected
  · exact hunexpected

theorem traced_logicalFrom {nested : Reader} (hcompare : Traces scope (compare scope nested))
    (hnested : Traces scope nested) {left : Parsed s} (hleft : Stops s left.rest left.lastName) :
    Traced scope s (fun p : Parsed s => Stops s p.rest p.lastName)
      (logicalFrom scope nested left) := by
  induction left using logicalFrom.induct with
  | case1 left op rest hop ih =>
      rw [logicalFrom]
      simp only [hop]
      have hstops : OperatorStops left.rest
          ((doubled '&' .and left.rest).or (doubled '|' .or left.rest)) :=
        (operatorStops_doubled rfl .and).or (operatorStops_doubled rfl .or)
      obtain ⟨hclear, hsolid⟩ := hstops op rest hop
      refine ((hcompare rest.1 hsolid).behind (hleft.clear.trans hclear)).bind fun right hright => ?_
      have hnext := hleft.append (hright.behind hclear)
      exact (traced_limited hnext.clear hnext.solid _).bind fun tree _ => ih right tree hnext
  | case2 left hop hmark =>
      rw [logicalFrom]
      simp only [hop, hmark]
      exact .ok hleft
  | case3 left hop rest hmark ih =>
      rw [logicalFrom]
      simp only [hop, hmark]
      have hrest := hleft.accept rfl hmark
      refine ((hcompare rest.1 hrest.solid).behind hrest.clear).bind fun thenBranch hthen => ?_
      split
      · exact traced_missingColon hrest.clear hthen
      · next afterColon hcolon =>
        have hcolonStops := hthen.accept rfl hcolon
        refine ((hnested afterColon.1 hcolonStops.solid).behind
          (hrest.clear.trans hcolonStops.clear)).bind fun elseBranch helse => ?_
        have hnext := hrest.append (hcolonStops.append helse)
        exact (traced_limited hnext.clear hnext.solid _).bind
          fun tree _ => ih thenBranch afterColon elseBranch tree hnext

end

/-! ### Operands -/

section

variable {scope : Scope} {nested : Reader} {s : Input}

theorem Stops.of_clear {rest : Input} (hclear : Clear s rest) (hsolid : StartsSolid rest) :
    Stops s rest none :=
  ⟨hclear, hsolid, fun _ _ h => nomatch h⟩

/-- The results of reading an operand at which reading may stop. -/
def OperandStops (s : Input) (p : Operand s) : Prop := Stops s p.rest p.lastName

theorem traced_number {c : Char} (hc : startsNumber c = true) :
    Traced scope (c :: s) (OperandStops (c :: s)) (number c s hc) := by
  have hsolid : StartsSolid (c :: s) := startsSolid_cons.mpr (isBlank_of_startsNumber hc)
  have hrun : Longest (Runs numberGoesOn) (numberRun false (c :: s)).1 (c :: s)
      (numberRun false (c :: s)).2 := numberRun_eq_iff.mp rfl
  have hne : (numberRun false (c :: s)).1 ≠ [] := by simp [numberRun, continuesNumber, hc]
  simp only [number]
  split
  · exact .ok (.of_clear (clear_numberRun false _) hrun.startsSolid)
  · next hnone => exact .error (.refl _) hsolid (.number hne hnone)

/-- Behind the closing quote of a text constant the text is outside of quotes again. -/
theorem clear_string {r : List Char × Input} (h : stringBody false s = some r) :
    Clear ('\x22' :: s) r.2 := by
  obtain ⟨lead, hs, hlead⟩ := after_stringBody h
  exact ⟨'\x22' :: lead, congrArg (_ :: ·) hs, hlead⟩

theorem startsSolid_stringBody {r : List Char × Input} (h : stringBody false s = some r) :
    StartsSolid r.2 := by
  obtain ⟨body, blanks, -, -, -, hrest, -⟩ := stringBody_eq_some_iff.mp h
  exact hrest

theorem traced_string : Traced scope ('\x22' :: s) (OperandStops ('\x22' :: s)) (string '\x22' s) := by
  unfold string
  split
  · next r hr => exact .ok (.of_clear (clear_string hr) (startsSolid_stringBody hr))
  · next hnone => exact .error (.refl _) (startsSolid_cons.mpr (by decide)) (.openString hnone)

/-- Behind the closing quote of a name the text is outside of quotes again. -/
theorem clear_quotedName {c : Char} (hc : c = '\x27' ∨ c = '\x60') {r : List Char × Input}
    (h : upTo c s = some r) : Clear (c :: s) r.2 := by
  obtain ⟨lead, hs, hlead⟩ := after_upTo h
  refine ⟨c :: lead, congrArg (c :: ·) hs, ?_⟩
  rcases hc with rfl | rfl
  · exact hlead
  · exact hlead

theorem startsSolid_upTo {c : Char} {r : List Char × Input} (h : upTo c s = some r) :
    StartsSolid r.2 := by
  obtain ⟨blanks, -, -, -, hrest⟩ := upTo_eq_some_iff.mp h
  exact hrest

theorem traced_variableNamed {name : String} {start : Input} (hclear : Clear s start)
    (hsolid : StartsSolid start)
    (hmet : scope.knows name = false → Met scope start ⟨.unknownVariable name, start⟩) :
    Traced scope s (fun _ => True) (variableNamed scope name start) := by
  unfold variableNamed
  split
  · exact .ok trivial
  · next hunknown => exact .error hclear hsolid (hmet (by simpa using hunknown))

theorem traced_quotedName {c : Char} (hc : c = '\x27' ∨ c = '\x60') :
    Traced scope (c :: s) (OperandStops (c :: s)) (quotedName scope c s) := by
  have hsolid : StartsSolid (c :: s) := startsSolid_quote hc s
  unfold quotedName
  split
  · next r hr =>
    refine (traced_variableNamed (.refl _) hsolid fun hunknown => ?_).bind fun tree _ => ?_
    · exact .quotedVariable hc hr hunknown
    · exact .ok (.of_clear (clear_quotedName hc hr) (startsSolid_upTo hr))
  · next hnone => exact .error (.refl _) hsolid (.openName hc hnone)

theorem traced_parenthesised (hnested : Traces scope nested) {inner : Shorter s}
    (hinner : accept '(' s = some inner) :
    Traced scope s (OperandStops s) (parenthesised nested s inner) := by
  have hclear : Clear s inner.1 := .accept rfl hinner
  refine ((hnested inner.1 (startsSolid_accept hinner)).behind hclear).bind fun p hp => ?_
  have hp' := hp.behind hclear
  refine (traced_closeParenthesis hp'.clear hp'.solid).bind fun rest hrest => ?_
  exact .ok ⟨hrest.1, hrest.2, hp'.named⟩

theorem traced_call {name : String} {start unread : Input} {args : List (Expr String)}
    (hclear : Clear s start) (hsolid : StartsSolid start) (hname : (bareName start).1 = name.toList)
    (hne : (bareName start).1 ≠ []) (hopen : (bareName start).2.head? = some '(')
    (hunread : Clear s unread) (hunreadSolid : StartsSolid unread) :
    Traced scope s (fun _ => True) (call scope name start args unread) := by
  obtain rfl : name = String.ofList (bareName start).1 := by rw [hname, String.ofList_toList]
  unfold call
  split
  · next hnone => exact .error hclear hsolid (.function hne hopen hnone)
  · next f hf =>
    split
    · exact traced_limited hunread hunreadSolid _
    · next hcount => exact .error hclear hsolid (.arity hne hopen hf (by simpa using hcount))

theorem traced_named (hnested : Traces scope nested) (hs : StartsSolid s) :
    Traced scope s (OperandStops s) (named scope nested s) := by
  have hrest : Stops s (bareName s).2 (some (String.ofList (bareName s).1, s)) := by
    have hrun : Longest (Runs nameGoesOn) (bareName s).1 s (bareName s).2 := bareName_eq_iff.mp rfl
    refine ⟨clear_bareName s, hrun.startsSolid, fun name start hlast => ?_⟩
    obtain ⟨rfl, rfl⟩ := Prod.mk.inj (Option.some.inj hlast)
    exact ⟨.refl s, hs, String.toList_ofList.symm⟩
  have hname : (bareName s).1 = (String.ofList (bareName s).1).toList := String.toList_ofList.symm
  unfold named
  dsimp only
  split
  · exact .error (.refl s) hs (.unexpected rfl)
  next hne =>
  split
  · refine (traced_variableNamed (.refl s) hs fun hunknown => ?_).bind fun tree _ => .ok hrest
    exact .variable hne hunknown
  · next inner hinner =>
    have hopen : (bareName s).2.head? = some '(' := by
      obtain ⟨more, heq, -⟩ := accept_eq_some hinner
      rw [heq, List.head?_cons]
    have hinnerStops := hrest.accept rfl hinner
    split
    · next rest hclose =>
      have hstops := hinnerStops.accept rfl hclose
      exact (traced_call (.refl s) hs hname hne hopen hstops.clear hstops.solid).bind
        fun tree _ => .ok hstops
    · refine ((traced_arguments hnested hinnerStops.solid).behind hinnerStops.clear).bind
        fun args hargs => ?_
      have hargsStops := hinnerStops.append hargs
      refine (traced_closeParenthesis hargsStops.clear hargsStops.solid).bind fun rest hclose => ?_
      refine (traced_call (.refl s) hs hname hne hopen hclose.1 hclose.2).bind fun tree _ => ?_
      exact .ok ⟨hclose.1, hclose.2, hargsStops.named⟩

theorem traced_unsigned (hnested : Traces scope nested) (hs : StartsSolid s) :
    Traced scope s (OperandStops s) (unsigned scope nested s) := by
  unfold unsigned
  split
  · exact .error (.refl _) hs (@Met.unexpected scope [] .operand rfl)
  · next c rest =>
    split
    · next hc => exact traced_quotedName hc
    · split
      · next hc =>
        subst hc
        exact traced_string
      · split
        · next hc => exact traced_number hc
        · split
          · next inner hinner => exact traced_parenthesised hnested hinner
          · exact traced_named hnested hs

theorem traces_primary (hnested : Traces scope nested) : Traces scope (primary scope nested) := by
  intro s hs
  unfold primary
  split
  · exact (traced_unsigned hnested hs).bind fun p hp => .ok hp
  · next inner hinner =>
    have hclear : Clear s inner.1 := .accept rfl hinner
    refine ((traced_unsigned hnested (startsSolid_accept hinner)).behind hclear).bind fun p hp => ?_
    have hstops : Stops s p.rest p.lastName := Stops.behind hclear hp
    exact (traced_limited hstops.clear hstops.solid _).bind fun tree _ => .ok hstops

theorem traces_unary (hnested : Traces scope nested) : Traces scope (unary scope nested) := by
  intro s hs
  unfold unary
  split
  · exact traces_primary hnested s hs
  · next inner hinner =>
    have hclear : Clear s inner.1 := .accept rfl hinner
    refine ((traces_primary hnested inner.1 (startsSolid_accept hinner)).behind hclear).bind
      fun p hp => ?_
    have hstops := hp.behind hclear
    exact (traced_limited hstops.clear hstops.solid _).bind fun tree _ => .ok hstops

theorem traces_compare (hnested : Traces scope nested) : Traces scope (compare scope nested) :=
  traces_chain (fun _ => traced_compareOperator) (traces_chain (fun _ _ => traced_sumOperator)
    (traces_chain (fun _ _ => traced_productOperator) (traces_unary hnested)))

/-! ### Formulas -/

/-- Every failure of an expression is met at its place, and every result stops at a place outside of
quotes. -/
theorem traces_expression (scope : Scope) (levels : Nat) :
    Traces scope (expression scope levels) := by
  induction levels with
  | zero => exact fun s hs => .error (.refl s) hs .nesting
  | succ levels ih =>
      have hcompare := traces_compare ih
      exact fun s hs => (hcompare s hs).bind fun _ hleft => traced_logicalFrom hcompare ih hleft

/-- Whatever is wrong with a text is met at a rest of the text. -/
theorem traced_formula (scope : Scope) (text : List Char) :
    Traced scope text (fun _ => True) (formula scope text) := by
  refine ((traces_expression scope (maxNesting + 1) _ (startsSolid_skipBlanks text)).behind
    (.skipBlanks text)).bind fun p hp => ?_
  split
  · exact .ok trivial
  · next hmore =>
    exact .error ((Clear.skipBlanks text).trans hp.clear) hp.solid (.trailing (by simpa using hmore))

end

end Parser

end ProcessFormula
